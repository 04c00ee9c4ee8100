import ApiGraph.Proofs.Ensures
import ApiGraph.Yaml.Node

namespace ApiGraph.Yaml

variable {α β : Type} {ending : Problem}

namespace Reading

-- A step fails where the text is malformed or where the tokens end.
abbrev Follows (ending : Problem) (x : Step α) : Prop :=
  Confined (fun r => r.ending = ending) (fun e => e = malformed ∨ e = ending) x

theorem follows_fail : Follows ending (fail : Step α) := confined_throw (.inl rfl)

theorem follows_peek : Follows ending peek := by
  refine confined_get_bind fun r h => ?_
  split
  · exact ends_pure.mpr h
  · rw [ends_bind, ends_get]
    exact ends_throw.mpr (.inr h)

theorem follows_skip : Follows ending skip := confined_modify fun _ h => h

theorem follows_next : Follows ending next :=
  follows_peek.bind fun _ => follows_skip.bind fun _ => confined_pure _

theorem follows_expect (es : List Expectation) : Follows ending (expect es) :=
  confined_modify fun _ h => h

theorem follows_orEmpty {isNext : Token → Bool} {after : Expectation} {node : Step Event}
    (hnode : Follows ending node) : Follows ending (orEmpty isNext after node) := by
  refine (follows_expect _).bind fun _ => follows_peek.bind fun t => ?_
  split
  · exact confined_pure _
  · exact hnode

theorem follows_resolveTag (handle : Option String) (suffix : String) :
    Follows ending (resolveTag handle suffix) := by
  unfold resolveTag
  split
  · exact confined_pure _
  · refine confined_get.bind fun r => ?_
    split
    · exact confined_pure _
    · exact follows_fail

theorem follows_properties : Follows ending properties := by
  refine follows_peek.bind fun t => ?_
  split
  · refine follows_skip.bind fun _ => follows_peek.bind fun t => ?_
    split
    · exact follows_skip.bind fun _ => (follows_resolveTag _ _).bind fun _ => confined_pure _
    · exact confined_pure _
  · refine follows_skip.bind fun _ => follows_peek.bind fun t => ?_
    split
    · exact follows_skip.bind fun _ => (follows_resolveTag _ _).bind fun _ => confined_pure _
    · exact (follows_resolveTag _ _).bind fun _ => confined_pure _
  · exact confined_pure _

theorem follows_missing (anchor tag : Option String) : Follows ending (node.missing anchor tag) := by
  unfold node.missing
  split
  · exact confined_pure _
  · exact follows_fail

theorem follows_node (block indentless : Bool) : Follows ending (node block indentless) := by
  have start (es : List Expectation) (e : Event) : Follows ending (do expect es; skip; return e) :=
    (follows_expect es).bind fun _ => follows_skip.bind fun _ => confined_pure e
  refine follows_peek.bind fun t => ?_
  split
  · exact follows_skip.bind fun _ => confined_pure _
  · refine follows_properties.bind fun p => follows_peek.bind fun t => ?_
    split
    · split
      · exact (follows_expect _).bind fun _ => confined_pure _
      · exact follows_missing _ _
    · exact follows_skip.bind fun _ => confined_pure _
    · exact start _ _
    · exact start _ _
    · split
      · exact start _ _
      · exact follows_missing _ _
    · split
      · exact start _ _
      · exact follows_missing _ _
    · exact follows_missing _ _

theorem follows_directives (bound : Nat) (versionSeen : Bool) (handles : List (String × String)) :
    Follows ending (directives bound versionSeen handles) := by
  induction bound generalizing versionSeen handles with
  | zero => exact follows_fail
  | succ bound ih =>
      unfold directives
      refine follows_peek.bind fun t => ?_
      split
      · exact follows_skip.bind fun _ => follows_fail.when (ih _ _)
      · exact follows_skip.bind fun _ => follows_fail.when (ih _ _)
      · exact follows_skip.bind fun _ => ih _ _
      · exact confined_pure _

theorem follows_document : Follows ending document := by
  refine Confined.bind (confined_modify fun _ h => h) fun _ => follows_peek.bind fun t => ?_
  split
  · exact confined_pure _
  · refine confined_get.bind fun r => (follows_directives _ _ _).bind fun handles => ?_
    refine follows_next.bind fun t => follows_fail.when ?_
    refine Confined.bind (confined_modify fun _ h => h) fun _ => ?_
    exact (follows_expect _).bind fun _ => confined_pure _

theorem follows_firstDocument : Follows ending firstDocument := by
  refine follows_peek.bind fun t => ?_
  split
  iterate 5 exact follows_document
  refine Confined.bind (confined_modify fun _ h => h) fun _ => ?_
  exact (follows_expect _).bind fun _ => confined_pure _

theorem follows_documentContent : Follows ending documentContent := by
  refine follows_peek.bind fun t => ?_
  split
  iterate 6 exact confined_pure _
  exact follows_node _ _

theorem follows_documentEnd : Follows ending documentEnd := by
  refine follows_peek.bind fun t => follows_skip.when ?_
  exact (follows_expect _).bind fun _ => confined_pure _

theorem follows_blockEntry : Follows ending blockEntry := by
  refine follows_next.bind fun t => ?_
  split
  · exact follows_orEmpty (follows_node _ _)
  · exact confined_pure _
  · exact follows_fail

theorem follows_indentlessEntry : Follows ending indentlessEntry := by
  refine follows_peek.bind fun t => ?_
  split
  · exact follows_skip.bind fun _ => follows_orEmpty (follows_node _ _)
  · exact confined_pure _

theorem follows_blockKey : Follows ending blockKey := by
  refine follows_next.bind fun t => ?_
  split
  · exact follows_orEmpty (follows_node _ _)
  · exact confined_pure _
  · exact follows_fail

-- A value, or an empty one that is not written.
theorem follows_optional {isNext : Token → Bool} {after : Expectation} {node : Step Event}
    (hnode : Follows ending node) (es : List Expectation) : Follows ending (do
      if (← peek) == .value then
        skip
        orEmpty isNext after node
      else
        expect es
        return emptyScalar) := by
  refine follows_peek.bind fun t => ?_
  split
  · exact follows_skip.bind fun _ => follows_orEmpty hnode
  · exact (follows_expect _).bind fun _ => confined_pure _

theorem follows_separator (first : Bool) : Follows ending (separator first) := by
  unfold separator
  split
  · refine follows_next.bind fun t => ?_
    split
    · exact follows_fail
    · exact confined_pure _
  · exact confined_pure _

theorem follows_flowEntry (first : Bool) : Follows ending (flowEntry first) := by
  refine follows_peek.bind fun t => ?_
  split
  · exact follows_skip.bind fun _ => confined_pure _
  · refine (follows_separator _).bind fun _ => follows_peek.bind fun t => ?_
    split
    · exact (follows_expect _).bind fun _ => confined_pure _
    · exact follows_skip.bind fun _ => confined_pure _
    · exact (follows_expect _).bind fun _ => follows_node _ _

theorem follows_flowKey (first : Bool) : Follows ending (flowKey first) := by
  refine follows_peek.bind fun t => ?_
  split
  · exact follows_skip.bind fun _ => confined_pure _
  · refine (follows_separator _).bind fun _ => follows_peek.bind fun t => ?_
    split
    · exact follows_skip.bind fun _ => follows_orEmpty (follows_node _ _)
    · exact follows_skip.bind fun _ => confined_pure _
    · exact (follows_expect _).bind fun _ => follows_node _ _

theorem follows_meets (e : Expectation) : Follows ending (meets e) := by
  cases e with
  | firstDocument => exact follows_firstDocument
  | document => exact follows_document
  | documentContent => exact follows_documentContent
  | documentEnd => exact follows_documentEnd
  | blockNode => exact follows_node _ _
  | blockEntry => exact follows_blockEntry
  | indentlessEntry => exact follows_indentlessEntry
  | blockKey => exact follows_blockKey
  | blockValue => exact follows_optional (follows_node _ _) _
  | flowEntry first => exact follows_flowEntry first
  | pairKey => exact follows_skip.bind fun _ => follows_orEmpty (follows_node _ _)
  | pairValue => exact follows_optional (follows_node _ _) _
  | pairEnd => exact (follows_expect _).bind fun _ => confined_pure _
  | flowKey first => exact follows_flowKey first
  | flowValue => exact follows_optional (follows_node _ _) _
  | flowEmptyValue => exact (follows_expect _).bind fun _ => confined_pure _

theorem follows_event : Follows ending event := by
  refine confined_get_bind fun r h => ?_
  split
  · rw [ends_bind, ends_get]
    exact ends_throw.mpr (.inr h)
  · rw [ends_bind, ends_modify]
    exact follows_meets _ _ h

theorem ending_events (bound : Nat) (r : Reading) (acc : List Event) (h : r.ending = ending) :
    (events bound r acc).ending = malformed ∨ (events bound r acc).ending = ending := by
  induction bound generalizing r acc with
  | zero => exact .inr h
  | succ bound ih =>
      have hevent : Follows ending event := follows_event
      unfold events
      cases hrun : event.run r with
      | error e => exact (ends_of_error hrun).mp (hevent r h)
      | ok p =>
          obtain ⟨e, r'⟩ := p
          dsimp only
          split
          · exact .inl rfl
          · exact ih _ _ ((ends_of_ok hrun).mp (hevent r h))

end Reading

namespace Compose

-- The nodes are nested too deep, or it is the events that fail.
abbrev Composes (ending : Problem) (x : Compose α) : Prop :=
  Confined (fun c => c.ending = ending)
    (fun e => e = malformed ∨ e = .fault .stackExhausted ∨ e = ending) x

theorem composes_malformed : Composes ending (throw malformed : Compose α) :=
  confined_throw (.inl rfl)

theorem composes_end : Composes ending (do throw (← get).ending : Compose α) :=
  confined_get_bind fun _ h => ends_throw.mpr (.inr (.inr h))

theorem composes_peek : Composes ending peek := by
  refine confined_get_bind fun c h => ?_
  split
  · exact ends_pure.mpr h
  · exact composes_end c h

theorem composes_skip : Composes ending skip := confined_modify fun _ h => h

theorem composes_add (anchor : Option String) (n : Node) : Composes ending (add anchor n) := by
  refine confined_get_bind fun c h => ?_
  dsimp only
  split
  · exact h
  · exact h

theorem composes_fill (id : Nat) (content : Content) : Composes ending (fill id content) :=
  confined_modify fun _ h => h

theorem composes_checkAnchor (anchor : Option String) : Composes ending (checkAnchor anchor) := by
  unfold checkAnchor
  split
  · refine confined_get.bind fun c => ?_
    split
    · exact composes_malformed
    · exact confined_pure _
  · exact confined_pure _

section Collection

variable {node : Compose Nat} (hnode : Composes ending node)
include hnode

theorem composes_items (bound : Nat) (acc : List Nat) : Composes ending (items node bound acc) := by
  induction bound generalizing acc with
  | zero => exact composes_end
  | succ bound ih =>
      unfold items
      refine composes_peek.bind fun e => ?_
      split
      · exact composes_skip.bind fun _ => confined_pure _
      · exact hnode.bind fun _ => ih _

theorem composes_entries (bound : Nat) (acc : List (Nat × Nat)) :
    Composes ending (entries node bound acc) := by
  induction bound generalizing acc with
  | zero => exact composes_end
  | succ bound ih =>
      unfold entries
      refine composes_peek.bind fun e => ?_
      split
      · exact composes_skip.bind fun _ => confined_pure _
      · exact hnode.bind fun _ => hnode.bind fun _ => ih _

end Collection

theorem composes_node (allowance : Nat) : Composes ending (node allowance) := by
  induction allowance with
  | zero => exact confined_throw (.inr (.inl rfl))
  | succ allowance ih =>
      unfold node
      refine composes_peek.bind fun e => ?_
      split
      · refine composes_skip.bind fun _ => confined_get.bind fun c => ?_
        split
        · exact confined_pure _
        · exact composes_malformed
      · exact (composes_checkAnchor _).bind fun _ => composes_skip.bind fun _ => composes_add _ _
      · refine (composes_checkAnchor _).bind fun _ => composes_skip.bind fun _ => ?_
        refine (composes_add _ _).bind fun id => confined_get.bind fun c => ?_
        exact (composes_items ih _ _).bind fun _ => (composes_fill _ _).bind fun _ => confined_pure _
      · refine (composes_checkAnchor _).bind fun _ => composes_skip.bind fun _ => ?_
        refine (composes_add _ _).bind fun id => confined_get.bind fun c => ?_
        exact (composes_entries ih _ _).bind fun _ => (composes_fill _ _).bind fun _ => confined_pure _
      · exact composes_malformed

theorem composes_document (allowance : Nat) : Composes ending (document allowance) := by
  refine composes_peek.bind fun e => ?_
  split
  · exact confined_pure _
  · refine composes_skip.bind fun _ => (composes_node _).bind fun root => ?_
    refine composes_peek.discard.bind fun _ => composes_skip.bind fun _ => composes_peek.bind fun e => ?_
    split
    · exact confined_pure _
    · exact composes_malformed

end Compose

theorem NodeGraph.ofEvents_eq_error {allowance : Nat} {tokens : TokenStream} {e : Problem}
    (h : NodeGraph.ofEvents allowance (.ofTokens tokens) = .error e) :
    e = malformed ∨ e = .fault .stackExhausted ∨ e = tokens.ending := by
  have hevents : (EventStream.ofTokens tokens).ending = malformed ∨
      (EventStream.ofTokens tokens).ending = tokens.ending := Reading.ending_events _ _ _ rfl
  generalize EventStream.ofTokens tokens = events at h hevents
  have hnodes : Compose.Composes events.ending (Compose.document allowance) :=
    Compose.composes_document allowance
  unfold NodeGraph.ofEvents at h
  cases hrun : (Compose.document allowance).run
      ⟨events.events.length + 1, events.events, events.ending, [], #[]⟩ with
  | ok r =>
      rw [hrun] at h
      cases h
  | error e' =>
      rw [hrun] at h
      cases h
      rcases (ends_of_error hrun).mp (hnodes _ rfl) with hmalformed | hstack | hending
      · exact .inl hmalformed
      · exact .inr (.inl hstack)
      · rcases hevents with heq | heq
        · exact .inl (hending.trans heq)
        · exact .inr (.inr (hending.trans heq))

end ApiGraph.Yaml
