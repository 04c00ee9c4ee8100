import ApiGraph.Proofs.Ensures
import ApiGraph.Proofs.Parsing.Scalar
import ApiGraph.Yaml.Document

namespace ApiGraph.Yaml

open ScalarText (Valueless)

-- A scalar is read from its own text, a mapping from the text of some scalar.
def NodeGraph.Offers (g : NodeGraph) (n : Node) (text : List Char) : Prop :=
  (∃ s, n.content = .scalar s ∧ s.toList = text) ∨
    (∃ entries, n.content = .mapping entries) ∧ ∃ m ∈ g, ∃ s, m.content = .scalar s ∧ s.toList = text

-- A node that no value can be made of, and the fault that it is.
inductive NodeFlaw (g : NodeGraph) : Fault → Prop
  | scalar {n : Node} {text : List Char} {f : Fault} (hn : n ∈ g) (htext : g.Offers n text)
      (h : Valueless text n.tag f) : NodeFlaw g f
  | mapping {n : Node} {entries : List (Nat × Nat)} (hn : n ∈ g) (htag : n.tag = .timestamp)
      (hcontent : n.content = .mapping entries) : NodeFlaw g .mappingAsTime

-- The graph as it was read, with the entries of mappings moved and with plain texts for marks.
def NodeGraph.Derives (g₀ g : NodeGraph) : Prop :=
  ∀ (id : Nat) n, g[id]? = some n → ∃ n₀, g₀[id]? = some n₀ ∧ (n.tag = n₀.tag ∨ n.tag = .str) ∧
    (n.content = n₀.content ∨
      (∃ entries, n.content = .mapping entries) ∧ ∃ entries, n₀.content = .mapping entries)

namespace NodeGraph

variable {g₀ g : NodeGraph} {n : Node} {id : Nat} {text : List Char}

theorem Derives.refl (g : NodeGraph) : g.Derives g := fun _ n h => ⟨n, h, .inl rfl, .inl rfl⟩

theorem mem_of_getElem? (h : g[id]? = some n) : n ∈ g := Array.mem_of_getElem? h

theorem getElem?_modify_cases {f : Node → Node} {i : Nat} (h : (g.modify i f)[id]? = some n) :
    g[id]? = some n ∨ ∃ m, i = id ∧ g[id]? = some m ∧ n = f m := by
  rw [Array.getElem?_modify] at h
  split at h
  next heq =>
    obtain ⟨m, hm, rfl⟩ := Option.map_eq_some_iff.mp h
    exact .inr ⟨m, heq, hm, rfl⟩
  next => exact .inl h

theorem Derives.setTag (h : g₀.Derives g) (i : Nat) :
    g₀.Derives (g.modify i fun n => { n with tag := .str }) := by
  intro id n hn
  rcases getElem?_modify_cases hn with hn | ⟨m, -, hm, rfl⟩
  · exact h id n hn
  · obtain ⟨n₀, hn₀, -, hcontent⟩ := h id m hm
    exact ⟨n₀, hn₀, .inr rfl, hcontent⟩

-- Only a mapping gets other entries.
theorem Derives.setContent (h : g₀.Derives g) {i : Nat} {entries entries' : List (Nat × Nat)}
    (hn : g[i]? = some n) (hcontent : n.content = .mapping entries) :
    g₀.Derives (g.modify i fun n => { n with content := .mapping entries' }) := by
  intro id n' hn'
  rcases getElem?_modify_cases hn' with hsame | ⟨m, rfl, hm, rfl⟩
  · exact h id n' hsame
  · obtain rfl : m = n := Option.some.inj (hm.symm.trans hn)
    obtain ⟨n₀, hn₀, htag, hcontent₀⟩ := h i m hm
    refine ⟨n₀, hn₀, htag, .inr ⟨⟨entries', rfl⟩, ?_⟩⟩
    rcases hcontent₀ with heq | ⟨-, hmapping⟩
    · exact ⟨entries, heq.symm.trans hcontent⟩
    · exact hmapping

theorem Derives.mem_scalar (h : g₀.Derives g) (hn : n ∈ g) {s : String} (hs : n.content = .scalar s) :
    ∃ n₀ ∈ g₀, n₀.content = .scalar s := by
  obtain ⟨id, hid⟩ := Array.mem_iff_getElem?.mp hn
  obtain ⟨n₀, hn₀, -, hcontent⟩ := h id n hid
  refine ⟨n₀, mem_of_getElem? hn₀, ?_⟩
  rcases hcontent with heq | ⟨⟨entries, hmapping⟩, -⟩
  · rw [← heq, hs]
  · rw [hs] at hmapping
    cases hmapping

-- What can be wrong with a node now was wrong with it before.
theorem Derives.flaw (h : g₀.Derives g) (hn : g[id]? = some n) (hoffers : g.Offers n text) {f : Fault}
    (hf : Valueless text n.tag f) : NodeFlaw g₀ f := by
  obtain ⟨n₀, hn₀, htag, hcontent⟩ := h id n hn
  have htag₀ : n.tag = n₀.tag := by
    rcases htag with heq | hstr
    · exact heq
    · rw [hstr] at hf
      cases hf
  refine .scalar (mem_of_getElem? hn₀) ?_ (htag₀ ▸ hf)
  rcases hoffers with ⟨s, hs, htext⟩ | ⟨⟨entries, hmapping⟩, m, hm, s, hs, htext⟩
  · rcases hcontent with heq | ⟨⟨entries, hmapping⟩, -⟩
    · exact .inl ⟨s, heq ▸ hs, htext⟩
    · rw [hs] at hmapping
      cases hmapping
  · obtain ⟨m₀, hm₀, hs₀⟩ := h.mem_scalar hm hs
    refine .inr ⟨?_, m₀, hm₀, s, hs₀, htext⟩
    rcases hcontent with heq | ⟨-, hmapping₀⟩
    · exact ⟨entries, heq ▸ hmapping⟩
    · exact hmapping₀

theorem Derives.mappingFlaw (h : g₀.Derives g) (hn : g[id]? = some n) (htime : n.tag = .timestamp)
    {entries : List (Nat × Nat)} (hmapping : n.content = .mapping entries) :
    NodeFlaw g₀ .mappingAsTime := by
  obtain ⟨n₀, hn₀, htag, hcontent⟩ := h id n hn
  have htag₀ : n₀.tag = .timestamp := by
    rcases htag with heq | hstr
    · exact heq.symm.trans htime
    · rw [htime] at hstr
      cases hstr
  rcases hcontent with heq | ⟨-, entries₀, hmapping₀⟩
  · exact .mapping (mem_of_getElem? hn₀) htag₀ (heq.symm.trans hmapping)
  · exact .mapping (mem_of_getElem? hn₀) htag₀ hmapping₀

end NodeGraph

namespace Build

variable {α β : Type} {g₀ : NodeGraph}

-- No failure without an announcement, but for nesting and for a node that has no value.
def Charged (g₀ : NodeGraph) (e : Problem) : Prop :=
  ∀ f, e = .fault f → f = .stackExhausted ∨ NodeFlaw g₀ f

abbrev Makes (g₀ : NodeGraph) (x : Build α) : Prop :=
  Confined (fun b => g₀.Derives b.graph) (Charged g₀) x

theorem charged_malformed : Charged g₀ malformed := fun _ h => by cases h

theorem charged_stack : Charged g₀ (.fault .stackExhausted) := fun _ h => by
  cases h
  exact .inl rfl

theorem makes_malformed : Makes g₀ (throw malformed : Build α) := confined_throw charged_malformed

section Nodes

variable {b : Building}

theorem ends_nodeAt (id : Nat) (b : Building) :
    Ends (nodeAt id) b (fun n b' => b' = b ∧ b.graph[id]? = some n) (Charged g₀) := by
  unfold nodeAt
  rw [ends_bind, ends_get]
  split
  next n h => exact ends_pure.mpr ⟨rfl, h⟩
  next => exact ends_throw.mpr charged_malformed

theorem makes_nodeAt (id : Nat) : Makes g₀ (nodeAt id) := fun b h =>
  (ends_nodeAt id b).mono (fun _ _ hb => hb.1 ▸ h) fun _ he => he

theorem ends_mappingEntries (id : Nat) (b : Building) :
    Ends (mappingEntries id) b
      (fun entries b' => b' = b ∧ ∃ n, b.graph[id]? = some n ∧ n.content = .mapping entries)
      (Charged g₀) := by
  unfold mappingEntries
  rw [ends_bind]
  refine (ends_nodeAt id b).mono (fun n b' hn => ?_) fun _ he => he
  obtain ⟨rfl, hn⟩ := hn
  split
  next entries hentries => exact ends_pure.mpr ⟨rfl, n, hn, hentries⟩
  next => exact ends_throw.mpr charged_malformed

theorem makes_mappingEntries (id : Nat) : Makes g₀ (mappingEntries id) := fun b h =>
  (ends_mappingEntries id b).mono (fun _ _ hb => hb.1 ▸ h) fun _ he => he

theorem makes_sequenceItems (id : Nat) : Makes g₀ (sequenceItems id) := by
  refine (makes_nodeAt id).bind fun n => ?_
  split
  · exact confined_pure _
  · exact makes_malformed

theorem makes_setTag (id : Nat) : Makes g₀ (setTag id .str) := confined_modify fun _ h => h.setTag id

theorem ends_scalarText (allowance id : Nat) (b : Building) :
    Ends (scalarText allowance id) b
      (fun text b' => b' = b ∧ ∃ n, b.graph[id]? = some n ∧ b.graph.Offers n text) (Charged g₀) := by
  induction allowance generalizing id with
  | zero => exact ends_throw.mpr charged_stack
  | succ allowance ih =>
      unfold scalarText
      rw [ends_bind]
      refine (ends_nodeAt id b).mono (fun n b' hn => ?_) fun _ he => he
      obtain ⟨rfl, hn⟩ := hn
      split
      next s hs => exact ends_pure.mpr ⟨rfl, n, hn, .inl ⟨s, hs, rfl⟩⟩
      next => exact ends_throw.mpr charged_malformed
      next entries hentries =>
        rw [ends_bind, ends_get]
        dsimp only
        split
        next e _ =>
          -- The text is that of a scalar, however far it is looked for.
          refine (ih e.2).mono (fun text b'' h => ?_) fun _ he => he
          obtain ⟨rfl, m, hm, hoffers⟩ := h
          refine ⟨rfl, n, hn, .inr ⟨⟨entries, hentries⟩, ?_⟩⟩
          rcases hoffers with ⟨s, hs, htext⟩ | ⟨-, hscalar⟩
          · exact ⟨m, NodeGraph.mem_of_getElem? hm, s, hs, htext⟩
          · exact hscalar
        next => exact ends_throw.mpr charged_malformed

end Nodes

section Values

theorem makes_enqueue (node : Nat) (filling : Filling) (start : Container) :
    Makes g₀ (enqueue node filling start) := fun _ h => h

-- A text that a scalar is read from, with a reader that fails only where it may.
theorem ends_readScalar {b : Building} {id : Nat} {n : Node} (h : g₀.Derives b.graph)
    (hn : b.graph[id]? = some n) {f : List Char → Except Problem Scalar}
    (hf : ∀ text e, b.graph.Offers n text → f text = .error e → Charged g₀ e) :
    Ends (do
      let s ← f (← scalarText nestingAllowance id)
      return Value.scalar s) b (fun _ b' => g₀.Derives b'.graph) (Charged g₀) := by
  rw [ends_bind]
  refine (ends_scalarText _ id b).mono (fun text b' htext => ?_) fun _ he => he
  obtain ⟨rfl, m, hm, hoffers⟩ := htext
  obtain rfl : m = n := Option.some.inj (hm.symm.trans hn)
  cases hvalue : f text with
  | error e => exact ends_throw.mpr (hf text e hoffers hvalue)
  | ok x => exact ends_pure.mpr h

-- A text without a value is a flaw of the node that it is read for.
theorem charged_of_valueless {g : NodeGraph} {id : Nat} {n : Node} (h : g₀.Derives g)
    (hn : g[id]? = some n) {tag : Tag} (htag : n.tag = tag) {r : Except Problem Scalar}
    {text : List Char} {e : Problem} (hoffers : g.Offers n text)
    (hiff : r = .error e ↔ ∃ f, e = .fault f ∧ Valueless text tag f) (he : r = .error e) :
    Charged g₀ e := by
  obtain ⟨f, rfl, hf⟩ := hiff.mp he
  intro f' heq
  cases heq
  exact .inr (h.flaw hn hoffers (htag ▸ hf))

theorem makes_freshValue (id : Nat) : Makes g₀ (freshValue id) := by
  intro b h
  unfold freshValue
  rw [ends_bind]
  refine (ends_nodeAt id b).mono (fun n b' hn => ?_) fun _ he => he
  obtain ⟨rfl, hn⟩ := hn
  dsimp only
  split
  next => exact ends_readScalar h hn fun _ _ _ he => by cases he
  next htag =>
    exact ends_readScalar h hn fun _ _ ho => charged_of_valueless h hn htag ho ScalarText.bool_eq_error_iff
  next htag =>
    exact ends_readScalar h hn fun _ _ ho => charged_of_valueless h hn htag ho ScalarText.int_eq_error_iff
  next htag =>
    exact ends_readScalar h hn fun _ _ ho => charged_of_valueless h hn htag ho ScalarText.float_eq_error_iff
  next =>
    refine ends_readScalar h hn fun _ _ _ he => ?_
    rw [ScalarText.binary_eq_error he]
    exact charged_malformed
  next => exact ends_readScalar h hn fun _ _ _ he => by cases he
  next htag =>
    rw [ends_bind]
    refine (ends_scalarText _ id b').mono (fun text b'' htext => ?_) fun _ he => he
    obtain ⟨rfl, m, hm, hoffers⟩ := htext
    obtain rfl : m = n := Option.some.inj (hm.symm.trans hn)
    split
    · exact ends_readScalar h hn fun _ _ _ =>
        charged_of_valueless h hn htag hoffers ScalarText.timestamp_eq_error_iff
    next hscalar =>
      refine ends_throw.mpr fun f hf => .inr ?_
      cases hf
      rcases hoffers with ⟨s, hs, -⟩ | ⟨⟨entries, hentries⟩, -⟩
      · exact absurd hs (hscalar s)
      · exact h.mappingFlaw hn htag hentries
  iterate 5 exact makes_enqueue _ _ _ _ h
  all_goals exact makes_malformed _ h

theorem makes_valueOf (id : Nat) : Makes g₀ (valueOf id) := by
  refine confined_get.bind fun b => ?_
  split
  · exact confined_pure _
  · refine (makes_freshValue id).bind fun v => ?_
    exact Confined.bind (confined_modify fun _ h => h) fun _ => confined_pure _

end Values

section Merging

theorem makes_collectMerges {flatten : Nat → Build Unit} (hf : ∀ id, Makes g₀ (flatten id))
    (id bound place : Nat) : Makes g₀ (collectMerges flatten id bound place) := by
  induction bound generalizing place with
  | zero => exact confined_throw charged_stack
  | succ bound ih =>
      have hrest (merged : List (Nat × Nat)) : Makes g₀ (do
          return merged ++ (← collectMerges flatten id bound place)) :=
        (ih place).bind fun _ => confined_pure _
      intro b h
      unfold collectMerges
      rw [ends_bind]
      refine (ends_mappingEntries id b).mono (fun entries b' hentries => ?_) fun _ he => he
      obtain ⟨rfl, n, hn, hcontent⟩ := hentries
      split
      · exact ends_pure.mpr h
      next key source _ =>
        rw [ends_bind]
        refine (ends_nodeAt key b').mono (fun k b'' hk => ?_) fun _ he => he
        obtain ⟨rfl, -⟩ := hk
        split
        · have hset : g₀.Derives (b''.graph.modify id fun n =>
              { n with content := .mapping (entries.eraseIdx place) }) := h.setContent hn hcontent
          show Ends (setContent id _ >>= _) b'' _ _
          rw [ends_bind]
          show Ends _ { b'' with graph := _ } _ _
          refine ((makes_nodeAt source).bind fun s => ?_) _ hset
          split
          · exact (hf _).bind fun _ => (makes_mappingEntries _).bind fun merged => hrest merged
          · refine (confined_mapM (fun item => ?_) _).bind fun parts => hrest _
            exact (makes_mappingEntries _).discard.bind fun _ => (hf _).bind fun _ =>
              makes_mappingEntries _
          · exact confined_throw_bind charged_malformed
        · exact ((makes_setTag key).bind fun _ => ih _) _ h
        · exact ih _ _ h

theorem makes_flatten (allowance id : Nat) : Makes g₀ (flatten allowance id) := by
  induction allowance generalizing id with
  | zero => exact confined_throw charged_stack
  | succ allowance ih =>
      unfold flatten
      refine (makes_collectMerges ih id _ 0).bind fun merged => ?_
      split
      · exact confined_pure _
      · intro b h
        rw [ends_bind]
        refine (ends_mappingEntries id b).mono (fun entries b' hentries => ?_) fun _ he => he
        obtain ⟨rfl, n, hn, hcontent⟩ := hentries
        exact h.setContent hn hcontent

end Merging

section Filling

theorem makes_entriesOf (l : List (Nat × Nat)) (acc : Entries) : Makes g₀ (entriesOf l acc) := by
  induction l generalizing acc with
  | nil => exact confined_pure _
  | cons e rest ih =>
      unfold entriesOf
      refine (makes_valueOf _).bind fun key => ?_
      split
      · exact (makes_valueOf _).bind fun v => ih _
      · exact makes_malformed

theorem makes_mapping (id : Nat) : Makes g₀ (mapping id) :=
  (makes_mappingEntries id).discard.bind fun _ => (makes_flatten _ id).bind fun _ =>
    (makes_mappingEntries id).bind fun l => makes_entriesOf l _

theorem makes_pairOf (id : Nat) : Makes g₀ (pairOf id) := by
  refine (makes_mappingEntries id).bind fun l => ?_
  split
  · exact (makes_valueOf _).bind fun k => (makes_valueOf _).bind fun v => confined_pure _
  · exact makes_malformed

theorem makes_fill (t : Task) : Makes g₀ (fill t) := by
  have hstore (content : Container) : Makes g₀ (modify fun b =>
      { b with store := b.store.set t.target content }) := confined_modify fun _ h => h
  unfold fill
  split
  · refine (makes_sequenceItems _).bind fun l => (confined_mapM makes_valueOf l).bind fun vs => ?_
    exact hstore _
  · refine (makes_sequenceItems _).bind fun l => (confined_mapM makes_pairOf l).bind fun vs => ?_
    exact hstore _
  · exact (makes_mapping _).bind fun m => hstore _
  · exact (makes_mapping _).bind fun m => hstore _

theorem makes_fillAll (bound : Nat) : Makes g₀ (fillAll bound) := by
  induction bound with
  | zero => exact confined_pure _
  | succ bound ih =>
      unfold fillAll
      refine confined_get.bind fun b => ?_
      split
      · exact confined_pure _
      · refine Confined.bind (confined_modify fun _ h => h) fun _ => ?_
        exact (confined_forM makes_fill _).bind fun _ => ih

theorem makes_document (root : Nat) : Makes g₀ (document root) :=
  (makes_valueOf root).bind fun _ => confined_get.bind fun _ => (makes_fillAll _).bind fun _ =>
    confined_pure _

end Filling

end Build

end ApiGraph.Yaml
