import ApiGraph.Description
import ApiGraph.Proofs.Document.Reading
import ApiGraph.Proofs.Parsing.Construction
import ApiGraph.Proofs.Parsing.Json
import ApiGraph.Proofs.Parsing.Nodes
import ApiGraph.Proofs.Parsing.Tokens

namespace ApiGraph

namespace Description

-- What in a text of a format has no value, and the fault that it is.
inductive Flaw (content : List Char) : Format → Fault → Prop
  | integer (h : Text.HasLongDigits content) : Flaw content .json .unreadableLiteral
  | lexical {f : Fault} (h : Yaml.LexicalFlaw content f) : Flaw content .yaml f
  | node {f : Fault} {root : Nat} {graph : Yaml.NodeGraph}
      (hgraph : Yaml.NodeGraph.ofEvents nestingAllowance (.ofTokens (.ofText content)) =
        .ok (some root, graph))
      (h : Yaml.NodeFlaw graph f) : Flaw content .yaml f

-- What is read under the name has a flaw.
def HasFlaw (content name : String) (f : Fault) : Prop :=
  Flaw content.toList (formatOf content.toList name) f

end Description

namespace Yaml

theorem flaw_of_read {text : List Char} {store : Store} {f : Fault}
    (h : read nestingAllowance text store = .error (.fault f)) :
    f = .stackExhausted ∨ Description.Flaw text .yaml f := by
  unfold read at h
  cases hnodes : NodeGraph.ofEvents nestingAllowance (.ofTokens (.ofText text)) with
  | error e =>
      rw [hnodes] at h
      cases h
      rcases NodeGraph.ofEvents_eq_error hnodes with heq | heq | heq
      · cases heq
      · cases heq
        exact .inl rfl
      · exact .inr (.lexical (excused_ending text f heq.symm))
  | ok nodes =>
      obtain ⟨root, graph⟩ := nodes
      rw [hnodes] at h
      cases root with
      | none => cases h
      | some root =>
          have hmakes : Build.Makes graph (Build.document root) := Build.makes_document root
          cases hrun : (Build.document root).run ⟨graph, store, .replicate graph.size none, []⟩ with
          | ok r =>
              simp only [bind, Except.bind, hrun] at h
              cases h
          | error e =>
              simp only [bind, Except.bind, hrun] at h
              cases h
              exact ((ends_of_error hrun).mp (hmakes _ (.refl graph)) f rfl).imp_right (.node hnodes)

end Yaml

namespace Description

variable {content name : String} {store : Store}

theorem flaw_of_readValue {cs : List Char} {f : Fault}
    (h : readValue cs name store = .error (.fault f)) :
    f = .stackExhausted ∨ Flaw cs (formatOf cs name) f := by
  unfold readValue at h
  cases hformat : formatOf cs name with
  | json =>
      rw [hformat] at h
      cases hread : Json.read nestingAllowance cs store with
      | ok r =>
          rw [hread] at h
          cases h
      | error e =>
          rw [hread] at h
          cases e with
          | announced e => cases h
          | fault g =>
              cases h
              rcases Json.read_accounted hread f rfl with hstack | ⟨rfl, hlong⟩
              · exact .inl hstack
              · exact .inr (.integer hlong)
  | yaml =>
      rw [hformat] at h
      cases hread : Yaml.read nestingAllowance cs store with
      | ok r =>
          rw [hread] at h
          cases h
      | error e =>
          rw [hread] at h
          cases e with
          | announced e => cases h
          | fault g =>
              cases h
              exact Yaml.flaw_of_read hread

theorem flaw_of_parse {f : Fault} (h : parse content name store = .error (.fault f)) :
    f = .stackExhausted ∨ HasFlaw content name f := by
  unfold parse at h
  dsimp only at h
  split at h
  · cases h
  · cases hread : readValue content.toList name store with
    | error e =>
        rw [hread] at h
        cases h
        exact flaw_of_readValue hread
    | ok r =>
        obtain ⟨v, s⟩ := r
        rw [hread] at h
        simp only [bind, Except.bind] at h
        split at h <;> cases h

-- A text gives a mapping or an announced failure, unless it is nested too deep or has a flaw.
theorem parse_cases (content name : String) (store : Store) :
    (∃ id s, parse content name store = .ok (id, s) ∧ (s.mapping? id).isSome) ∨
      (∃ e, parse content name store = .error (.announced e)) ∨
      parse content name store = .error (.fault .stackExhausted) ∨
      ∃ f, parse content name store = .error (.fault f) ∧ HasFlaw content name f := by
  cases hparse : parse content name store with
  | ok r => exact .inl ⟨r.1, r.2, rfl, (extends_parse hparse).2.2⟩
  | error e =>
      cases e with
      | announced e => exact .inr (.inl ⟨e, rfl⟩)
      | fault f =>
          rcases flaw_of_parse hparse with rfl | hflaw
          · exact .inr (.inr (.inl rfl))
          · exact .inr (.inr (.inr ⟨f, rfl, hflaw⟩))

end Description

end ApiGraph
