import ApiGraph.Proofs.Document.Graph
import ApiGraph.Reachability.Collect

namespace ApiGraph.Reachability

open Store

-- Along branches, items and properties, up to the first mapping that itself names a component.
inductive Met (s : Store) : Value → String → Prop
  | named {v : Value} {id : NodeId} {m : Entries} {name : String}
      (hv : s.asMapping? v = some (id, m)) (hn : referenceName? m = some name) : Met s v name
  | part {v w : Value} {id : NodeId} {m : Entries} {name : String}
      (hv : s.asMapping? v = some (id, m)) (hn : referenceName? m = none) (hw : w ∈ parts s m)
      (h : Met s w name) : Met s v name

-- The values whose names a closed set has to hold: the bodies and their parts, as long as none of
-- them names a component.
inductive Demanded (s : Store) (document : NodeId) (names : List Key) : Value → Prop
  | response {seed : Seed} (h : seed ∈ seeds s document) : Demanded s document names seed.schema
  | component {name : Key} {v : Value} (h : name ∈ names)
      (hv : v ∈ bodyOf s (registryOf s document) name) : Demanded s document names v
  | part {v w : Value} {id : NodeId} {m : Entries} (h : Demanded s document names v)
      (hv : s.asMapping? v = some (id, m)) (hn : referenceName? m = none)
      (hw : w ∈ parts s m) : Demanded s document names w

structure Closed (s : Store) (document : NodeId) (names : List Key) : Prop where
  responses : ∀ seed ∈ seeds s document, ∀ name, Met s seed.schema name → .str name ∈ names
  components : ∀ k ∈ names, ∀ v ∈ bodyOf s (registryOf s document) k, ∀ name,
    Met s v name → .str name ∈ names

theorem Closed.mem_of_demanded {s : Store} {document : NodeId} {names : List Key}
    (h : Closed s document names) {v : Value} (hv : Demanded s document names v) :
    ∀ name, Met s v name → .str name ∈ names := by
  induction hv with
  | response hs => exact h.responses _ hs
  | component hk hb => exact h.components _ hk _ hb
  | part _ hm hn hw ih => exact fun name hmet => ih name (.part hm hn hw hmet)

theorem Closed.of_demanded {s : Store} {document : NodeId} {names : List Key}
    (h : ∀ v, Demanded s document names v → ∀ name, Met s v name → .str name ∈ names) :
    Closed s document names :=
  ⟨fun _ hs => h _ (.response hs), fun _ hk _ hv => h _ (.component hk hv)⟩

theorem mem_parts {s : Store} {m : Entries} {v : Value} :
    v ∈ parts s m ↔ v ∈ (m.field? "items").toList ∨ v ∈ sideParts s m := by
  simp only [parts, sideParts, List.mem_append, or_assoc, or_left_comm]

end ApiGraph.Reachability
