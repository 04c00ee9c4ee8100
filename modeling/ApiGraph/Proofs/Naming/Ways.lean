import ApiGraph.Naming.Collect
import ApiGraph.Proofs.Document.Graph
import Mathlib.Data.Finset.Card
import Mathlib.Data.Finset.Range

namespace ApiGraph.Naming

-- A schema as a scan comes to it.
structure Visit where
  node : NodeId
  -- The property around it.
  property : Option Key
  inComposition : Bool

namespace Visit

variable (s : Store) (v : Visit)

def branches : List Visit := (Naming.branches s (s.entries v.node)).map (⟨·, v.property, true⟩)

def properties : List Visit :=
  ((properties? s (s.entries v.node)).getD .empty).entries.filterMap fun e =>
    (s.asMapping? e.2).map (⟨·.1, some e.1, v.inComposition⟩)

def items : List Visit := (arrayItems? s (s.entries v.node)).toList.map (⟨·, v.property, v.inComposition⟩)

-- What a schema holds, in the order in which it is scanned.
def parts : List Visit :=
  if (s.entries v.node).ref?.isSome then [] else v.branches s ++ (v.properties s ++ v.items s)

end Visit

-- The schemas that a schema holds, apart from how it was come to.
def held (s : Store) (id : NodeId) : List NodeId := (Visit.parts s ⟨id, none, false⟩).map Visit.node

-- One schema leads to another one without passing any of those around.
inductive Leads (s : Store) (around : List NodeId) (a : NodeId) : NodeId → Prop
  | self (h : a ∉ around) : Leads s around a a
  | step {b c : NodeId} (h : Leads s around a b) (hc : c ∈ held s b) (hn : c ∉ around) :
      Leads s around a c

-- The first visit to a schema that the list leads to. A schema that is on the way is passed by, as is
-- one that does not lead there.
inductive First (s : Store) : List NodeId → List Visit → Visit → Prop
  | here {around : List NodeId} {v : Visit} {rest : List Visit} (h : v.node ∉ around) :
      First s around (v :: rest) v
  | inside {around : List NodeId} {a v : Visit} {rest : List Visit} (h : a.node ∉ around)
      (hne : v.node ≠ a.node) (hv : First s (a.node :: around) (a.parts s) v) :
      First s around (a :: rest) v
  | later {around : List NodeId} {a v : Visit} {rest : List Visit}
      (h : ¬Leads s around a.node v.node) (hv : First s around rest v) : First s around (a :: rest) v

-- The visits that some way makes, whether it comes first or not.
inductive Way (s : Store) (roots : List Visit) : Visit → Prop
  | root {v : Visit} (h : v ∈ roots) : Way s roots v
  | part {v w : Visit} (h : Way s roots v) (hw : w ∈ v.parts s) : Way s roots w

-- Different schemas each of which holds the one before it; the last one is a root.
inductive Chain (s : Store) (roots : List NodeId) : List NodeId → Prop
  | nil : Chain s roots []
  | root {a : NodeId} (h : a ∈ roots) : Chain s roots [a]
  | held {a b : NodeId} {l : List NodeId} (h : Chain s roots (a :: l)) (hb : b ∈ held s a)
      (hn : b ∉ a :: l) : Chain s roots (b :: a :: l)

variable {s : Store} {around : List NodeId} {a b n : NodeId} {u v w : Visit} {L L' roots : List Visit}

theorem map_node_parts (s : Store) (v : Visit) : (v.parts s).map Visit.node = held s v.node := by
  unfold held Visit.parts
  split
  · rfl
  · simp [Visit.branches, Visit.properties, Visit.items, List.map_filterMap, Function.comp_def]

theorem mem_held : b ∈ held s v.node ↔ ∃ w ∈ v.parts s, w.node = b := by
  rw [← map_node_parts, List.mem_map]

theorem exists_held_iff {P : NodeId → Prop} :
    (∃ b ∈ held s v.node, P b) ↔ ∃ w ∈ v.parts s, P w.node := by
  rw [← map_node_parts]
  simp only [List.mem_map, exists_exists_and_eq_and]

theorem lt_size_of_mem_held (h : b ∈ held s a) : a < s.nodes.size := by
  by_contra hle
  have hget : s.get? a = none := Store.get?_eq_none (Nat.le_of_not_lt hle)
  have hempty : s.entries a = .empty := by simp [Store.entries, Store.mapping?, hget]
  unfold held Visit.parts Visit.branches Visit.properties Visit.items at h
  rw [hempty] at h
  cases h

theorem lt_size_of_asMapping? {value : Value} {m : Entries} (h : s.asMapping? value = some (a, m)) :
    a < s.nodes.size :=
  Store.lt_size_of_get? (Store.mapping?_eq_some.mp (Store.asMapping?_eq_some.mp h).2)

theorem held_lt_size (h : b ∈ held s a) : b < s.nodes.size := by
  obtain ⟨w, hw, rfl⟩ := List.mem_map.mp h
  unfold Visit.parts at hw
  split at hw
  · cases hw
  · rcases List.mem_append.mp hw with hw | hw
    · obtain ⟨id, hid, rfl⟩ := List.mem_map.mp hw
      obtain ⟨keyword, -, hid⟩ := List.mem_flatMap.mp hid
      obtain ⟨value, -, hvalue⟩ := List.mem_filterMap.mp hid
      obtain ⟨⟨id, m⟩, hm, rfl⟩ := Option.map_eq_some_iff.mp hvalue
      exact lt_size_of_asMapping? hm
    · rcases List.mem_append.mp hw with hw | hw
      · obtain ⟨e, -, he⟩ := List.mem_filterMap.mp hw
        obtain ⟨⟨id, m⟩, hm, rfl⟩ := Option.map_eq_some_iff.mp he
        exact lt_size_of_asMapping? hm
      · obtain ⟨id, hid, rfl⟩ := List.mem_map.mp hw
        obtain ⟨value, -, hvalue⟩ := Option.bind_eq_some_iff.mp (Option.mem_toList.mp hid)
        obtain ⟨⟨id', m⟩, hm, hitem⟩ := Option.bind_eq_some_iff.mp hvalue
        dsimp only at hitem
        split at hitem
        · cases hitem
          exact lt_size_of_asMapping? hm
        · cases hitem

section Leads

theorem Leads.ends (h : Leads s around a n) : a ∉ around ∧ n ∉ around := by
  induction h with
  | self h => exact ⟨h, h⟩
  | step _ _ hn ih => exact ⟨ih.1, hn⟩

theorem Leads.mono {around' : List NodeId} (hsub : around' ⊆ around) (h : Leads s around a n) :
    Leads s around' a n := by
  induction h with
  | self h => exact .self fun hin => h (hsub hin)
  | step _ hc hn ih => exact .step ih hc fun hin => hn (hsub hin)

theorem Leads.head (ha : a ∉ around) (hb : b ∈ held s a) (h : Leads s around b n) :
    Leads s around a n := by
  induction h with
  | self h => exact .step (.self ha) hb h
  | step _ hc hn ih => exact .step ih hc hn

-- After its first schema the way need not come back to it.
theorem leads_iff : Leads s around a n ↔
    a ∉ around ∧ (n = a ∨ ∃ b ∈ held s a, Leads s (a :: around) b n) := by
  constructor
  · intro h
    refine ⟨h.ends.1, ?_⟩
    induction h with
    | self _ => exact .inl rfl
    | @step b c h hc hn ih =>
        by_cases hca : c = a
        · exact .inl hca
        · have hout : c ∉ a :: around := by simp [hca, hn]
          rcases ih with rfl | ⟨d, hd, hdb⟩
          · exact .inr ⟨c, hc, .self hout⟩
          · exact .inr ⟨d, hd, .step hdb hc hout⟩
  · rintro ⟨ha, rfl | ⟨b, hb, h⟩⟩
    · exact .self ha
    · exact .head ha hb (h.mono (List.subset_cons_self _ _))

end Leads

section First

theorem First.leads (h : First s around L v) : ∃ a ∈ L, Leads s around a.node v.node := by
  induction h with
  | here h => exact ⟨_, List.mem_cons_self, .self h⟩
  | @inside around a v rest h hne hv ih =>
      obtain ⟨w, hw, hlead⟩ := ih
      refine ⟨a, List.mem_cons_self, leads_iff.mpr ⟨h, .inr ⟨w.node, ?_, hlead⟩⟩⟩
      exact mem_held.mpr ⟨w, hw, rfl⟩
  | later _ _ ih =>
      obtain ⟨a, ha, hlead⟩ := ih
      exact ⟨a, List.mem_cons_of_mem _ ha, hlead⟩

theorem first_singleton : First s around [u] v ↔
    u.node ∉ around ∧ (v = u ∨ v.node ≠ u.node ∧ First s (u.node :: around) (u.parts s) v) := by
  constructor
  · intro h
    cases h with
    | here h => exact ⟨h, .inl rfl⟩
    | inside h hne hv => exact ⟨h, .inr ⟨hne, hv⟩⟩
    | later _ hv => cases hv
  · rintro ⟨h, rfl | ⟨hne, hv⟩⟩
    · exact .here h
    · exact .inside h hne hv

-- What the first list leads to is not looked for in the second one.
theorem first_append : First s around (L ++ L') v ↔
    First s around L v ∨ (∀ u ∈ L, ¬Leads s around u.node v.node) ∧ First s around L' v := by
  induction L with
  | nil =>
      rw [List.nil_append]
      refine ⟨fun h => .inr ⟨List.forall_mem_nil _, h⟩, ?_⟩
      rintro (h | ⟨-, h⟩)
      · cases h
      · exact h
  | cons u rest ih =>
      rw [List.cons_append]
      constructor
      · intro h
        cases h with
        | here h => exact .inl (.here h)
        | inside h hne hv => exact .inl (.inside h hne hv)
        | later hno hv =>
            rcases ih.mp hv with hv | ⟨hnone, hv⟩
            · exact .inl (.later hno hv)
            · exact .inr ⟨List.forall_mem_cons.mpr ⟨hno, hnone⟩, hv⟩
      · rintro (h | ⟨hnone, hv⟩)
        · cases h with
          | here h => exact .here h
          | inside h hne hv => exact .inside h hne hv
          | later hno hv => exact .later hno (ih.mpr (.inl hv))
        · obtain ⟨hno, hnone⟩ := List.forall_mem_cons.mp hnone
          exact .later hno (ih.mpr (.inr ⟨hnone, hv⟩))

theorem First.way (h : First s around L v) (hroots : ∀ u ∈ L, Way s roots u) : Way s roots v := by
  induction h with
  | here _ => exact hroots _ List.mem_cons_self
  | inside _ _ _ ih => exact ih fun w hw => .part (hroots _ List.mem_cons_self) hw
  | later _ _ ih => exact ih fun u hu => hroots u (List.mem_cons_of_mem _ hu)

-- What is led to has a first visit. A schema that holds something is in the store, so there are only so
-- many of them that the way can still come to.
theorem exists_first (h : ∃ u ∈ L, Leads s around u.node n) :
    ∃ v, v.node = n ∧ First s around L v := by
  induction hk : (Finset.range s.nodes.size \ around.toFinset).card using Nat.strong_induction_on
    generalizing around L with
  | h k ih =>
      induction L with
      | nil =>
          obtain ⟨u, hu, -⟩ := h
          cases hu
      | cons u rest ihrest =>
          by_cases hlead : Leads s around u.node n
          · obtain ⟨hu, rfl | ⟨b, hb, hbn⟩⟩ := leads_iff.mp hlead
            · exact ⟨u, rfl, .here hu⟩
            · by_cases hsame : n = u.node
              · exact ⟨u, hsame.symm, .here hu⟩
              · obtain ⟨w, hw, rfl⟩ := mem_held.mp hb
                have hroom : u.node ∈ Finset.range s.nodes.size \ around.toFinset := by
                  simpa using ⟨lt_size_of_mem_held hb, hu⟩
                have hless : (Finset.range s.nodes.size \ (u.node :: around).toFinset).card < k := by
                  rw [List.toFinset_cons, Finset.sdiff_insert, ← hk]
                  exact Finset.card_erase_lt_of_mem hroom
                obtain ⟨v, hv, hfirst⟩ := ih _ hless ⟨w, hw, hbn⟩ rfl
                exact ⟨v, hv, .inside hu (hv ▸ hsame) hfirst⟩
          · obtain ⟨a, ha, han⟩ := h
            have hin : a ∈ rest := (List.mem_cons.mp ha).resolve_left fun heq => hlead (heq ▸ han)
            obtain ⟨v, hv, hfirst⟩ := ihrest ⟨a, hin, han⟩
            exact ⟨v, hv, .later (hv ▸ hlead) hfirst⟩

theorem Way.trans (h : Way s L v) (hroots : ∀ u ∈ L, Way s roots u) : Way s roots v := by
  induction h with
  | root h => exact hroots _ h
  | part _ hw ih => exact .part ih hw

theorem Way.leads (h : Way s roots v) : ∃ u ∈ roots, Leads s [] u.node v.node := by
  induction h with
  | root h => exact ⟨_, h, .self List.not_mem_nil⟩
  | part _ hw ih =>
      obtain ⟨u, hu, hlead⟩ := ih
      exact ⟨u, hu, .step hlead (mem_held.mpr ⟨_, hw, rfl⟩) List.not_mem_nil⟩

end First

end ApiGraph.Naming
