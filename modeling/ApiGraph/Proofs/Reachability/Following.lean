import ApiGraph.Proofs.Document.Graph
import ApiGraph.Reachability.Seed
import Mathlib.Data.List.Nodup
import Mathlib.Data.List.Perm.Subperm

namespace ApiGraph.Reachability

section Way

variable (s : Store) (find? : String → Option Value)

-- The references on the way from one value to another one name these responses.
inductive Chain : Value → List String → Value → Prop
  | here (v : Value) : Chain v [] v
  | next {id : NodeId} {m : Entries} {name : String} {v t : Value} {names : List String}
      (hm : s.mapping? id = some m) (href : m.ref? = some (responsePointer ++ name))
      (hfind : find? name = some v) (rest : Chain v names t) : Chain (.node id) (name :: names) t

-- Why a chain with these names ends at the value, and what that leads to.
inductive Stops (names : List String) : Value → Option Entries → Prop
  | response {id : NodeId} {m : Entries} (hm : s.mapping? id = some m)
      (hnone : ∀ name, m.ref? ≠ some (responsePointer ++ name)) : Stops names (.node id) (some m)
  | noMapping {v : Value} (h : s.asMapping? v = none) : Stops names v none
  | missing {id : NodeId} {m : Entries} {name : String} (hm : s.mapping? id = some m)
      (href : m.ref? = some (responsePointer ++ name)) (hfind : find? name = none) :
      Stops names (.node id) none
  | cycle {id : NodeId} {m : Entries} {name : String} (hm : s.mapping? id = some m)
      (href : m.ref? = some (responsePointer ++ name)) (hseen : name ∈ names) :
      Stops names (.node id) none

-- A chain without a repetition, followed to its end.
def FollowsTo (v : Value) (names : List String) (r : Option Entries) : Prop :=
  names.Nodup ∧ ∃ t, Chain s find? v names t ∧ Stops s find? names t r

-- A reference on the chain from the value has the name.
def Meets (v : Value) (name : String) : Prop :=
  ∃ names id m, Chain s find? v names (.node id) ∧ s.mapping? id = some m ∧
    m.ref? = some (responsePointer ++ name)

variable {s find?} {v t t' : Value} {name : String} {names names' rest : List String} {m : Entries}
  {r r' : Option Entries} {find?' : String → Option Value}

-- A mapping has one reference.
theorem eq_of_ref? {a b : String} (h : m.ref? = some (responsePointer ++ a))
    (h' : m.ref? = some (responsePointer ++ b)) : a = b :=
  (String.append_right_inj _).mp (Option.some.inj (h.symm.trans h'))

theorem responseName?_eq_some_iff : responseName? m = some name ↔ m.ref? = some (responsePointer ++ name) := by
  unfold responseName? Text.startsWith
  rw [Option.bind_eq_bind, Option.bind_eq_some_iff]
  constructor
  · rintro ⟨ref, href, h⟩
    split at h
    next hprefix =>
      obtain ⟨tail, htail⟩ := List.isPrefixOf_iff_prefix.mp hprefix
      have hdrop : ref.toList.drop responsePointer.length = tail := by
        rw [← htail, ← String.length_toList]
        exact List.drop_left
      rw [hdrop] at h
      obtain rfl := Option.some.inj h
      rw [href]
      refine congrArg some (String.toList_inj.mp ?_)
      rw [String.toList_append, String.toList_ofList, htail]
    next => cases h
  · intro href
    refine ⟨_, href, ?_⟩
    have hprefix : responsePointer.toList <+: (responsePointer ++ name).toList := by
      rw [String.toList_append]
      exact List.prefix_append _ _
    rw [if_pos (List.isPrefixOf_iff_prefix.mpr hprefix), String.toList_append, ← String.length_toList,
      List.drop_left, String.ofList_toList]

theorem responseName?_eq_none_iff :
    responseName? m = none ↔ ∀ name, m.ref? ≠ some (responsePointer ++ name) := by
  simp only [Option.eq_none_iff_forall_ne_some, ne_eq, responseName?_eq_some_iff]

theorem Stops.congr (h : Stops s find? names t r) (hsame : ∀ name, name ∈ names ↔ name ∈ names') :
    Stops s find? names' t r := by
  cases h with
  | response hm hnone => exact .response hm hnone
  | noMapping h => exact .noMapping h
  | missing hm href hfind => exact .missing hm href hfind
  | cycle hm href hseen => exact .cycle hm href ((hsame _).mp hseen)

-- A reference that can be followed stops a chain only if it closes a cycle.
theorem Stops.mem_of_chain (h : Stops s find? names t r) (hrest : Chain s find? t (name :: rest) t') :
    name ∈ names := by
  cases hrest with
  | next hm href hfind _ =>
      cases h with
      | response hm' hnone =>
          obtain rfl := Option.some.inj (hm.symm.trans hm')
          exact absurd href (hnone name)
      | noMapping h => cases h.symm.trans (Store.asMapping?_eq_some.mpr ⟨rfl, hm⟩)
      | missing hm' href' hfind' =>
          obtain rfl := Option.some.inj (hm.symm.trans hm')
          obtain rfl := eq_of_ref? href href'
          cases hfind.symm.trans hfind'
      | cycle hm' href' hseen =>
          obtain rfl := Option.some.inj (hm.symm.trans hm')
          obtain rfl := eq_of_ref? href href'
          exact hseen

theorem Stops.unique (h : Stops s find? names t r) (h' : Stops s find? names t r') : r = r' := by
  cases h with
  | response hm hnone =>
      cases h' with
      | response hm' _ => rw [Option.some.inj (hm.symm.trans hm')]
      | noMapping h => cases h.symm.trans (Store.asMapping?_eq_some.mpr ⟨rfl, hm⟩)
      | missing hm' href _ =>
          obtain rfl := Option.some.inj (hm.symm.trans hm')
          exact absurd href (hnone _)
      | cycle hm' href _ =>
          obtain rfl := Option.some.inj (hm.symm.trans hm')
          exact absurd href (hnone _)
  | noMapping h =>
      cases h' with
      | response hm _ => cases h.symm.trans (Store.asMapping?_eq_some.mpr ⟨rfl, hm⟩)
      | _ => rfl
  | missing hm href _ =>
      cases h' with
      | response hm' hnone =>
          obtain rfl := Option.some.inj (hm.symm.trans hm')
          exact absurd href (hnone _)
      | _ => rfl
  | cycle hm href _ =>
      cases h' with
      | response hm' hnone =>
          obtain rfl := Option.some.inj (hm.symm.trans hm')
          exact absurd href (hnone _)
      | _ => rfl

-- Of two chains from one value one is the start of the other one.
theorem Chain.compare (h : Chain s find? v names t) (h' : Chain s find? v names' t') :
    (∃ rest, names' = names ++ rest ∧ Chain s find? t rest t') ∨
      ∃ rest, names = names' ++ rest ∧ Chain s find? t' rest t := by
  induction h generalizing names' with
  | here v => exact .inl ⟨names', rfl, h'⟩
  | next hm href hfind hchain ih =>
      cases h' with
      | here => exact .inr ⟨_, rfl, .next hm href hfind hchain⟩
      | next hm' href' hfind' hchain' =>
          obtain rfl := Option.some.inj (hm.symm.trans hm')
          obtain rfl := eq_of_ref? href href'
          obtain rfl := Option.some.inj (hfind.symm.trans hfind')
          rcases ih hchain' with ⟨rest, rfl, hrest⟩ | ⟨rest, rfl, hrest⟩
          · exact .inl ⟨rest, rfl, hrest⟩
          · exact .inr ⟨rest, rfl, hrest⟩

theorem Stops.chain_eq_nil (h : Stops s find? names t r) (hrest : Chain s find? t rest t')
    (hnodup : (names ++ rest).Nodup) : rest = [] := by
  cases rest with
  | nil => rfl
  | cons name tail =>
      exact absurd (h.mem_of_chain hrest) fun hname =>
        (List.nodup_append.mp hnodup).2.2 name hname name List.mem_cons_self rfl

theorem FollowsTo.unique (h : FollowsTo s find? v names r) (h' : FollowsTo s find? v names' r') :
    names = names' ∧ r = r' := by
  obtain ⟨hnodup, t, hchain, hstops⟩ := h
  obtain ⟨hnodup', t', hchain', hstops'⟩ := h'
  rcases hchain.compare hchain' with ⟨rest, rfl, hrest⟩ | ⟨rest, rfl, hrest⟩
  · obtain rfl := hstops.chain_eq_nil hrest hnodup'
    cases hrest
    rw [List.append_nil] at hstops' ⊢
    exact ⟨rfl, hstops.unique hstops'⟩
  · obtain rfl := hstops'.chain_eq_nil hrest hnodup
    cases hrest
    rw [List.append_nil] at hstops ⊢
    exact ⟨rfl, hstops.unique hstops'⟩

-- Two ways of finding a response are the same if they are for the names that are met.
theorem FollowsTo.congr (h : FollowsTo s find? v names r)
    (hsame : ∀ name, Meets s find? v name → find? name = find?' name) : FollowsTo s find?' v names r := by
  obtain ⟨hnodup, t, hchain, hstops⟩ := h
  refine ⟨hnodup, t, ?_, ?_⟩
  · clear hnodup hstops
    induction hchain with
    | here v => exact .here v
    | next hm href hfind hrest ih =>
        have hname := hsame _ ⟨[], _, _, .here _, hm, href⟩
        refine .next hm href (hname ▸ hfind) (ih fun name hmeets => hsame name ?_)
        obtain ⟨l, id, m, hl, hm', href'⟩ := hmeets
        exact ⟨_ :: l, id, m, .next hm href hfind hl, hm', href'⟩
  · cases hstops with
    | response hm hnone => exact .response hm hnone
    | noMapping h => exact .noMapping h
    | missing hm href hfind => exact .missing hm href (hsame _ ⟨names, _, _, hchain, hm, href⟩ ▸ hfind)
    | cycle hm href hseen => exact .cycle hm href hseen

-- What a mapping meets is its own reference, or is met further on.
theorem Meets.cases {id : NodeId} (h : Meets s find? (.node id) name) (hm : s.mapping? id = some m) :
    m.ref? = some (responsePointer ++ name) ∨
      ∃ first w, m.ref? = some (responsePointer ++ first) ∧ find? first = some w ∧ Meets s find? w name := by
  obtain ⟨names, last, m', hchain, hlast, href⟩ := h
  cases hchain with
  | here =>
      obtain rfl := Option.some.inj (hm.symm.trans hlast)
      exact .inl href
  | next hm' href' hfind hrest =>
      obtain rfl := Option.some.inj (hm.symm.trans hm')
      exact .inr ⟨_, _, href', hfind, _, last, m', hrest, hlast, href⟩

end Way

section Following

variable {s : Store} {responses : Entries} {v : Value} {names seen : List String} {name : String}
  {r : Option Entries}

theorem mem_keys_of_field? (h : (responses.field? name).isSome) : Key.str name ∈ responses.keys := by
  unfold Entries.field? OrderedMap.get? at h
  rw [Option.isSome_map, List.find?_isSome] at h
  obtain ⟨e, he, hkey⟩ := h
  rw [Key.str_beq_iff.mp (BEq.symm hkey)]
  exact List.mem_map_of_mem he

-- Different names of responses are not more than there are responses.
theorem length_le_size (hnodup : names.Nodup) (hfound : ∀ name ∈ names, (responses.field? name).isSome) :
    names.length ≤ responses.size := by
  have hkeys : (names.map Key.str).Nodup :=
    List.Nodup.map (fun a b hab => Key.str_beq.mp (hab ▸ BEq.rfl)) hnodup
  have hsub : names.map Key.str ⊆ responses.keys := by
    intro key hkey
    obtain ⟨name, hname, rfl⟩ := List.mem_map.mp hkey
    exact mem_keys_of_field? (hfound name hname)
  have hle := (List.subperm_of_subset hkeys hsub).length_le
  rwa [List.length_map, OrderedMap.keys, List.length_map] at hle

theorem Chain.found {find? : String → Option Value} {t : Value} (h : Chain s find? v names t) :
    ∀ name ∈ names, (find? name).isSome := by
  induction h with
  | here v =>
      intro name hname
      cases hname
  | next hm href hfind _ ih =>
      intro name hname
      rcases List.mem_cons.mp hname with rfl | hname
      · rw [hfind]
        rfl
      · exact ih name hname

-- What has been seen is found among the responses, so that the bound is never used up.
theorem followFrom_stops (bound : Nat) (v : Value) (hnodup : seen.Nodup)
    (hfound : ∀ name ∈ seen, (responses.field? name).isSome) (hbound : responses.size < bound + seen.length) :
    ∃ names t, (names.reverse ++ seen).Nodup ∧ Chain s responses.field? v names t ∧
      Stops s responses.field? (names.reverse ++ seen) t (followFrom s responses bound seen v) := by
  induction bound generalizing seen v with
  | zero =>
      have hle := length_le_size hnodup hfound
      omega
  | succ bound ih =>
      unfold followFrom
      cases hv : s.asMapping? v with
      | none => exact ⟨[], v, hnodup, .here v, .noMapping hv⟩
      | some found =>
          obtain ⟨id, m⟩ := found
          obtain ⟨rfl, hm⟩ := Store.asMapping?_eq_some.mp hv
          dsimp only [Option.bind_eq_bind, Option.bind_some]
          cases hname : responseName? m with
          | none => exact ⟨[], _, hnodup, .here _, .response hm (responseName?_eq_none_iff.mp hname)⟩
          | some name =>
              have href := responseName?_eq_some_iff.mp hname
              dsimp only
              by_cases hseen : name ∈ seen
              · rw [if_pos (List.contains_iff_mem.mpr hseen)]
                exact ⟨[], _, hnodup, .here _, .cycle hm href hseen⟩
              · rw [if_neg fun h => hseen (List.contains_iff_mem.mp h)]
                cases hfind : responses.field? name with
                | none => exact ⟨[], _, hnodup, .here _, .missing hm href hfind⟩
                | some w =>
                    have hfound' : ∀ n ∈ name :: seen, (responses.field? n).isSome := by
                      intro n hn
                      rcases List.mem_cons.mp hn with rfl | hn
                      · rw [hfind]
                        rfl
                      · exact hfound n hn
                    obtain ⟨names, t, hdistinct, hchain, hstops⟩ :=
                      ih w (List.nodup_cons.mpr ⟨hseen, hnodup⟩) hfound' (by rw [List.length_cons]; omega)
                    have hreverse : (name :: names).reverse ++ seen = names.reverse ++ (name :: seen) := by simp
                    exact ⟨name :: names, t, hreverse ▸ hdistinct, .next hm href hfind hchain, hreverse ▸ hstops⟩

theorem followsTo_followResponse (s : Store) (responses : Entries) (v : Value) :
    ∃ names, FollowsTo s responses.field? v names (followResponse s responses v) := by
  have hnone : ∀ name ∈ ([] : List String), (responses.field? name).isSome := fun _ h => nomatch h
  obtain ⟨names, t, hnodup, hchain, hstops⟩ :=
    followFrom_stops (s := s) (responses.size + 2) v List.nodup_nil hnone
      (Nat.lt_add_of_pos_right (Nat.succ_pos 1))
  rw [List.append_nil] at hnodup hstops
  exact ⟨names, List.nodup_reverse.mp hnodup, t, hchain, hstops.congr fun _ => List.mem_reverse⟩

theorem followResponse_eq_iff :
    followResponse s responses v = r ↔ ∃ names, FollowsTo s responses.field? v names r := by
  obtain ⟨names, hway⟩ := followsTo_followResponse s responses v
  constructor
  · rintro rfl
    exact ⟨names, hway⟩
  · rintro ⟨names', hway'⟩
    exact (hway.unique hway').2

theorem FollowsTo.length_le (h : FollowsTo s responses.field? v names r) : names.length ≤ responses.size := by
  obtain ⟨hnodup, t, hchain, -⟩ := h
  exact length_le_size hnodup hchain.found

end Following

end ApiGraph.Reachability
