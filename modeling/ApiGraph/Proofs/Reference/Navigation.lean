import ApiGraph.Proofs.Document.Equality
import ApiGraph.Proofs.Parsing.Spelling
import ApiGraph.Proofs.Schema.NamedTarget

namespace ApiGraph.Reference

open ApiGraph.Text

-- One step of a path.
inductive Hop where
  | key (k : String)
  | position (i : Nat)
deriving DecidableEq

-- What the step is in the segments of a pointer.
def Hop.segment : Hop → String
  | .key k => k
  | .position i => toString i

-- What the step is in the pointer.
def Hop.written : Hop → String
  | .key k => String.ofList (escape k.toList)
  | .position i => toString i

-- The pointer with no slash in front.
def encode (path : List Hop) : String := "/".intercalate (path.map Hop.written)

-- The value at the end of a path from another value.
inductive LeadsTo (s : Store) : Value → List Hop → Value → Prop
  | here (v : Value) : LeadsTo s v [] v
  | key {id : NodeId} {m : Entries} {k : String} {v t : Value} {path : List Hop}
      (hm : s.mapping? id = some m) (hv : m.field? k = some v) (rest : LeadsTo s v path t) :
      LeadsTo s (.node id) (.key k :: path) t
  | position {id : NodeId} {items : List Value} {i : Nat} {v t : Value} {path : List Hop}
      (hitems : s.sequence? id = some items) (hv : items[i]? = some v) (rest : LeadsTo s v path t) :
      LeadsTo s (.node id) (.position i :: path) t

-- Every position of a sequence has a decimal form that is short enough to be read as a number. Machine
-- words count the items of a list, so the lists of a running program are shorter by far.
def Addressable (s : Store) : Prop :=
  ∀ id items, s.sequence? id = some items →
    ∀ i < items.length, (toString i).toList.length ≤ maxDecimalDigits

section Written

variable {cs : List Char} {h : Hop} {path : List Hop} {pointer : String}

theorem not_mem_escape (cs : List Char) : '/' ∉ escape cs := by
  induction cs with
  | nil => simp [escape]
  | cons c rest ih =>
      unfold escape
      split
      · simp [ih]
      next hslash =>
        split
        · simp [ih]
        · simp [ih, Ne.symm hslash]

theorem escape_eq_nil (h : escape cs = []) : cs = [] := by
  have hcs := unescape_escape cs
  rw [h] at hcs
  exact hcs.symm

theorem not_mem_toString (i : Nat) {mark : Char} (h : mark.isDigit = false) :
    mark ∉ (toString i).toList := by
  intro hin
  have hdigit := (isDecimal_toString i).2.1 mark hin
  rw [h] at hdigit
  cases hdigit

theorem Hop.unescape_written (h : Hop) : unescape h.written.toList = h.segment.toList := by
  cases h with
  | key k => rw [written, String.toList_ofList, unescape_escape, segment]
  | position i => exact unescape_of_not_mem (not_mem_toString i rfl)

theorem Hop.not_mem_written (h : Hop) : '/' ∉ h.written.toList := by
  cases h with
  | key k =>
      rw [written, String.toList_ofList]
      exact not_mem_escape _
  | position i => exact not_mem_toString i rfl

theorem Hop.eq_of_written_eq_nil (hnil : h.written.toList = []) : h = .key "" := by
  cases h with
  | key k =>
      rw [written, String.toList_ofList] at hnil
      rw [String.toList_eq_nil_iff.mp (escape_eq_nil hnil)]
  | position i => exact absurd hnil (isDecimal_toString i).1

theorem toList_encode (path : List Hop) :
    (encode path).toList = join '/' (path.map fun h => h.written.toList) := by
  simp [encode, String.toList_intercalate, intercalate_eq_join, Function.comp_def]

theorem segments_encode (hfirst : path.head? ≠ some (.key "")) (hlast : path.getLast? ≠ some (.key ""))
    (hpointer : pointer = encode path ∨ pointer = "/" ++ encode path) :
    segments pointer = path.map Hop.segment := by
  have hne {h? : Option Hop} (hh : h? ≠ some (.key "")) :
      h?.map (fun h => h.written.toList) ≠ some [] := by
    rw [Ne, Option.map_eq_some_iff]
    rintro ⟨h, rfl, hnil⟩
    exact hh (congrArg some (Hop.eq_of_written_eq_nil hnil))
  have hpieces : pieces pointer = path.map fun h => h.written.toList := by
    refine pieces_eq ?_ (by rw [List.head?_map]; exact hne hfirst)
      (by rw [List.getLast?_map]; exact hne hlast) ?_
    · intro piece hpiece
      obtain ⟨h, -, rfl⟩ := List.mem_map.mp hpiece
      exact h.not_mem_written
    · rcases hpointer with rfl | rfl
      · rw [toList_encode]
      · rw [String.toList_append, toList_encode]
        exact stripChar_cons_self '/' _
  refine (List.map_inj_right fun _ _ => String.toList_inj.mp).mp ?_
  rw [toList_segments, hpieces, List.map_map, List.map_map]
  exact List.map_congr_left fun h _ => h.unescape_written

end Written

section Following

variable {s : Store} {v t : Value} {id : NodeId} {items : List Value} {i : Nat} {segment : String}
  {path : List Hop} {pointer : String}

theorem itemAt?_natCast (items : List Value) (i : Nat) : itemAt? items i = items[i]? := by
  unfold itemAt?
  rw [if_pos (Int.natCast_nonneg i), Int.toNat_natCast]

theorem step_sequence (hitems : s.sequence? id = some items) :
    step s (.node id) segment =
      match (integer? 10 segment.toList).bind (itemAt? items) with
      | some child => .ok child
      | none => .error (.badIndex segment) := by
  have hget := Store.sequence?_eq_some.mp hitems
  cases hitem : (integer? 10 segment.toList).bind (itemAt? items) <;> simp only [step, hget, hitem]

theorem follow_segments (hs : Addressable s) (h : LeadsTo s v path t) :
    follow s v (path.map Hop.segment) = .ok t := by
  unfold follow
  induction h with
  | here v => rfl
  | key hm hv _ ih =>
      rw [List.map_cons, List.foldlM_cons, Hop.segment, (step_mapping hm).mpr hv]
      exact ih
  | @position id items i v t path hitems hv _ ih =>
      have hi : i < items.length := (List.getElem?_eq_some_iff.mp hv).1
      have hspells := spells_toString (hs id items hitems i hi)
      have hstep : step s (.node id) (toString i) = .ok v := by
        rw [step_sequence hitems, integer?_eq_some_iff.mpr hspells, Option.bind_some, itemAt?_natCast, hv]
      rw [List.map_cons, List.foldlM_cons, Hop.segment, hstep]
      exact ih

-- With or without the slash in front, the pointer has the segments of the path and names the value at
-- its end.
theorem resolve_encode (hs : Addressable s) (h : LeadsTo s v path t)
    (hfirst : path.head? ≠ some (.key "")) (hlast : path.getLast? ≠ some (.key ""))
    (hpointer : pointer = encode path ∨ pointer = "/" ++ encode path) :
    segments pointer = path.map Hop.segment ∧ resolve s v pointer = .ok t := by
  have hsegments := segments_encode hfirst hlast hpointer
  refine ⟨hsegments, ?_⟩
  unfold resolve
  rw [hsegments]
  exact follow_segments hs h

end Following

section Steps

variable {s : Store} {v w : Value} {id : NodeId} {segment : String} {path : List String}

-- A segment leads into a mapping under that key, or into a sequence by a number.
theorem step_eq_ok_iff :
    step s v segment = .ok w ↔
      ∃ id, v = .node id ∧ ((∃ m, s.mapping? id = some m ∧ m.field? segment = some w) ∨
        ∃ items, s.sequence? id = some items ∧
          (integer? 10 segment.toList).bind (itemAt? items) = some w) := by
  constructor
  · intro h
    cases v with
    | node id =>
        refine ⟨id, rfl, ?_⟩
        cases hget : s.get? id with
        | none => simp [step, hget] at h
        | some held =>
            cases held with
            | mapping m =>
                have hm := Store.mapping?_eq_some.mpr hget
                exact .inl ⟨m, hm, (step_mapping hm).mp h⟩
            | sequence items =>
                have hitems := Store.sequence?_eq_some.mpr hget
                rw [step_sequence hitems] at h
                refine .inr ⟨items, hitems, ?_⟩
                split at h
                next hitem => rw [hitem, Except.ok.inj h]
                next => cases h
            | set _ => simp [step, hget] at h
    | scalar _ => cases h
    | pair _ _ => cases h
  · rintro ⟨id, rfl, ⟨m, hm, hw⟩ | ⟨items, hitems, hw⟩⟩
    · exact (step_mapping hm).mpr hw
    · rw [step_sequence hitems, hw]

-- A key that is no number leads into mappings only.
theorem step_key (hkey : integer? 10 segment.toList = none) :
    step s v segment = .ok w ↔ ∃ id m, v = .node id ∧ s.mapping? id = some m ∧ m.field? segment = some w := by
  constructor
  · intro h
    obtain ⟨id, rfl, ⟨m, hm, hw⟩ | ⟨items, -, hw⟩⟩ := step_eq_ok_iff.mp h
    · exact ⟨id, m, rfl, hm, hw⟩
    · rw [hkey] at hw
      cases hw
  · rintro ⟨id, m, rfl, hm, hw⟩
    exact (step_mapping hm).mpr hw

theorem fieldMapping?_iff_step {child : NodeId} {m : Entries} (hkey : integer? 10 segment.toList = none) :
    s.fieldMapping? id segment = some (child, m) ↔
      step s (.node id) segment = .ok (.node child) ∧ s.mapping? child = some m := by
  constructor
  · intro h
    exact ⟨step_fieldMapping h, (Store.fieldMapping?_eq_some.mp h).2⟩
  · rintro ⟨hstep, hm⟩
    obtain ⟨_, outer, hid, houter, hchild⟩ := (step_key hkey).mp hstep
    obtain rfl := Value.node.inj hid
    refine Store.fieldMapping?_eq_some.mpr ⟨?_, hm⟩
    rw [Store.entries_of_mapping? houter]
    exact hchild

-- A new container changes nothing on a path.
theorem step_alloc (c : Container) (h : step s v segment = .ok w) : step (s.alloc c).2 v segment = .ok w := by
  obtain ⟨id, rfl, ⟨m, hm, hw⟩ | ⟨items, hitems, hw⟩⟩ := step_eq_ok_iff.mp h
  · refine step_eq_ok_iff.mpr ⟨id, rfl, .inl ⟨m, ?_, hw⟩⟩
    rwa [Store.mapping?_alloc_of_lt (Store.lt_size_of_mapping? hm)]
  · have hget := Store.sequence?_eq_some.mp hitems
    refine step_eq_ok_iff.mpr ⟨id, rfl, .inr ⟨items, Store.sequence?_eq_some.mpr ?_, hw⟩⟩
    rwa [Store.get?_alloc_of_lt s c (Store.lt_size_of_get? hget)]

theorem follow_alloc (c : Container) (h : follow s v path = .ok w) : follow (s.alloc c).2 v path = .ok w := by
  induction path generalizing v with
  | nil => exact h
  | cons first rest ih =>
      unfold follow at h ih ⊢
      rw [List.foldlM_cons] at h ⊢
      cases hstep : step s v first with
      | error e =>
          rw [hstep] at h
          cases h
      | ok inner =>
          rw [hstep] at h
          rw [step_alloc c hstep]
          exact ih h

end Steps

-- The way goes through a key with a slash and an escape in it, and through an empty key.
def nestedKeys : Store :=
  ⟨#[.ofFields [("a/~1b", .node 1)], .ofFields [("", .node 2)], .sequence [.str "x", .str "y"]]⟩

theorem resolve_nestedKeys :
    encode [.key "a/~1b", .key "", .position 1] = "a~1~01b//1" ∧
      segments "/a~1~01b//1" = ["a/~1b", "", "1"] ∧
      resolve nestedKeys (.node 0) "/a~1~01b//1" = .ok (.str "y") := by
  have hencode : encode [.key "a/~1b", .key "", .position 1] = "a~1~01b//1" := by decide
  have haddressable : Addressable nestedKeys := by
    intro id items hitems
    have hlt : id < nestedKeys.nodes.size := Store.lt_size_of_get? (Store.sequence?_eq_some.mp hitems)
    have hall : ∀ id < nestedKeys.nodes.size, ∀ items ∈ nestedKeys.sequence? id,
        ∀ i < items.length, (toString i).toList.length ≤ maxDecimalDigits := by decide
    exact hall id hlt items hitems
  have hleads : LeadsTo nestedKeys (.node 0) [.key "a/~1b", .key "", .position 1] (.str "y") :=
    .key rfl rfl (.key rfl rfl (.position rfl rfl (.here _)))
  have hslash : "/a~1~01b//1" = "/" ++ encode [.key "a/~1b", .key "", .position 1] := by
    rw [hencode]
    rfl
  exact ⟨hencode, resolve_encode haddressable hleads (by decide) (by decide) (.inr hslash)⟩

end ApiGraph.Reference
