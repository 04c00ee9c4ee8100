import ApiGraph.Proofs.Ensures
import ApiGraph.Proofs.Naming.Ways

namespace ApiGraph.Naming

section Program

variable (c : Scope)

def scanVisit (allowance depth : Nat) (v : Visit) : Collect Unit :=
  scan c allowance depth v.property v.inComposition v.node

-- The name that a visit may give.
def nameOf (s : Store) (v : Visit) (number : Nat) : Except Fault String :=
  propertyName ((s.entries v.node).text? "title") v.property number

-- Names the schema that is visited, if that falls to this visit.
def nameVisit (v : Visit) : Collect Unit := do
  let table := (← get).table
  if !v.inComposition && !c.topLevel.contains v.node && !table.contains v.node &&
      isNameable c.store (c.store.entries v.node) then
    assign v.node (← nameOf c.store v table.size)

variable {c} {α β : Type}

theorem forM_filterMap (l : List α) (f : α → Option β) (g : β → Collect Unit) :
    (l.filterMap f).forM g = l.forM fun a => (f a).elim (return) g := by
  induction l with
  | nil => rfl
  | cons a rest ih =>
      rw [List.filterMap_cons]
      show _ = (f a).elim (return) g >>= fun _ => rest.forM _
      rw [← ih]
      cases f a with
      | none => rfl
      | some b => rfl

theorem bind_eq_bind {x y : Collect Unit} {f g : Unit → Collect Unit} (h : x = y) (hf : ∀ a, f a = g a) :
    (x >>= f) = (y >>= g) := by
  rw [h, funext hf]

theorem scanVisit_succ (allowance depth : Nat) (v : Visit) :
    scanVisit c (allowance + 1) depth v = (do
      if c.maxDepth < depth then
        modify fun p => { p with limits := p.limits ++ [depthLimit c v.property] }
        return
      if (← get).visited.contains v.node then return
      modify fun p => { p with visited := v.node :: p.visited }
      if (c.store.entries v.node).ref?.isSome then return
      (v.branches c.store).forM (scanVisit c allowance (depth + 1))
      nameVisit c v
      (v.properties c.store ++ v.items c.store).forM (scanVisit c allowance (depth + 1))) := by
  have hbranches : (v.branches c.store).forM (scanVisit c allowance (depth + 1)) =
      (branches c.store (c.store.entries v.node)).forM (scan c allowance (depth + 1) v.property true) := by
    unfold Visit.branches
    rw [List.forM_eq_forM, List.forM_map]
    rfl
  have hproperties : (v.properties c.store).forM (scanVisit c allowance (depth + 1)) =
      ((properties? c.store (c.store.entries v.node)).getD .empty).entries.forM fun e =>
        (c.store.asMapping? e.2).elim (return) fun found =>
          scan c allowance (depth + 1) (some e.1) v.inComposition found.1 := by
    unfold Visit.properties
    rw [forM_filterMap]
    refine congrArg (List.forM _) (funext fun e => ?_)
    cases c.store.asMapping? e.2 <;> rfl
  have hitems : (v.items c.store).forM (scanVisit c allowance (depth + 1)) =
      (arrayItems? c.store (c.store.entries v.node)).elim (return)
        (scan c allowance (depth + 1) v.property v.inComposition) := by
    unfold Visit.items
    cases arrayItems? c.store (c.store.entries v.node) with
    | none => rfl
    | some id => exact bind_pure _
  have hrest : (v.properties c.store ++ v.items c.store).forM (scanVisit c allowance (depth + 1)) = (do
      (v.properties c.store).forM (scanVisit c allowance (depth + 1))
      (v.items c.store).forM (scanVisit c allowance (depth + 1))) := List.forM_append
  rw [hrest, hbranches, hproperties, hitems]
  unfold scanVisit nameVisit nameOf
  rw [scan]
  simp only [bind_assoc]
  -- What follows the naming stands in both branches of the test on the left, and behind it on the right.
  refine ite_congr rfl (fun _ => rfl) fun _ => bind_congr fun p => ite_congr rfl (fun _ => rfl) fun _ =>
    bind_congr fun _ => ite_congr rfl (fun _ => rfl) fun _ => bind_congr fun _ => bind_congr fun q => ?_
  split
  · rw [bind_assoc]
    refine bind_congr fun name => bind_congr fun _ =>
      bind_eq_bind (congrArg (List.forM _) (funext fun e => ?_)) fun _ => ?_
    · cases c.store.asMapping? e.2 <;> rfl
    · cases arrayItems? c.store (c.store.entries v.node) <;> rfl
  · rw [pure_bind]
    refine bind_eq_bind (congrArg (List.forM _) (funext fun e => ?_)) fun _ => ?_
    · cases c.store.asMapping? e.2 <;> rfl
    · cases arrayItems? c.store (c.store.entries v.node) <;> rfl

end Program

section Naming

variable {c : Scope} {around : List NodeId} {L L' : List Visit} {p q r : Progress} {v w : Visit} {f : Fault}

-- An object schema that has no name as a component.
def IsInline (c : Scope) (n : NodeId) : Prop :=
  n ∉ c.topLevel ∧ isNameable c.store (c.store.entries n) = true

def IsFit (c : Scope) (v : Visit) : Prop := v.inComposition = false ∧ IsInline c v.node

-- The schema has no title, and the property around it makes no name.
def NameFails (s : Store) (v : Visit) (f : Fault) : Prop :=
  ((s.entries v.node).text? "title").filter (· != "") = none ∧
    ∃ key, v.property = some key ∧ key.scalar.isTruthy = true ∧ propertyIdentifier key = .error f

theorem nameOf_eq_error_iff {s : Store} {number : Nat} :
    nameOf s v number = .error f ↔ NameFails s v f := by
  unfold nameOf propertyName NameFails
  generalize ((s.entries v.node).text? "title").filter (· != "") = title
  cases title with
  | some t => simp
  | none =>
      cases v.property with
      | none => simp
      | some key => cases hkey : key.scalar.isTruthy <;> simp [Option.filter, hkey]

-- The visits of a scan that give a name, or would if the schema had none.
structure Due (c : Scope) (around : List NodeId) (L : List Visit) (p : Progress) (v : Visit) : Prop where
  first : First c.store around L v
  unseen : v.node ∉ p.visited
  fit : IsFit c v

-- What a scan has done that met no limit.
structure Scanned (c : Scope) (around : List NodeId) (L : List Visit) (p q : Progress) : Prop where
  visited : ∀ n, n ∈ q.visited ↔ n ∈ p.visited ∨ ∃ u ∈ L, Leads c.store around u.node n
  named : ∀ n, q.table.contains n = true ↔
    p.table.contains n = true ∨ ∃ v, Due c around L p v ∧ v.node = n
  told : ∀ v f, Due c around L p v → p.table.contains v.node = false → ¬NameFails c.store v f

-- Of the schemas that were seen only those around may still hold something unseen.
structure Settled (s : Store) (around visited : List NodeId) : Prop where
  subset : around ⊆ visited
  held : ∀ a ∈ visited, a ∉ around → ∀ b ∈ held s a, b ∈ visited

theorem Settled.mem_of_leads {s : Store} {visited : List NodeId} {a n : NodeId}
    (h : Settled s around visited) (ha : a ∈ visited) (hlead : Leads s around a n) : n ∈ visited := by
  induction hlead with
  | self _ => exact ha
  | step hlead hc _ ih => exact h.held _ ih hlead.ends.2 _ hc

theorem Settled.enter {s : Store} {visited : List NodeId} {a : NodeId} (h : Settled s around visited) :
    Settled s (a :: around) (a :: visited) where
  subset := List.cons_subset_cons a h.subset
  held := by
    intro b hb hout d hd
    have hne : b ≠ a ∧ b ∉ around := by simpa using hout
    have hin := (List.mem_cons.mp hb).resolve_left hne.1
    exact List.mem_cons_of_mem _ (h.held b hin hne.2 d hd)

theorem Scanned.settled (h : Scanned c around L p q) (hp : Settled c.store around p.visited) :
    Settled c.store around q.visited where
  subset := fun n hn => (h.visited n).mpr (.inl (hp.subset hn))
  held := by
    intro a ha hout b hb
    refine (h.visited b).mpr ?_
    rcases (h.visited a).mp ha with ha | ⟨u, hu, hlead⟩
    · exact .inl (hp.held a ha hout b hb)
    · by_cases hin : b ∈ around
      · exact .inl (hp.subset hin)
      · exact .inr ⟨u, hu, .step hlead hb hin⟩

theorem scanned_nil : Scanned c around [] p p where
  visited := by simp
  named := by
    refine fun n => ⟨.inl, ?_⟩
    rintro (h | ⟨v, hv, -⟩)
    · exact h
    · cases hv.first
  told := fun v f hv => by cases hv.first

-- What the second part of a list names was not seen in the first part.
theorem Scanned.due_append (h : Scanned c around L p q) :
    Due c around (L ++ L') p v ↔ Due c around L p v ∨ Due c around L' q v := by
  constructor
  · rintro ⟨hfirst, hunseen, hfit⟩
    rcases first_append.mp hfirst with hfirst | ⟨hno, hfirst⟩
    · exact .inl ⟨hfirst, hunseen, hfit⟩
    · refine .inr ⟨hfirst, fun hin => ?_, hfit⟩
      rcases (h.visited _).mp hin with hin | ⟨u, hu, hlead⟩
      · exact hunseen hin
      · exact hno u hu hlead
  · rintro (⟨hfirst, hunseen, hfit⟩ | ⟨hfirst, hunseen, hfit⟩)
    · exact ⟨first_append.mpr (.inl hfirst), hunseen, hfit⟩
    · have hno := fun u hu hlead => hunseen ((h.visited v.node).mpr (.inr ⟨u, hu, hlead⟩))
      exact ⟨first_append.mpr (.inr ⟨hno, hfirst⟩), fun hin => hunseen ((h.visited _).mpr (.inl hin)), hfit⟩

-- What was named is seen.
theorem Scanned.contains_of_unseen (h : Scanned c around L p q) {n : NodeId} (hn : n ∉ q.visited) :
    q.table.contains n = p.table.contains n := by
  rw [Bool.eq_iff_iff, h.named]
  refine ⟨fun hin => hin.resolve_right ?_, .inl⟩
  rintro ⟨v, hv, rfl⟩
  exact hn ((h.visited _).mpr (.inr hv.first.leads))

theorem Scanned.append (h : Scanned c around L p q) (h' : Scanned c around L' q r) :
    Scanned c around (L ++ L') p r where
  visited := by
    intro n
    rw [h'.visited, h.visited, or_assoc]
    simp only [List.mem_append, or_and_right, exists_or]
  named := by
    intro n
    rw [h'.named, h.named, or_assoc, ← exists_or]
    simp only [h.due_append, or_and_right]
  told := by
    intro v f hv hout
    rcases h.due_append.mp hv with hv | hv
    · exact h.told v f hv hout
    · exact h'.told v f hv (h.contains_of_unseen hv.unseen ▸ hout)

-- What is done at the schema itself, after its branches.
structure NamedHere (c : Scope) (v : Visit) (p q : Progress) : Prop where
  visited : q.visited = p.visited
  limits : q.limits = p.limits
  named : ∀ n, q.table.contains n = true ↔ p.table.contains n = true ∨ n = v.node ∧ IsFit c v
  told : ∀ f, IsFit c v → p.table.contains v.node = false → ¬NameFails c.store v f

def enter (v : Visit) (p : Progress) : Progress := { p with visited := v.node :: p.visited }

-- A visit gives a name to its own schema, or to one that is reached through its parts.
theorem due_singleton (hsub : around ⊆ p.visited) (hv : v.node ∉ p.visited) :
    Due c around [v] p w ↔
      w = v ∧ IsFit c v ∨ Due c (v.node :: around) (v.parts c.store) (enter v p) w := by
  have hout : v.node ∉ around := fun hin => hv (hsub hin)
  constructor
  · rintro ⟨hfirst, hunseen, hfit⟩
    rcases (first_singleton.mp hfirst).2 with rfl | ⟨hne, hfirst⟩
    · exact .inl ⟨rfl, hfit⟩
    · exact .inr ⟨hfirst, by simpa [enter] using ⟨hne, hunseen⟩, hfit⟩
  · rintro (⟨rfl, hfit⟩ | ⟨hfirst, hunseen, hfit⟩)
    · exact ⟨.here hout, hv, hfit⟩
    · have hunseen' : w.node ≠ v.node ∧ w.node ∉ p.visited := by simpa [enter] using hunseen
      exact ⟨first_singleton.mpr ⟨hout, .inr ⟨hunseen'.1, hfirst⟩⟩, hunseen'.2, hfit⟩

theorem Due.congr (h : Due c around L p v) (hvisited : q.visited = p.visited) : Due c around L q v :=
  ⟨h.first, hvisited ▸ h.unseen, h.fit⟩

theorem NamedHere.contains_of_ne (h : NamedHere c v p q) {n : NodeId} (hn : n ≠ v.node) :
    q.table.contains n = p.table.contains n := by
  rw [Bool.eq_iff_iff, h.named]
  exact ⟨fun hin => hin.resolve_right fun hsame => hn hsame.1, .inl⟩

-- The name of the schema itself comes between the branches and the rest of what it holds.
theorem Scanned.visit {before after : List Visit} (hsub : around ⊆ p.visited) (hv : v.node ∉ p.visited)
    (hparts : v.parts c.store = before ++ after) {q' : Progress}
    (hbefore : Scanned c (v.node :: around) before (enter v p) q) (hhere : NamedHere c v q q')
    (hafter : Scanned c (v.node :: around) after q' r) : Scanned c around [v] p r := by
  have hdue (w : Visit) : Due c around [v] p w ↔ w = v ∧ IsFit c v ∨
      Due c (v.node :: around) before (enter v p) w ∨ Due c (v.node :: around) after q' w := by
    rw [due_singleton hsub hv, hparts, hbefore.due_append]
    exact or_congr_right (or_congr_right
      ⟨fun h => h.congr hhere.visited, fun h => h.congr hhere.visited.symm⟩)
  have hown : q.table.contains v.node = p.table.contains v.node := by
    rw [Bool.eq_iff_iff, hbefore.named]
    refine ⟨fun hin => hin.resolve_right ?_, .inl⟩
    rintro ⟨w, hw, heq⟩
    exact hw.unseen (heq ▸ List.mem_cons_self)
  constructor
  · intro n
    have hout : v.node ∉ around := fun hin => hv (hsub hin)
    have hone : (∃ u ∈ [v], Leads c.store around u.node n) ↔ n = v.node ∨
        (∃ u ∈ before, Leads c.store (v.node :: around) u.node n) ∨
          ∃ u ∈ after, Leads c.store (v.node :: around) u.node n := by
      simp only [List.mem_singleton, exists_eq_left]
      rw [leads_iff, exists_held_iff, hparts]
      simp only [hout, not_false_eq_true, true_and, List.mem_append, or_and_right, exists_or]
    rw [hafter.visited, hhere.visited, hbefore.visited, hone]
    simp only [enter, List.mem_cons]
    rw [or_assoc, or_assoc]
    exact or_left_comm
  · intro n
    have hone : (∃ w, Due c around [v] p w ∧ w.node = n) ↔ n = v.node ∧ IsFit c v ∨
        (∃ w, Due c (v.node :: around) before (enter v p) w ∧ w.node = n) ∨
          ∃ w, Due c (v.node :: around) after q' w ∧ w.node = n := by
      simp only [hdue, or_and_right, exists_or]
      refine or_congr_left ⟨?_, ?_⟩
      · rintro ⟨w, ⟨rfl, hfit⟩, rfl⟩
        exact ⟨rfl, hfit⟩
      · rintro ⟨rfl, hfit⟩
        exact ⟨v, ⟨rfl, hfit⟩, rfl⟩
    rw [hafter.named, hhere.named, hbefore.named, hone]
    rw [or_assoc, or_assoc]
    exact or_congr_right or_left_comm
  · intro w f hw hout
    rcases (hdue w).mp hw with ⟨rfl, hfit⟩ | hw | hw
    · exact hhere.told f hfit (hown ▸ hout)
    · exact hbefore.told w f hw hout
    · have hne : w.node ≠ v.node := fun heq => hw.unseen (by
        rw [hhere.visited, hbefore.visited, heq]
        exact .inl List.mem_cons_self)
      refine hafter.told w f hw ?_
      rw [hhere.contains_of_ne hne, hbefore.contains_of_unseen (hhere.visited ▸ hw.unseen)]
      exact hout

end Naming

section Runs

variable {c : Scope} {Room Shallow : Prop} {roots around : List NodeId} {L L' : List Visit}
  {p q r : Progress} {v w : Visit} {f : Fault}

-- What is known when a scan returns; it may have met a limit.
structure Outcome (c : Scope) (Shallow : Prop) (around : List NodeId) (L : List Visit) (p q : Progress) :
    Prop where
  visited : p.visited ⊆ q.visited
  limits : p.limits <+: q.limits
  table : ∀ n, p.table.contains n = true → q.table.contains n = true
  unlimited : Shallow → q.limits = p.limits
  scanned : Settled c.store around p.visited → q.limits = p.limits → Scanned c around L p q

structure Unnamed (c : Scope) (p : Progress) (v : Visit) (f : Fault) : Prop where
  fit : IsFit c v
  unnamed : p.table.contains v.node = false
  fails : NameFails c.store v f

-- What is known when a scan fails.
structure Failed (c : Scope) (Shallow : Prop) (around : List NodeId) (L : List Visit) (p : Progress)
    (f : Fault) : Prop where
  way : ∃ v, Way c.store L v ∧ Unnamed c p v f
  due : Settled c.store around p.visited → Shallow → ∃ v, Due c around L p v ∧ Unnamed c p v f

theorem Unnamed.before (h : Unnamed c q v f)
    (htable : ∀ n, p.table.contains n = true → q.table.contains n = true) : Unnamed c p v f := by
  refine ⟨h.fit, ?_, h.fails⟩
  have hout := h.unnamed
  contrapose! hout
  rw [Bool.ne_false_iff] at hout ⊢
  exact htable _ hout

theorem outcome_nil : Outcome c Shallow around [] p p :=
  ⟨List.Subset.refl _, List.prefix_rfl, fun _ => id, fun _ => rfl, fun _ _ => scanned_nil⟩

theorem limits_between {l l' l'' : List SoftLimit} (h : l <+: l') (h' : l' <+: l'') (hsame : l'' = l) :
    l' = l := (h.eq_of_length_le (hsame ▸ h').length_le).symm

theorem Outcome.append (h : Outcome c Shallow around L p q) (h' : Outcome c Shallow around L' q r) :
    Outcome c Shallow around (L ++ L') p r where
  visited := List.Subset.trans h.visited h'.visited
  limits := h.limits.trans h'.limits
  table := fun n hn => h'.table n (h.table n hn)
  unlimited := fun hs => (h'.unlimited hs).trans (h.unlimited hs)
  scanned := by
    intro hp hsame
    have hmid := limits_between h.limits h'.limits hsame
    have hscanned := h.scanned hp hmid
    exact hscanned.append (h'.scanned (hscanned.settled hp) (hsame.trans hmid.symm))

theorem Failed.left (h : Failed c Shallow around L p f) : Failed c Shallow around (L ++ L') p f where
  way := by
    obtain ⟨v, hv, hf⟩ := h.way
    exact ⟨v, hv.trans fun u hu => .root (List.mem_append_left _ hu), hf⟩
  due := by
    intro hp hs
    obtain ⟨v, hv, hf⟩ := h.due hp hs
    exact ⟨v, ⟨first_append.mpr (.inl hv.first), hv.unseen, hv.fit⟩, hf⟩

theorem Failed.right (h : Outcome c Shallow around L p q) (h' : Failed c Shallow around L' q f) :
    Failed c Shallow around (L ++ L') p f where
  way := by
    obtain ⟨v, hv, hf⟩ := h'.way
    exact ⟨v, hv.trans fun u hu => .root (List.mem_append_right _ hu), hf.before h.table⟩
  due := by
    intro hp hs
    have hscanned := h.scanned hp (h.unlimited hs)
    obtain ⟨v, hv, hf⟩ := h'.due (hscanned.settled hp) hs
    exact ⟨v, hscanned.due_append.mpr (.inr hv), hf.before h.table⟩

theorem ends_scanAll {visit : Visit → Collect Unit}
    (h : ∀ v ∈ L, ∀ p, around ⊆ p.visited → Ends (visit v) p (fun _ => Outcome c Shallow around [v] p)
      fun f => Room → Failed c Shallow around [v] p f) (hp : around ⊆ p.visited) :
    Ends (L.forM visit) p (fun _ => Outcome c Shallow around L p) fun f =>
      Room → Failed c Shallow around L p f := by
  induction L generalizing p with
  | nil => exact ends_pure.mpr outcome_nil
  | cons v rest ih =>
      show Ends (visit v >>= fun _ => rest.forM visit) p _ _
      rw [ends_bind]
      refine (h v List.mem_cons_self p hp).mono (fun _ q hq => ?_) fun f hf hroom => (hf hroom).left
      refine (ih (fun w hw => h w (List.mem_cons_of_mem _ hw)) (List.Subset.trans hp hq.visited)).mono
        (fun _ r hr => ?_) fun f hf hroom => ?_
      · exact hq.append hr
      · exact .right hq (hf hroom)

theorem contains_assign (t : InlineTable) (node : NodeId) (name : String) (n : NodeId) :
    (t.assign node name).1.contains n = true ↔ t.contains n = true ∨ n = node := by
  unfold InlineTable.assign
  cases hname : t.nameOf? node with
  | some kept =>
      rw [InlineTable.assignment_of_named name hname]
      refine ⟨.inl, ?_⟩
      rintro (h | rfl)
      · exact h
      · rw [InlineTable.contains_eq_isSome_nameOf?, hname]
        rfl
  | none =>
      rw [InlineTable.assignment_of_new name hname]
      unfold InlineTable.contains
      rw [OrderedMap.contains_eq_isSome_get?, OrderedMap.contains_eq_isSome_get?, OrderedMap.get?_insert]
      by_cases hn : n = node
      · simp [hn]
      · simp [hn, Ne.symm hn]

theorem ends_nameVisit (v : Visit) (q : Progress) :
    Ends (nameVisit c v) q (fun _ => NamedHere c v q) (Unnamed c q v) := by
  unfold nameVisit
  rw [ends_bind, ends_get]
  by_cases hfit : IsFit c v ∧ q.table.contains v.node = false
  · obtain ⟨⟨hplain, htop, hnameable⟩, hnew⟩ := hfit
    rw [if_pos (by simp [hplain, htop, hnew, hnameable]), ends_bind]
    refine ends_lift (fun name hname => ?_) fun f hf => ?_
    · unfold assign
      rw [ends_modify]
      refine ⟨rfl, rfl, fun n => ?_, fun f _ _ hfails => ?_⟩
      · rw [contains_assign]
        simp [IsFit, IsInline, hplain, htop, hnameable]
      · rw [nameOf_eq_error_iff.mpr hfails] at hname
        cases hname
    · exact ⟨⟨hplain, htop, hnameable⟩, hnew, nameOf_eq_error_iff.mp hf⟩
  · rw [if_neg (by simpa [IsFit, IsInline, and_assoc, and_comm, and_left_comm] using hfit)]
    refine ⟨rfl, rfl, fun n => ⟨.inl, ?_⟩, fun f hv hnew => absurd ⟨hv, hnew⟩ hfit⟩
    rintro (h | ⟨rfl, hv⟩)
    · exact h
    · by_contra hnew
      exact hfit ⟨hv, Bool.eq_false_iff.mpr hnew⟩

section Visit

variable {before after : List Visit} {q' : Progress}

theorem Outcome.visit (hv : v.node ∉ p.visited) (hparts : v.parts c.store = before ++ after)
    (hbefore : Outcome c Shallow (v.node :: around) before (enter v p) q) (hhere : NamedHere c v q q')
    (hafter : Outcome c Shallow (v.node :: around) after q' r) : Outcome c Shallow around [v] p r where
  visited := by
    refine List.Subset.trans (List.subset_cons_self v.node _) (List.Subset.trans hbefore.visited ?_)
    exact hhere.visited ▸ hafter.visited
  limits := hbefore.limits.trans (hhere.limits ▸ hafter.limits)
  table := fun n hn => hafter.table n ((hhere.named n).mpr (.inl (hbefore.table n hn)))
  unlimited := fun hs => (hafter.unlimited hs).trans (hhere.limits.trans (hbefore.unlimited hs))
  scanned := by
    intro hp hsame
    have hmid : q.limits = p.limits := limits_between hbefore.limits (hhere.limits ▸ hafter.limits) hsame
    have hscanned := hbefore.scanned hp.enter hmid
    have hsettled := hhere.visited ▸ hscanned.settled hp.enter
    exact .visit hp.subset hv hparts hscanned hhere
      (hafter.scanned hsettled (hsame.trans (hmid.symm.trans hhere.limits.symm)))

theorem Failed.inBranch (hv : v.node ∉ p.visited) (hparts : v.parts c.store = before ++ after)
    (h : Failed c Shallow (v.node :: around) before (enter v p) f) : Failed c Shallow around [v] p f where
  way := by
    obtain ⟨w, hw, hf⟩ := h.way
    refine ⟨w, hw.trans fun u hu => .part (.root List.mem_cons_self) ?_, hf.before fun _ => id⟩
    exact hparts ▸ List.mem_append_left _ hu
  due := by
    intro hp hs
    obtain ⟨w, hw, hf⟩ := h.due hp.enter hs
    have hfirst : First c.store (v.node :: around) (v.parts c.store) w :=
      hparts ▸ first_append.mpr (.inl hw.first)
    exact ⟨w, (due_singleton hp.subset hv).mpr (.inr ⟨hfirst, hw.unseen, hw.fit⟩), hf.before fun _ => id⟩

theorem Failed.here (hv : v.node ∉ p.visited)
    (hbefore : Outcome c Shallow (v.node :: around) before (enter v p) q) (h : Unnamed c q v f) :
    Failed c Shallow around [v] p f where
  way := ⟨v, .root List.mem_cons_self, h.before hbefore.table⟩
  due := fun hp _ =>
    ⟨v, (due_singleton hp.subset hv).mpr (.inl ⟨rfl, h.fit⟩), h.before hbefore.table⟩

theorem Failed.inRest (hv : v.node ∉ p.visited) (hparts : v.parts c.store = before ++ after)
    (hbefore : Outcome c Shallow (v.node :: around) before (enter v p) q) (hhere : NamedHere c v q q')
    (h : Failed c Shallow (v.node :: around) after q' f) : Failed c Shallow around [v] p f where
  way := by
    obtain ⟨w, hw, hf⟩ := h.way
    refine ⟨w, hw.trans fun u hu => .part (.root List.mem_cons_self) ?_, hf.before fun n hn => ?_⟩
    · exact hparts ▸ List.mem_append_right _ hu
    · exact (hhere.named n).mpr (.inl (hbefore.table n hn))
  due := by
    intro hp hs
    have hscanned := hbefore.scanned hp.enter (hbefore.unlimited hs)
    obtain ⟨w, hw, hf⟩ := h.due (hhere.visited ▸ hscanned.settled hp.enter) hs
    have hin : Due c (v.node :: around) (v.parts c.store) (enter v p) w :=
      hparts ▸ hscanned.due_append.mpr (.inr (hw.congr hhere.visited.symm))
    refine ⟨w, (due_singleton hp.subset hv).mpr (.inr hin), hf.before fun n hn => ?_⟩
    exact (hhere.named n).mpr (.inl (hbefore.table n hn))

-- What is seen already leads to nothing unseen past the schemas around.
theorem outcome_seen (hv : v.node ∈ p.visited) : Outcome c Shallow around [v] p p where
  visited := List.Subset.refl _
  limits := List.prefix_rfl
  table := fun _ => id
  unlimited := fun _ => rfl
  scanned := by
    intro hp _
    have hseen {n : NodeId} (hlead : ∃ u ∈ [v], Leads c.store around u.node n) : n ∈ p.visited := by
      obtain ⟨u, hu, hlead⟩ := hlead
      obtain rfl := List.mem_singleton.mp hu
      exact hp.mem_of_leads hv hlead
    refine ⟨fun n => ⟨.inl, fun h => h.elim id hseen⟩, fun n => ⟨.inl, ?_⟩, fun w f hw => ?_⟩
    · rintro (h | ⟨w, hw, -⟩)
      · exact h
      · exact absurd (hseen hw.first.leads) hw.unseen
    · exact absurd (hseen hw.first.leads) hw.unseen

end Visit

-- A reference holds nothing and gets no name.
theorem namedHere_reference (href : (c.store.entries v.node).ref?.isSome) : NamedHere c v p p := by
  have hunfit : ¬IsFit c v := by
    rintro ⟨-, -, hnameable⟩
    unfold isNameable at hnameable
    rw [Option.isNone_eq_false_iff.mpr href] at hnameable
    cases hnameable
  exact ⟨rfl, rfl, fun n => ⟨.inl, fun h => h.resolve_right fun hv => hunfit hv.2⟩, fun _ hv => absurd hv hunfit⟩

theorem ends_scanVisit {allowance depth : Nat} (hroom : Room → c.maxDepth + 1 < nestingAllowance)
    (hshallow : Shallow → ∀ l, Chain c.store roots l → (l.length : Int) ≤ c.maxDepth)
    (hallowance : depth + allowance = nestingAllowance) (hdepth : (depth : Int) ≤ c.maxDepth + 1 ∨ depth = 0)
    (hlength : around.length = depth) (hchain : Chain c.store roots around)
    (hnext : v.node ∉ around → Chain c.store roots (v.node :: around)) (hp : around ⊆ p.visited) :
    Ends (scanVisit c allowance depth v) p (fun _ => Outcome c Shallow around [v] p) fun f =>
      Room → Failed c Shallow around [v] p f := by
  induction allowance generalizing depth around v p with
  | zero =>
      refine ends_throw.mpr fun h => ?_
      have hlimit := hroom h
      have hnone : nestingAllowance ≠ 0 := by decide
      omega
  | succ allowance ih =>
      rw [scanVisit_succ]
      by_cases hdeep : c.maxDepth < depth
      · rw [if_pos hdeep, ends_bind, ends_modify, ends_pure]
        refine ⟨List.Subset.refl _, List.prefix_append _ _, fun _ => id, fun hs => ?_, ?_⟩
        · have hlimit := hshallow hs _ hchain
          omega
        · intro _ hsame
          simp at hsame
      · rw [if_neg hdeep, ends_bind, ends_get]
        by_cases hseen : p.visited.contains v.node = true
        · rw [if_pos hseen, ends_pure]
          exact outcome_seen (by simpa using hseen)
        · have hv : v.node ∉ p.visited := by simpa using hseen
          rw [if_neg hseen, ends_bind, ends_modify]
          show Ends _ (enter v p) _ _
          by_cases href : (c.store.entries v.node).ref?.isSome = true
          · rw [if_pos href, ends_pure]
            have hparts : v.parts c.store = [] ++ [] := by
              unfold Visit.parts
              rw [if_pos href]
              rfl
            exact .visit hv hparts outcome_nil (namedHere_reference href) outcome_nil
          · have hparts : v.parts c.store = v.branches c.store ++ (v.properties c.store ++ v.items c.store) := by
              unfold Visit.parts
              rw [if_neg href]
            have hinside : Chain c.store roots (v.node :: around) := hnext fun hin => hv (hp hin)
            have hrest (w : Visit) (hw : w ∈ v.parts c.store) (q : Progress)
                (hq : v.node :: around ⊆ q.visited) :
                Ends (scanVisit c allowance (depth + 1) w) q
                  (fun _ => Outcome c Shallow (v.node :: around) [w] q) fun f =>
                  Room → Failed c Shallow (v.node :: around) [w] q f :=
              ih (by omega) (by omega) (by rw [List.length_cons, hlength]) hinside
                (fun hn => .held hinside (mem_held.mpr ⟨w, hw, rfl⟩) hn) hq
            have henter : v.node :: around ⊆ (enter v p).visited := List.cons_subset_cons _ hp
            rw [if_neg href, ends_bind]
            refine (ends_scanAll (fun w hw => hrest w (hparts ▸ List.mem_append_left _ hw)) henter).mono
              (fun _ q hq => ?_) fun f hf hroom => (hf hroom).inBranch hv hparts
            rw [ends_bind]
            refine (ends_nameVisit v q).mono (fun _ q' hhere => ?_) fun f hf _ => .here hv hq hf
            have hq' : v.node :: around ⊆ q'.visited :=
              hhere.visited ▸ List.Subset.trans henter hq.visited
            refine (ends_scanAll (fun w hw => hrest w (hparts ▸ List.mem_append_right _ hw)) hq').mono
              (fun _ r hr => hq.visit hv hparts hhere hr) fun f hf hroom => (hf hroom).inRest hv hparts hq hhere

end Runs

end ApiGraph.Naming
