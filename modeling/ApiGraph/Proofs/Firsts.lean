namespace ApiGraph

section Firsts

variable {α : Type}

def Covers (same : α → α → Prop) (l : List α) (a : α) : Prop := ∃ b ∈ l, same b a

-- What is kept of a list that comes after other elements.
inductive FirstsAfter (same : α → α → Prop) : (before l kept : List α) → Prop
  | nil {before : List α} : FirstsAfter same before [] []
  | keep {before l kept : List α} {a : α} (hnew : ¬Covers same before a)
      (h : FirstsAfter same (before ++ [a]) l kept) : FirstsAfter same before (a :: l) (a :: kept)
  | skip {before l kept : List α} {a : α} (hold : Covers same before a)
      (h : FirstsAfter same (before ++ [a]) l kept) : FirstsAfter same before (a :: l) kept

def Firsts (same : α → α → Prop) (l kept : List α) : Prop := FirstsAfter same [] l kept

variable {same : α → α → Prop} {before before' l l' kept kept' : List α} {a x : α}

theorem not_covers_nil : ¬Covers same [] x := by
  rintro ⟨b, hb, -⟩
  cases hb

theorem covers_append : Covers same (l ++ l') x ↔ Covers same l x ∨ Covers same l' x := by
  simp only [Covers, List.mem_append, or_and_right, exists_or]

theorem covers_singleton : Covers same [a] x ↔ same a x := by
  simp [Covers]

theorem covers_concat : Covers same (l ++ [a]) x ↔ Covers same l x ∨ same a x := by
  rw [covers_append, covers_singleton]

theorem covers_flatMap {β : Type} {as : List β} {f : β → List α} :
    Covers same (as.flatMap f) x ↔ ∃ a ∈ as, Covers same (f a) x := by
  constructor
  · rintro ⟨b, hb, hsame⟩
    obtain ⟨a, ha, hb⟩ := List.mem_flatMap.mp hb
    exact ⟨a, ha, b, hb, hsame⟩
  · rintro ⟨a, ha, b, hb, hsame⟩
    exact ⟨b, List.mem_flatMap_of_mem ha hb, hsame⟩

-- Only what the elements before cover counts.
theorem FirstsAfter.congr (h : FirstsAfter same before l kept)
    (hcovers : ∀ x, Covers same before x ↔ Covers same before' x) : FirstsAfter same before' l kept := by
  induction h generalizing before' with
  | nil => exact .nil
  | @keep before l kept a hnew _ ih =>
      refine .keep (fun hold => hnew ((hcovers a).mpr hold)) (ih fun x => ?_)
      rw [covers_concat, covers_concat, hcovers]
  | @skip before l kept a hold _ ih =>
      refine .skip ((hcovers a).mp hold) (ih fun x => ?_)
      rw [covers_concat, covers_concat, hcovers]

theorem FirstsAfter.unique (h : FirstsAfter same before l kept) (h' : FirstsAfter same before l kept') :
    kept = kept' := by
  induction h generalizing kept' with
  | nil =>
      cases h'
      rfl
  | keep hnew _ ih =>
      cases h' with
      | keep _ h' => rw [ih h']
      | skip hold _ => exact absurd hold hnew
  | skip hold _ ih =>
      cases h' with
      | keep hnew _ => exact absurd hold hnew
      | skip _ h' => exact ih h'

theorem FirstsAfter.append (h : FirstsAfter same before l kept)
    (h' : FirstsAfter same (before ++ l) l' kept') :
    FirstsAfter same before (l ++ l') (kept ++ kept') := by
  induction h with
  | nil => simpa using h'
  | keep hnew _ ih => exact .keep hnew (ih (by simpa using h'))
  | skip hold _ ih => exact .skip hold (ih (by simpa using h'))

theorem FirstsAfter.subset (h : FirstsAfter same before l kept) : ∀ a ∈ kept, a ∈ l := by
  induction h with
  | nil => exact fun _ => id
  | keep _ _ ih =>
      intro a ha
      rcases List.mem_cons.mp ha with rfl | ha
      · exact List.mem_cons_self
      · exact List.mem_cons_of_mem _ (ih a ha)
  | skip _ _ ih => exact fun a ha => List.mem_cons_of_mem _ (ih a ha)

theorem Firsts.eq_nil_iff (h : Firsts same l kept) : kept = [] ↔ l = [] := by
  cases h with
  | nil => simp
  | keep => simp
  | skip hold => exact absurd hold not_covers_nil

-- Elements of which each finds the test passed or not as any that is the same does.
theorem FirstsAfter.find? {p : α → Bool} (h : FirstsAfter same before l kept)
    (hp : ∀ a b, same a b → p b = true → p a = true) (hbefore : ∀ b ∈ before, p b = false) :
    kept.find? p = l.find? p := by
  induction h with
  | nil => rfl
  | @keep before l kept a _ _ ih =>
      cases ha : p a with
      | true => simp [ha]
      | false =>
          have hnone : ∀ b ∈ before ++ [a], p b = false := by
            intro b hb
            rcases List.mem_append.mp hb with hb | hb
            · exact hbefore b hb
            · exact List.mem_singleton.mp hb ▸ ha
          simp [ha, ih hnone]
  | @skip before l kept a hold _ ih =>
      obtain ⟨b, hb, hsame⟩ := hold
      have ha : p a = false := by
        cases ha : p a with
        | false => rfl
        | true =>
            have hpb := hbefore b hb
            rw [hp b a hsame ha] at hpb
            cases hpb
      have hnone : ∀ b ∈ before ++ [a], p b = false := by
        intro b hb
        rcases List.mem_append.mp hb with hb | hb
        · exact hbefore b hb
        · exact List.mem_singleton.mp hb ▸ ha
      simp [ha, ih hnone]

section Transitive

variable (htrans : ∀ a b c, same a b → same b c → same a c)

include htrans

theorem covers_of_same (h : Covers same l a) (hsame : same a x) : Covers same l x := by
  obtain ⟨b, hb, hba⟩ := h
  exact ⟨b, hb, htrans b a x hba hsame⟩

theorem covers_concat_of_covers (h : Covers same l a) : Covers same (l ++ [a]) x ↔ Covers same l x := by
  rw [covers_concat]
  exact ⟨fun hx => hx.elim id (covers_of_same htrans h), .inl⟩

-- What is skipped was covered already.
theorem FirstsAfter.covers (h : FirstsAfter same before l kept) :
    Covers same (before ++ kept) x ↔ Covers same (before ++ l) x := by
  induction h with
  | nil => rfl
  | @keep before l kept a _ _ ih =>
      rw [List.append_cons, ih, ← List.append_cons]
  | @skip before l kept a hold _ ih =>
      have hskip := @ih
      rw [covers_append, covers_concat_of_covers htrans hold, ← covers_append] at hskip
      rw [hskip, ← List.append_cons]

theorem Firsts.covers (h : Firsts same l kept) : Covers same kept x ↔ Covers same l x :=
  FirstsAfter.covers htrans h

-- What is kept of what was kept of a list is what is kept of the list.
theorem FirstsAfter.nested (h : FirstsAfter same before' l l') (h' : FirstsAfter same before l' kept)
    (hcovers : ∀ x, Covers same before' x → Covers same before x) : FirstsAfter same before l kept := by
  induction h generalizing before kept with
  | nil => exact h'
  | @keep before' l l' a _ _ ih =>
      have hmore : ∀ x, Covers same (before' ++ [a]) x → Covers same (before ++ [a]) x := by
        intro x hx
        rw [covers_concat] at hx ⊢
        exact hx.imp_left (hcovers x)
      cases h' with
      | keep hnew h' => exact .keep hnew (ih h' hmore)
      | skip hold h' => exact .skip hold (ih h' hmore)
  | @skip before' l l' a hold _ ih =>
      have hold' := hcovers a hold
      refine .skip hold' (ih (h'.congr fun x => (covers_concat_of_covers htrans hold').symm) fun x hx => ?_)
      rw [covers_concat_of_covers htrans hold] at hx
      exact (covers_concat_of_covers htrans hold').mpr (hcovers x hx)

-- What comes after a list may as well come after what is kept of it.
theorem Firsts.append_of_kept (h : Firsts same l kept) (h' : FirstsAfter same kept l' kept') :
    Firsts same (l ++ l') (kept ++ kept') :=
  FirstsAfter.append h (h'.congr fun _ => h.covers htrans)

end Transitive

end Firsts

end ApiGraph
