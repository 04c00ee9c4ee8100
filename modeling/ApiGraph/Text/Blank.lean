namespace ApiGraph.Text

-- The characters with the white-space property, and the four information separators.
def isBlank (c : Char) : Bool :=
  let n := c.toNat
  (0x09 ≤ n && n ≤ 0x0D) || (0x1C ≤ n && n ≤ 0x20) || n == 0x85 || n == 0xA0 || n == 0x1680 ||
    (0x2000 ≤ n && n ≤ 0x200A) || n == 0x2028 || n == 0x2029 || n == 0x202F || n == 0x205F ||
    n == 0x3000

-- Number literals treat the information separators as ordinary characters.
def isPadding (c : Char) : Bool :=
  isBlank c && !(0x1C ≤ c.toNat && c.toNat ≤ 0x1F)

def trimLeft (cs : List Char) : List Char := cs.dropWhile isBlank

def trimBoth (p : Char → Bool) (cs : List Char) : List Char :=
  ((cs.dropWhile p).reverse.dropWhile p).reverse

def trim (cs : List Char) : List Char := trimBoth isBlank cs

theorem head_dropWhile (p : Char → Bool) (cs : List Char) :
    ∀ c ∈ (cs.dropWhile p).head?, p c = false := by
  induction cs with
  | nil => simp
  | cons c rest ih =>
      by_cases h : p c
      · simpa [h] using ih
      · simp [h]

theorem dropWhile_eq_self {p : Char → Bool} {cs : List Char} (h : ∀ c ∈ cs.head?, p c = false) :
    cs.dropWhile p = cs := by
  cases cs with
  | nil => rfl
  | cons c rest => exact List.dropWhile_cons_of_neg (by simp [h c rfl])

theorem trimBoth_eq_self {p : Char → Bool} {cs : List Char} (h : ∀ c ∈ cs, p c = false) :
    trimBoth p cs = cs := by
  have hhead (l : List Char) (hl : ∀ c ∈ l, c ∈ cs) : ∀ c ∈ l.head?, p c = false :=
    fun c hc => h c (hl c (List.mem_of_mem_head? hc))
  unfold trimBoth
  rw [dropWhile_eq_self (hhead cs fun _ hc => hc),
    dropWhile_eq_self (hhead cs.reverse fun _ hc => List.mem_reverse.mp hc), List.reverse_reverse]

section Trimming

variable {p : Char → Bool} {cs core before after : List Char}

theorem trimBoth_append_dropped (p : Char → Bool) (cs : List Char) :
    trimBoth p cs ++ ((cs.dropWhile p).reverse.takeWhile p).reverse = cs.dropWhile p := by
  unfold trimBoth
  rw [← List.reverse_append, List.takeWhile_append_dropWhile, List.reverse_reverse]

theorem exists_trimBoth (p : Char → Bool) (cs : List Char) :
    ∃ before after, cs = before ++ (trimBoth p cs ++ after) ∧ (∀ c ∈ before, p c) ∧
      ∀ c ∈ after, p c := by
  refine ⟨cs.takeWhile p, ((cs.dropWhile p).reverse.takeWhile p).reverse, ?_,
    fun c hc => List.all_eq_true.mp List.all_takeWhile c hc,
    fun c hc => List.all_eq_true.mp List.all_takeWhile c (List.mem_reverse.mp hc)⟩
  rw [trimBoth_append_dropped, List.takeWhile_append_dropWhile]

theorem head?_trimBoth (p : Char → Bool) (cs : List Char) : ∀ c ∈ (trimBoth p cs).head?, p c = false := by
  intro c hc
  refine head_dropWhile p cs c ?_
  rw [← trimBoth_append_dropped, List.head?_append, hc]
  rfl

theorem getLast?_trimBoth (p : Char → Bool) (cs : List Char) :
    ∀ c ∈ (trimBoth p cs).getLast?, p c = false := by
  unfold trimBoth
  rw [List.getLast?_reverse]
  exact head_dropWhile p _

theorem trimBoth_append (hbefore : ∀ c ∈ before, p c) (hafter : ∀ c ∈ after, p c)
    (hhead : ∀ c ∈ core.head?, p c = false) (hlast : ∀ c ∈ core.getLast?, p c = false) :
    trimBoth p (before ++ (core ++ after)) = core := by
  have hback : core.reverse.dropWhile p = core.reverse :=
    dropWhile_eq_self (by rwa [List.head?_reverse])
  unfold trimBoth
  rw [List.dropWhile_append_of_pos hbefore]
  cases core with
  | nil =>
      have hnone : (after ++ []).dropWhile p = [] := List.dropWhile_append_of_pos hafter
      rw [List.append_nil] at hnone
      rw [List.nil_append, hnone]
      rfl
  | cons c rest =>
      have hfront : (c :: rest ++ after).dropWhile p = c :: rest ++ after := dropWhile_eq_self hhead
      rw [hfront, List.reverse_append,
        List.dropWhile_append_of_pos fun c hc => hafter c (List.mem_reverse.mp hc), hback,
        List.reverse_reverse]

-- What is trimmed away stands around a text that neither starts nor ends with it.
theorem trimBoth_eq_iff : trimBoth p cs = core ↔
    ∃ before after, cs = before ++ (core ++ after) ∧ (∀ c ∈ before, p c) ∧ (∀ c ∈ after, p c) ∧
      (∀ c ∈ core.head?, p c = false) ∧ ∀ c ∈ core.getLast?, p c = false := by
  constructor
  · rintro rfl
    obtain ⟨before, after, hcs, hbefore, hafter⟩ := exists_trimBoth p cs
    exact ⟨before, after, hcs, hbefore, hafter, head?_trimBoth p cs, getLast?_trimBoth p cs⟩
  · rintro ⟨before, after, rfl, hbefore, hafter, hhead, hlast⟩
    exact trimBoth_append hbefore hafter hhead hlast

end Trimming

end ApiGraph.Text
