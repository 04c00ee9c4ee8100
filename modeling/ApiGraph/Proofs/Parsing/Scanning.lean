import ApiGraph.Proofs.Ensures
import ApiGraph.Proofs.Parsing.Number
import ApiGraph.Yaml.Token.Name

namespace ApiGraph.Yaml

open ApiGraph.Text

-- What in a text stops the scanner without being malformed, and the fault that it is.
inductive LexicalFlaw (source : List Char) : Fault → Prop
  -- The code of a character beyond every machine word, or only beyond the last character.
  | overflow {digits : List Char} {values : List Nat} (hin : '\\' :: 'U' :: digits <:+: source)
      (hlength : digits.length = 8) (hvalues : digits.mapM hexDigit? = some values)
      (hlarge : Nat.pow 2 31 ≤ ofDigits 16 values) : LexicalFlaw source .characterOverflow
  | code {digits : List Char} {values : List Nat} (hin : '\\' :: 'U' :: digits <:+: source)
      (hlength : digits.length = 8) (hvalues : digits.mapM hexDigit? = some values)
      (hlarge : 0x10FFFF < ofDigits 16 values) (hsmall : ofDigits 16 values < Nat.pow 2 31) :
      LexicalFlaw source .unreadableLiteral
  -- A number of a version with too many digits.
  | version {gap digits : List Char} (hin : "YAML".toList ++ gap ++ digits <:+: source)
      (hgap : ∀ c ∈ gap, c = ' ' ∨ c = '.' ∨ c.isDigit) (hdigits : ∀ c ∈ digits, c.isDigit)
      (hlong : maxDecimalDigits < digits.length) : LexicalFlaw source .unreadableLiteral

-- Every fault has its flaw.
def Excused (source : List Char) (e : Problem) : Prop := ∀ f, e = .fault f → LexicalFlaw source f

namespace Lex

variable {α β : Type} {source : List Char}

-- What is left to scan stays the end of the text.
abbrev Scans (source : List Char) (x : Lex α) : Prop :=
  Within (fun c => c.rest <:+ source) (Excused source) x

theorem excused_malformed : Excused source malformed := fun _ h => by cases h

section Cursor

theorem scans_fail : Scans source (fail : Lex α) := within_throw excused_malformed

theorem leaves_fail_bind {f : α → Lex β} {c : Cursor} {Q : β → Cursor → Prop} :
    Leaves (fail >>= f) c Q (Excused source) := by
  rw [leaves_bind]
  exact excused_malformed

theorem scans_modify {f : Cursor → Cursor} (hf : ∀ c, (f c).rest = c.rest) :
    Scans source (modify f : Lex Unit) := within_modify fun c h => by rwa [hf]

theorem scans_allowKey (allowed : Bool) :
    Scans source (modify fun c => { c with keyAllowed := allowed } : Lex Unit) :=
  scans_modify fun _ => rfl

theorem scans_peekAt (k : Nat) : Scans source (peekAt k) := within_get.bind fun _ => within_pure _

theorem scans_peek : Scans source peek := scans_peekAt 0

theorem scans_ahead (k : Nat) : Scans source (ahead k) := within_get.bind fun _ => within_pure _

theorem rest_step (c : Cursor) : (step c).rest = c.rest.drop 1 := by
  unfold step
  split
  next h => rw [h]; rfl
  next x rest h =>
    rw [h]
    dsimp only
    split
    · rfl
    · split <;> rfl

theorem scans_forward (n : Nat) : Scans source (forward n) := by
  induction n with
  | zero => exact within_pure _
  | succ n ih =>
      refine Within.bind (within_modify fun c h => ?_) fun _ => ih
      rw [rest_step]
      exact (List.drop_suffix 1 _).trans h

theorem scans_takeWhile (p : Char → Bool) : Scans source (takeWhile p) :=
  within_get.bind fun _ => (scans_forward _).bind fun _ => within_pure _

theorem scans_skipWhile (p : Char → Bool) : Scans source (skipWhile p) := (scans_takeWhile p).discard

theorem scans_spaceThen (a : α) : Scans source (do
    if !isSpaceOrEnd (← peek) then fail
    return a) := scans_peek.bind fun _ => scans_fail.when (within_pure a)

theorem scans_lineBreak : Scans source lineBreak := by
  refine within_get.bind fun c => ?_
  split
  · exact (scans_forward 2).bind fun _ => within_pure _
  · split
    · exact (scans_forward 1).bind fun _ => within_pure _
    · split
      · exact (scans_forward 1).bind fun _ => within_pure _
      · exact within_pure _
  · exact within_pure _

theorem scans_atDocumentMark (mark : Char) : Scans source (atDocumentMark mark) :=
  (scans_ahead 3).bind fun _ => (scans_peekAt 3).bind fun _ => within_pure _

theorem scans_atDocumentBoundary : Scans source atDocumentBoundary :=
  (scans_atDocumentMark '-').bind fun _ => (scans_atDocumentMark '.').bind fun _ => within_pure _

end Cursor

section Quoted

theorem scans_quotedBreaks (bound : Nat) (acc : List Char) : Scans source (quotedBreaks bound acc) := by
  induction bound generalizing acc with
  | zero => exact scans_fail
  | succ bound ih =>
      unfold quotedBreaks
      refine scans_atDocumentBoundary.bind fun boundary => scans_fail.when ?_
      refine (scans_skipWhile _).bind fun _ => scans_peek.bind fun c => ?_
      split
      · exact scans_lineBreak.bind fun _ => ih _
      · exact within_pure _

theorem leaves_forward_one {c : Cursor} {Q : Unit → Cursor → Prop} {E : Problem → Prop} :
    Leaves (forward 1) c Q E ↔ Q () (step c) := Iff.rfl

theorem leaves_peekAt {k : Nat} {c : Cursor} {Q : Char → Cursor → Prop} {E : Problem → Prop} :
    Leaves (peekAt k) c Q E ↔ Q ((c.rest.drop k).headD endMark) c := Iff.rfl

theorem foldl_digits_lt {base n : Nat} {values : List Nat} (h : ∀ v ∈ values, v < base) :
    values.foldl (fun n d => n * base + d) n < (n + 1) * Nat.pow base values.length := by
  induction values generalizing n with
  | nil => simp
  | cons v rest ih =>
      have hv := h v List.mem_cons_self
      calc (v :: rest).foldl (fun n d => n * base + d) n
        _ < (n * base + v + 1) * Nat.pow base rest.length :=
            ih fun w hw => h w (List.mem_cons_of_mem _ hw)
        _ ≤ (n * base + base) * Nat.pow base rest.length := Nat.mul_le_mul_right _ (by omega)
        _ = (n + 1) * (Nat.pow base rest.length * base) := by
            rw [← Nat.succ_mul, Nat.mul_assoc, Nat.mul_comm base]

theorem values_of_mapM {digits : List Char} {values : List Nat}
    (h : digits.mapM hexDigit? = some values) :
    values.length = digits.length ∧ ∀ v ∈ values, v < 16 := by
  induction digits generalizing values with
  | nil =>
      rw [List.mapM_nil] at h
      cases h
      exact ⟨rfl, fun v hv => by cases hv⟩
  | cons c rest ih =>
      rw [List.mapM_cons] at h
      obtain ⟨v, hv, h⟩ := Option.bind_eq_some_iff.mp h
      obtain ⟨vs, hvs, h⟩ := Option.bind_eq_some_iff.mp h
      cases h
      obtain ⟨hlength, hall⟩ := ih hvs
      refine ⟨by simp [hlength], List.forall_mem_cons.mpr ⟨?_, hall⟩⟩
      exact of_decide_eq_true (Option.filter_eq_some_iff.mp hv).2

-- What is ahead is the code, in as many digits as asked for.
theorem leaves_hexCode {width : Nat} {c : Cursor} {Q : Nat → Cursor → Prop} {E : Problem → Prop}
    (hE : E malformed)
    (hQ : ∀ digits values, digits <+: c.rest → digits.mapM hexDigit? = some values →
      values.length = width → Q (ofDigits 16 values) c) :
    Leaves (hexCode width) c Q E := by
  have hrun : Leaves (ahead width) c (fun digits s => digits = c.rest.take width ∧ s = c) E :=
    ⟨rfl, rfl⟩
  unfold hexCode
  rw [leaves_bind]
  refine hrun.mono (fun digits s hs => ?_) fun _ => id
  obtain ⟨rfl, rfl⟩ := hs
  cases hvalues : (s.rest.take width).mapM hexDigit? with
  | none => exact leaves_throw.mpr hE
  | some values =>
      dsimp only
      split
      next hlength => exact leaves_pure.mpr (hQ _ values (List.take_prefix _ _) hvalues hlength)
      next => exact leaves_throw.mpr hE

theorem leaves_codeChar {n : Nat} {c : Cursor} {Q : Char → Cursor → Prop} {E : Problem → Prop}
    (hQ : ∀ r, Q r c) (hoverflow : Nat.pow 2 31 ≤ n → E (.fault .characterOverflow))
    (hcode : 0x10FFFF < n → n < Nat.pow 2 31 → E (.fault .unreadableLiteral)) :
    Leaves (codeChar n) c Q E := by
  unfold codeChar
  split
  next h => exact leaves_throw.mpr (hoverflow h)
  next h =>
    split
    next hfar => exact leaves_throw.mpr (hcode hfar (Nat.lt_of_not_le h))
    next =>
      split
      · exact leaves_pure.mpr (hQ _)
      · exact leaves_pure.mpr (hQ _)

theorem escapeWidth?_eq_some {c : Char} {width : Nat} (h : escapeWidth? c = some width) :
    c = 'U' ∧ width = 8 ∨ width ≤ 4 := by
  unfold escapeWidth? at h
  split at h <;> cases h <;> simp

-- Only a code of eight digits can be beyond the last character.
theorem excused_of_code {c : Char} {width : Nat} {digits tail : List Char} {values : List Nat}
    (hin : '\\' :: c :: (digits ++ tail) <:+ source) (hwidth : escapeWidth? c = some width)
    (hvalues : digits.mapM hexDigit? = some values) (hlength : values.length = width)
    (hlarge : 0x10FFFF < ofDigits 16 values) :
    (ofDigits 16 values < Nat.pow 2 31 → Excused source (.fault .unreadableLiteral)) ∧
      (Nat.pow 2 31 ≤ ofDigits 16 values → Excused source (.fault .characterOverflow)) := by
  obtain ⟨hdigits, hbound⟩ := values_of_mapM hvalues
  have hlt : ofDigits 16 values < Nat.pow 16 width := by
    have h := foldl_digits_lt (n := 0) hbound
    rwa [hlength, Nat.zero_add, Nat.one_mul] at h
  rcases escapeWidth?_eq_some hwidth with ⟨rfl, rfl⟩ | hsmall
  · have hinfix : '\\' :: 'U' :: digits <:+: source := by
      obtain ⟨before, rfl⟩ := hin
      exact ⟨before, tail, by simp⟩
    have hlen : digits.length = 8 := hdigits.symm.trans hlength
    refine ⟨fun h f hf => ?_, fun h f hf => ?_⟩
    · cases hf
      exact .code hinfix hlen hvalues hlarge h
    · cases hf
      exact .overflow hinfix hlen hvalues h
  · have hpow : Nat.pow 16 width ≤ 65536 := Nat.pow_le_pow_right (by decide) hsmall
    omega

theorem leaves_escape {c : Cursor} (h : c.rest <:+ source) (hmark : c.rest.head? = some '\\') :
    Leaves escape c (fun _ s => s.rest <:+ source) (Excused source) := by
  obtain ⟨rest, hrest⟩ := List.head?_eq_some_iff.mp hmark
  have hstep : (step c).rest = rest := by rw [rest_step, hrest]; rfl
  have hsuffix : (step c).rest <:+ source := by
    rw [rest_step]
    exact (List.drop_suffix 1 _).trans h
  unfold escape
  rw [leaves_bind, leaves_forward_one, leaves_bind]
  show Leaves (peekAt 0) _ _ _
  rw [leaves_peekAt, hstep, List.drop_zero]
  split
  · exact (scans_forward 1).bind (fun _ => within_pure _) _ hsuffix
  next width _ hwidth =>
    rw [leaves_bind, leaves_forward_one, leaves_bind]
    have hnext : (step (step c)).rest <:+ source := by
      rw [rest_step]
      exact (List.drop_suffix 1 _).trans hsuffix
    refine leaves_hexCode excused_malformed fun digits values hafter hvalues hlength => ?_
    obtain ⟨tail, htail⟩ := hafter
    have hin : '\\' :: rest.headD endMark :: (digits ++ tail) <:+ source := by
      rcases rest with _ | ⟨x, rest⟩
      · cases hwidth
      · rw [rest_step, hstep] at htail
        rw [htail]
        rw [hrest] at h
        exact h
    rw [leaves_bind]
    refine leaves_codeChar (fun r => ?_) (fun hlarge => ?_) fun hlarge hsmall => ?_
    · exact (scans_forward width).bind (fun _ => within_pure _) _ hnext
    · have hfar : 0x10FFFF < ofDigits 16 values := Nat.lt_of_lt_of_le (by decide) hlarge
      exact (excused_of_code hin hwidth hvalues hlength hfar).2 hlarge
    · exact (excused_of_code hin hwidth hvalues hlength hlarge).1 hsmall
  · split
    · refine (scans_lineBreak.discard.bind fun _ => ?_) _ hsuffix
      exact within_get.bind fun _ => scans_quotedBreaks _ _
    · exact scans_fail _ hsuffix

theorem scans_quotedText (double : Bool) (bound : Nat) (acc : List Char) :
    Scans source (quotedText double bound acc) := by
  induction bound generalizing acc with
  | zero => exact scans_fail
  | succ bound ih =>
      unfold quotedText
      refine (scans_takeWhile _).bind fun run => ?_
      intro c h
      show Leaves (peekAt 0 >>= _) c _ _
      rw [leaves_bind, leaves_peekAt, List.drop_zero]
      rw [leaves_bind, leaves_peekAt]
      split
      · exact ((scans_forward 2).bind fun _ => ih _) c h
      · split
        · exact ((scans_forward 1).bind fun _ => ih _) c h
        · split
          next hescape =>
            rw [Bool.and_eq_true, beq_iff_eq] at hescape
            have hmark : c.rest.head? = some '\\' := by
              cases hrest : c.rest with
              | nil =>
                  rw [hrest] at hescape
                  exact absurd hescape.2 (by decide)
              | cons x rest =>
                  rw [hrest] at hescape
                  exact congrArg some hescape.2
            rw [leaves_bind]
            exact (leaves_escape h hmark).mono (fun _ s hs => ih _ s hs) fun _ => id
          next => exact leaves_pure.mpr h

theorem scans_quotedGap : Scans source quotedGap := by
  refine (scans_takeWhile _).bind fun spaces => scans_peek.bind fun c => ?_
  split
  · exact scans_fail
  · split
    · refine scans_lineBreak.bind fun first => within_get.bind fun s => ?_
      refine (scans_quotedBreaks _ _).bind fun breaks => ?_
      split
      · exact within_pure _
      · split <;> exact within_pure _
    · exact within_pure _

theorem scans_quotedRest (double : Bool) (quote : Char) (bound : Nat) (acc : List Char) :
    Scans source (quotedRest double quote bound acc) := by
  induction bound generalizing acc with
  | zero => exact scans_fail
  | succ bound ih =>
      unfold quotedRest
      refine scans_peek.bind fun c => ?_
      split
      · exact (scans_forward 1).bind fun _ => within_pure _
      · exact scans_quotedGap.bind fun _ => (scans_quotedText _ _ _).bind fun _ => ih _

theorem scans_quoted (double : Bool) : Scans source (quoted double) := by
  refine scans_peek.bind fun quote => (scans_forward 1).bind fun _ => within_get.bind fun c => ?_
  exact (scans_quotedText _ _ _).bind fun _ => (scans_quotedRest _ _ _ _).bind fun _ => within_pure _

end Quoted

section Plain

theorem scans_plainBreaks (bound : Nat) (acc : List Char) : Scans source (plainBreaks bound acc) := by
  induction bound generalizing acc with
  | zero => exact scans_fail
  | succ bound ih =>
      unfold plainBreaks
      refine scans_peek.bind fun c => ?_
      split
      · exact (scans_forward 1).bind fun _ => ih _
      · split
        · refine scans_lineBreak.bind fun _ => scans_atDocumentBoundary.bind fun boundary => ?_
          split
          · exact within_pure _
          · exact ih _
        · exact within_pure _

theorem scans_plainGap : Scans source plainGap := by
  refine (scans_takeWhile _).bind fun spaces => scans_peek.bind fun c => ?_
  split
  · refine scans_lineBreak.bind fun first => (scans_allowKey true).bind fun _ => ?_
    refine scans_atDocumentBoundary.bind fun boundary => ?_
    split
    · exact within_pure _
    · refine within_get.bind fun c => (scans_plainBreaks _ _).bind fun breaks? => ?_
      split
      · exact within_pure _
      · split
        · exact within_pure _
        · split <;> exact within_pure _
  · exact within_pure _

theorem scans_plainRest (indent : Int) (bound : Nat) (acc gap : List Char) :
    Scans source (plainRest indent bound acc gap) := by
  induction bound generalizing acc gap with
  | zero => exact scans_fail
  | succ bound ih =>
      unfold plainRest
      refine scans_peek.bind fun c => ?_
      split
      · exact within_pure _
      · refine within_get.bind fun _ => within_get.bind fun _ => ?_
        dsimp only
        split
        · exact within_pure _
        · refine (scans_allowKey false).bind fun _ => (scans_forward _).bind fun _ => ?_
          refine scans_plainGap.bind fun gap => scans_peek.bind fun c => within_get.bind fun _ => ?_
          split
          · exact within_pure _
          · exact ih _ _

theorem scans_plain : Scans source plain :=
  within_get.bind fun _ => within_get.bind fun _ => (scans_plainRest _ _ _ _).bind fun _ => within_pure _

end Plain

section Block

theorem scans_blockIncrement : Scans source blockIncrement := by
  refine scans_peek.bind fun c => ?_
  split
  · exact scans_fail.when ((scans_forward 1).bind fun _ => within_pure _)
  · exact within_pure _

theorem scans_blockChomping : Scans source blockChomping := by
  refine scans_peek.bind fun c => ?_
  split
  · exact (scans_forward 1).bind fun _ => within_pure _
  · exact within_pure _

theorem scans_blockHeader : Scans source blockHeader := by
  refine scans_blockChomping.bind fun early => scans_blockIncrement.bind fun increment => ?_
  split
  · exact scans_blockChomping.bind fun late => scans_spaceThen _
  · exact scans_spaceThen _

theorem scans_ignoredLine : Scans source ignoredLine := by
  refine (scans_skipWhile _).bind fun _ => scans_peek.bind fun c => ?_
  exact (scans_skipWhile _).when (scans_peek.bind fun c => scans_fail.when scans_lineBreak.discard)

theorem scans_blockIndentation (bound : Nat) (acc : List Char) (deepest : Nat) :
    Scans source (blockIndentation bound acc deepest) := by
  induction bound generalizing acc deepest with
  | zero => exact scans_fail
  | succ bound ih =>
      unfold blockIndentation
      refine scans_peek.bind fun c => ?_
      split
      · exact (scans_forward 1).bind fun _ => within_get.bind fun _ => ih _ _
      · split
        · exact scans_lineBreak.bind fun _ => ih _ _
        · exact within_pure _

theorem scans_blockMargin (indent : Int) (bound : Nat) : Scans source (blockMargin indent bound) := by
  induction bound with
  | zero => exact within_pure _
  | succ bound ih =>
      unfold blockMargin
      refine within_get.bind fun _ => scans_peek.bind fun c => ?_
      split
      · exact (scans_forward 1).bind fun _ => ih
      · exact within_pure _

theorem scans_blockBreaks (indent : Int) (bound : Nat) (acc : List Char) :
    Scans source (blockBreaks indent bound acc) := by
  induction bound generalizing acc with
  | zero => exact scans_fail
  | succ bound ih =>
      unfold blockBreaks
      refine within_get.bind fun _ => (scans_blockMargin _ _).bind fun _ => scans_peek.bind fun c => ?_
      split
      · exact scans_lineBreak.bind fun _ => ih _
      · exact within_pure _

theorem scans_blockLines (folded : Bool) (indent : Int) (bound : Nat) (b : BlockText) :
    Scans source (blockLines folded indent bound b) := by
  induction bound generalizing b with
  | zero => exact scans_fail
  | succ bound ih =>
      unfold blockLines
      refine within_get.bind fun _ => scans_peek.bind fun c => ?_
      split
      · refine scans_peek.bind fun _ => scans_peek.bind fun _ => (scans_takeWhile _).bind fun line => ?_
        refine scans_lineBreak.bind fun _ => within_get.bind fun _ => ?_
        refine (scans_blockBreaks _ _ _).bind fun breaks => scans_peek.bind fun c => ?_
        refine within_get.bind fun _ => ?_
        split
        · split
          · exact ih _
          · exact ih _
        · exact within_pure _
      · exact within_pure _

theorem scans_block (folded : Bool) : Scans source (block folded) := by
  refine (scans_forward 1).bind fun _ => scans_blockHeader.bind fun header => ?_
  refine scans_ignoredLine.bind fun _ => within_get.bind fun _ => within_get.bind fun _ => ?_
  dsimp only
  split
  · refine (scans_blockIndentation _ _ _).bind fun _ => (scans_blockLines _ _ _ _).bind fun b => ?_
    exact within_pure _
  · exact (scans_blockBreaks _ _ _).bind fun _ => (scans_blockLines _ _ _ _).bind fun b => within_pure _

end Block

section Name

theorem scans_word : Scans source word :=
  (scans_takeWhile _).bind fun _ => scans_fail.when (within_pure _)

theorem scans_anchorName : Scans source anchorName := by
  refine (scans_forward 1).bind fun _ => scans_word.bind fun name => scans_peek.bind fun c => ?_
  exact scans_fail.when (within_pure _)

theorem scans_hexCode (width : Nat) : Scans source (hexCode width) :=
  fun _ h => leaves_hexCode excused_malformed fun _ _ _ _ _ => h

theorem scans_percentBytes (bound : Nat) (acc : List UInt8) :
    Scans source (percentBytes bound acc) := by
  induction bound generalizing acc with
  | zero => exact scans_fail
  | succ bound ih =>
      unfold percentBytes
      refine scans_peek.bind fun c => ?_
      split
      · refine (scans_forward 1).bind fun _ => (scans_hexCode 2).bind fun _ => ?_
        exact (scans_forward 2).bind fun _ => ih _
      · exact within_pure _

theorem scans_percentText : Scans source percentText := by
  refine within_get.bind fun _ => (scans_percentBytes _ _).bind fun bytes => ?_
  split
  · exact within_pure _
  · exact scans_fail

theorem scans_uriRest (bound : Nat) (acc : List Char) : Scans source (uriRest bound acc) := by
  induction bound generalizing acc with
  | zero => exact scans_fail
  | succ bound ih =>
      unfold uriRest
      refine scans_peek.bind fun c => ?_
      split
      · exact scans_percentText.bind fun _ => ih _
      · split
        · exact (scans_forward 1).bind fun _ => ih _
        · exact within_pure _

theorem scans_uri : Scans source uri := by
  refine scans_peek.bind fun c => scans_fail.when ?_
  exact within_get.bind fun _ => (scans_uriRest _ _).bind fun _ => within_pure _

theorem scans_tagHandle : Scans source tagHandle := by
  refine scans_peek.bind fun c => scans_fail.when ((scans_peekAt 1).bind fun c => ?_)
  split
  · exact (scans_forward 1).bind fun _ => within_pure _
  · refine within_get.bind fun _ => (scans_peekAt _).bind fun c => ?_
    exact scans_fail.when ((scans_forward _).bind fun _ => within_pure _)

theorem scans_tag : Scans source tag := by
  refine (scans_peekAt 1).bind fun c => ?_
  split
  · refine (scans_forward 2).bind fun _ => scans_uri.bind fun suffix => scans_peek.bind fun c => ?_
    exact scans_fail.when ((scans_forward 1).bind fun _ => scans_spaceThen _)
  · split
    · exact (scans_forward 1).bind fun _ => scans_spaceThen _
    · refine within_get.bind fun _ => ?_
      have hname (handle : String) : Scans source (do
          let suffix ← uri
          if !isSpaceOrEnd (← peek) then fail
          return Token.tag (some handle) suffix : Lex Token) :=
        scans_uri.bind fun suffix => scans_spaceThen _
      dsimp only
      split
      · exact scans_tagHandle.bind fun handle => hname _
      · exact (scans_forward 1).bind fun _ => hname _

end Name

section Directive

theorem leaves_forward (n : Nat) (c : Cursor) {E : Problem → Prop} :
    Leaves (forward n) c (fun _ s => s.rest = c.rest.drop n) E := by
  induction n generalizing c with
  | zero => exact leaves_pure.mpr rfl
  | succ n ih =>
      show Leaves (modify step >>= fun _ => forward n) c _ E
      rw [leaves_bind, leaves_modify]
      refine (ih (step c)).mono (fun _ s hs => ?_) fun _ => id
      rw [hs, rest_step, List.drop_drop, Nat.add_comm]

theorem leaves_takeWhile (p : Char → Bool) (c : Cursor) {E : Problem → Prop} :
    Leaves (takeWhile p) c (fun cs s => (∀ x ∈ cs, p x) ∧ c.rest = cs ++ s.rest) E := by
  unfold takeWhile
  rw [leaves_bind, leaves_get, leaves_bind]
  refine (leaves_forward _ c).mono (fun _ s hs => leaves_pure.mpr ⟨?_, ?_⟩) fun _ => id
  · exact fun x hx => List.mem_takeWhile_imp hx
  · have hcut := List.takeWhile_append_dropWhile (p := p) (l := c.rest)
    have hdrop := congrArg (List.drop (c.rest.takeWhile p).length) hcut
    rw [List.drop_left] at hdrop
    rw [hs, ← hdrop, hcut]

-- The mark of a version stands before, with no more than a part of the version after it.
def AfterVersion (source : List Char) (c : Cursor) : Prop :=
  ∃ gap, "YAML".toList ++ gap ++ c.rest <:+ source ∧ ∀ x ∈ gap, x = ' ' ∨ x = '.' ∨ x.isDigit

variable {c c' : Cursor} {cs : List Char}

theorem AfterVersion.suffix (h : AfterVersion source c) : c.rest <:+ source := by
  obtain ⟨gap, hin, -⟩ := h
  exact (List.suffix_append _ _).trans hin

theorem AfterVersion.advance (h : AfterVersion source c) (hrest : c.rest = cs ++ c'.rest)
    (hcs : ∀ x ∈ cs, x = ' ' ∨ x = '.' ∨ x.isDigit) : AfterVersion source c' := by
  obtain ⟨gap, hin, hgap⟩ := h
  refine ⟨gap ++ cs, ?_, fun x hx => (List.mem_append.mp hx).elim (hgap x) (hcs x)⟩
  rw [hrest] at hin
  simpa only [List.append_assoc] using hin

theorem within_versionNumber : Within (AfterVersion source) (Excused source) versionNumber := by
  intro c h
  unfold versionNumber
  rw [leaves_bind]
  refine (leaves_takeWhile Char.isDigit c).mono (fun digits s hs => ?_) fun _ => id
  obtain ⟨hdigits, hrest⟩ := hs
  have hafter : AfterVersion source s := h.advance hrest fun x hx => .inr (.inr (hdigits x hx))
  dsimp only
  split
  · exact leaves_fail_bind
  next hne =>
    cases hvalue : integer? 10 digits with
    | some n => exact leaves_pure.mpr hafter
    | none =>
        refine leaves_throw.mpr fun f hf => ?_
        cases hf
        obtain ⟨gap, hin, hgap⟩ := h
        have hnil : digits ≠ [] := by simpa using hne
        have hlong := integer?_eq_none_iff (.inl rfl) hnil hdigits
        refine .version ?_ hgap hdigits (hlong.mp hvalue)
        rw [hrest, ← List.append_assoc] at hin
        exact ((List.prefix_append _ _).isInfix).trans hin.isInfix

theorem leaves_versionDirective (h : AfterVersion source c) :
    Leaves versionDirective c (fun _ s => s.rest <:+ source) (Excused source) := by
  unfold versionDirective skipWhile
  show Leaves ((takeWhile _ >>= fun _ => pure ()) >>= _) c _ _
  rw [leaves_bind, leaves_bind]
  refine (leaves_takeWhile _ c).mono (fun spaces s hs => leaves_pure.mpr ?_) fun _ => id
  have hspaces : AfterVersion source s := h.advance hs.2 fun x hx => .inl (by simpa using hs.1 x hx)
  rw [leaves_bind]
  refine (within_versionNumber s hspaces).mono (fun major s hmajor => ?_) fun _ => id
  show Leaves (peekAt 0 >>= _) s _ _
  rw [leaves_bind, leaves_peekAt, List.drop_zero]
  split
  · exact leaves_fail_bind
  next hdot =>
    rw [leaves_bind, leaves_forward_one]
    have hafter : AfterVersion source (step s) := by
      cases hrest : s.rest with
      | nil =>
          rw [hrest] at hdot
          exact absurd hdot (by decide)
      | cons x rest =>
          have hstep : s.rest = [x] ++ (step s).rest := by
            rw [rest_step, hrest]
            rfl
          refine hmajor.advance hstep fun y hy => ?_
          rw [hrest] at hdot
          rw [List.mem_singleton.mp hy]
          exact .inr (.inl (by simpa using hdot))
    show Leaves ((versionNumber >>= fun _ => pure ()) >>= _) _ _ _
    rw [leaves_bind, leaves_bind]
    refine (within_versionNumber _ hafter).mono (fun minor s hminor => leaves_pure.mpr ?_) fun _ => id
    exact scans_spaceThen _ s hminor.suffix

theorem scans_tagDirective : Scans source tagDirective := by
  refine (scans_skipWhile _).bind fun _ => scans_tagHandle.bind fun handle => ?_
  refine scans_peek.bind fun c => scans_fail.when ?_
  exact (scans_skipWhile _).bind fun _ => scans_uri.bind fun start => scans_spaceThen _

theorem scans_directive : Scans source directive := by
  refine (scans_forward 1).bind fun _ => ?_
  intro c h
  unfold word
  rw [leaves_bind, leaves_bind]
  refine (leaves_takeWhile isWord c).mono (fun cs s hs => ?_) fun _ => id
  have hsuffix : s.rest <:+ source := by
    rw [hs.2] at h
    exact (List.suffix_append _ _).trans h
  have hline (t : Token) : Scans source (do
      ignoredLine
      return t : Lex Token) := scans_ignoredLine.bind fun _ => within_pure t
  split
  · exact leaves_fail_bind
  · rw [leaves_pure]
    show Leaves (peekAt 0 >>= _) s _ _
    rw [leaves_bind, leaves_peekAt]
    split
    next hname =>
      have hversion : AfterVersion source s := by
        refine ⟨[], ?_, fun x hx => by cases hx⟩
        rw [← hname, String.toList_ofList, List.append_nil, ← hs.2]
        exact h
      dsimp only
      split
      · exact leaves_fail_bind
      · rw [leaves_bind]
        exact (leaves_versionDirective hversion).mono (fun t s hs => hline t s hs) fun _ => id
    · dsimp only
      split
      · exact leaves_fail_bind
      · exact (scans_tagDirective.bind fun t => hline t) s hsuffix
    · dsimp only
      split
      · exact leaves_fail_bind
      · exact ((scans_skipWhile _).bind fun _ => hline _) s hsuffix

end Directive

end Lex

end ApiGraph.Yaml
