import ApiGraph.Proofs.Parsing.Scanning
import ApiGraph.Yaml.Token.Lexer

namespace ApiGraph.Yaml

namespace Lex

variable {α β : Type} {source : List Char}

section Indentation

theorem scans_emit (t : Token) : Scans source (emit t) := scans_modify fun _ => rfl

theorem scans_emitAt (number : Nat) (t : Token) : Scans source (emitAt number t) :=
  scans_modify fun _ => rfl

theorem scans_candidate? : Scans source candidate? := within_get.bind fun _ => within_pure _

theorem scans_dropCandidate : Scans source dropCandidate := scans_modify fun _ => rfl

theorem scans_removeCandidate : Scans source removeCandidate :=
  scans_candidate?.bind fun _ => scans_fail.when scans_dropCandidate

theorem scans_saveCandidate : Scans source saveCandidate := by
  refine within_get.bind fun c => ?_
  split
  · exact scans_removeCandidate.bind fun _ => scans_modify fun _ => rfl
  · exact within_pure _

theorem scans_removeStale : Scans source removeStale := by
  intro c h
  unfold removeStale
  rw [leaves_bind, leaves_get]
  split
  · exact leaves_fail_bind
  · exact leaves_set.mpr h

theorem scans_settle : Scans source settle := scans_modify fun _ => rfl

theorem scans_unwindTo (column : Int) (outer : List Int) : Scans source (unwindTo column outer) := by
  induction outer with
  | nil => exact within_pure _
  | cons indent more ih =>
      intro c h
      unfold unwindTo
      rw [leaves_bind, leaves_get]
      split
      · rw [leaves_bind, leaves_set]
        exact ((scans_emit .blockEnd).bind fun _ => ih) _ h
      · exact leaves_pure.mpr h

theorem scans_unwind (column : Int) : Scans source (unwind column) :=
  within_get.bind fun _ => scans_unwindTo column _

theorem scans_indentTo (column : Int) : Scans source (indentTo column) := by
  intro c h
  unfold indentTo
  rw [leaves_bind, leaves_get]
  split
  · rw [leaves_bind, leaves_set]
    exact leaves_pure.mpr h
  · exact leaves_pure.mpr h

theorem scans_inFlow : Scans source inFlow := within_get.bind fun _ => within_pure _

theorem scans_skipToToken (bound : Nat) : Scans source (skipToToken bound) := by
  induction bound with
  | zero => exact scans_fail
  | succ bound ih =>
      unfold skipToToken
      refine (scans_skipWhile _).bind fun _ => scans_peek.bind fun c => ?_
      refine (scans_skipWhile _).when (scans_lineBreak.bind fun gap => ?_)
      split
      · exact scans_inFlow.bind fun flow => (scans_allowKey true).when ih
      · exact within_pure _

end Indentation

section Token

theorem scans_streamEnd : Scans source streamEnd :=
  (scans_unwind _).bind fun _ => scans_removeCandidate.bind fun _ => scans_emit _

theorem scans_directiveToken : Scans source directiveToken :=
  (scans_unwind _).bind fun _ => scans_removeCandidate.bind fun _ => (scans_allowKey _).bind fun _ =>
    scans_directive.bind fun _ => scans_emit _

theorem scans_documentMark (t : Token) : Scans source (documentMark t) :=
  (scans_unwind _).bind fun _ => scans_removeCandidate.bind fun _ => (scans_allowKey _).bind fun _ =>
    (scans_forward 3).bind fun _ => scans_emit _

theorem scans_flowStart (t : Token) : Scans source (flowStart t) := by
  refine scans_saveCandidate.bind fun _ => ?_
  refine Within.bind (scans_modify fun _ => rfl) fun _ => (scans_allowKey _).bind fun _ => ?_
  exact (scans_forward 1).bind fun _ => scans_emit _

theorem scans_flowEnd (t : Token) : Scans source (flowEnd t) := by
  refine scans_removeCandidate.bind fun _ => scans_inFlow.bind fun flow => scans_fail.when ?_
  refine Within.bind (scans_modify fun _ => rfl) fun _ => (scans_allowKey _).bind fun _ => ?_
  exact (scans_forward 1).bind fun _ => scans_emit _

theorem scans_flowEntry : Scans source flowEntry :=
  (scans_allowKey _).bind fun _ => scans_removeCandidate.bind fun _ => (scans_forward 1).bind fun _ =>
    scans_emit _

theorem scans_startBlock (t : Token) : Scans source (startBlock t) := by
  refine within_get.bind fun c => scans_fail.when (within_get.bind fun c => ?_)
  refine (scans_indentTo _).bind fun deeper => ?_
  split
  · exact scans_emit _
  · exact within_pure _

theorem scans_blockEntry : Scans source blockEntry := by
  refine scans_inFlow.bind fun flow => (scans_startBlock _).when ((scans_allowKey _).bind fun _ => ?_)
  exact scans_removeCandidate.bind fun _ => (scans_forward 1).bind fun _ => scans_emit _

theorem scans_key : Scans source key := by
  refine scans_inFlow.bind fun flow => (scans_startBlock _).when (scans_inFlow.bind fun _ => ?_)
  refine (scans_allowKey _).bind fun _ => scans_removeCandidate.bind fun _ => ?_
  exact (scans_forward 1).bind fun _ => scans_emit _

theorem scans_value : Scans source value := by
  have hvalue : Scans source (do
      forward 1
      emit .value : Lex Unit) := (scans_forward 1).bind fun _ => scans_emit _
  refine scans_candidate?.bind fun k? => ?_
  split
  next k =>
    have hkey : Scans source (do
        allowKey false
        forward 1
        emit .value : Lex Unit) := (scans_allowKey _).bind fun _ => hvalue
    refine scans_dropCandidate.bind fun _ => (scans_emitAt _ _).bind fun _ => ?_
    refine scans_inFlow.bind fun flow => ?_
    split
    · exact (scans_indentTo _).bind fun deeper => (scans_emitAt _ _).when hkey
    · exact hkey
  next =>
    refine scans_inFlow.bind fun flow => (scans_startBlock _).when (scans_inFlow.bind fun _ => ?_)
    exact (scans_allowKey _).bind fun _ => scans_removeCandidate.bind fun _ => hvalue

theorem scans_keyLike {t : Lex Token} (ht : Scans source t) : Scans source (keyLike t) :=
  scans_saveCandidate.bind fun _ => (scans_allowKey _).bind fun _ => ht.bind fun _ => scans_emit _

theorem scans_blockScalar (folded : Bool) : Scans source (blockScalar folded) :=
  (scans_allowKey _).bind fun _ => scans_removeCandidate.bind fun _ => (scans_block _).bind fun _ =>
    scans_emit _

theorem scans_startsPlain : Scans source startsPlain := by
  refine scans_peek.bind fun c => ?_
  split
  · exact within_pure _
  · refine (scans_peekAt 1).bind fun next => ?_
    split
    · exact within_pure _
    · exact scans_inFlow.bind fun _ => within_pure _

theorem scans_token : Scans source token := by
  refine scans_peek.bind fun c => scans_inFlow.bind fun flow => (scans_peekAt 1).bind fun next => ?_
  refine within_get.bind fun s => ?_
  dsimp only
  split
  · exact scans_directiveToken
  · refine (scans_atDocumentMark '-').bind fun dashes => ?_
    split
    · exact scans_documentMark _
    · refine (scans_atDocumentMark '.').bind fun dots => ?_
      split
      · exact scans_documentMark _
      · split
        · exact scans_flowStart _
        · exact scans_flowStart _
        · exact scans_flowEnd _
        · exact scans_flowEnd _
        · exact scans_flowEntry
        · exact scans_keyLike (scans_anchorName.bind fun _ => within_pure _)
        · exact scans_keyLike (scans_anchorName.bind fun _ => within_pure _)
        · exact scans_keyLike scans_tag
        · exact scans_keyLike (scans_quoted _)
        · exact scans_keyLike (scans_quoted _)
        · split
          · exact scans_blockEntry
          · split
            · exact scans_key
            · split
              · exact scans_value
              · split
                · exact scans_blockScalar _
                · split
                  · exact scans_blockScalar _
                  · refine scans_startsPlain.bind fun plain => ?_
                    split
                    · exact scans_keyLike scans_plain
                    · exact scans_fail

theorem scans_tokens (bound : Nat) : Scans source (tokens bound) := by
  induction bound with
  | zero => exact scans_fail
  | succ bound ih =>
      unfold tokens
      refine scans_settle.bind fun _ => within_get.bind fun c => (scans_skipToToken _).bind fun _ => ?_
      refine scans_removeStale.bind fun _ => within_get.bind fun c => (scans_unwind _).bind fun _ => ?_
      refine scans_peek.bind fun c => ?_
      split
      · exact scans_streamEnd
      · exact scans_token.bind fun _ => ih

theorem scans_text : Scans source text := by
  refine within_get.bind fun c => scans_fail.when (scans_peek.bind fun c => ?_)
  exact (scans_forward 1).when (within_get.bind fun _ => scans_tokens _)

end Token

end Lex

-- Where the tokens of a text end in a fault, the text has a flaw.
theorem excused_ending (source : List Char) : Excused source (TokenStream.ofText source).ending := by
  have h := Lex.scans_text (.start source) List.suffix_rfl
  unfold TokenStream.ofText
  cases hrun : Lex.text.run (.start source) with
  | ok _ c => exact Lex.excused_malformed
  | error e c => exact (leaves_of_error hrun).mp h

end ApiGraph.Yaml
