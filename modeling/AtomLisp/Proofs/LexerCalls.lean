import AtomLisp.Proofs.Lexing

/-!
# What a lexer hands out

A lexer is given texts and asked for its tokens, in any order. Whatever the calls are, the tokens
handed out and those still pending are together the tokens of the texts, and the nesting level is
that of all parentheses in them, handed out or not. To take the tokens, with or without their
places, hands out all that are pending.

`lexing_loses_nothing` says this for calls from the start, together with what the lexemes of a text
are.
-/

namespace AtomLisp

/-! ### Parentheses of a text -/

/-- A parenthesis counts as its character does. -/
theorem Token.nesting_of_ofChar? {c : Char} {paren : Token} (h : ofChar? c = some paren) :
    paren.nesting = ([c].count '(' : Int) - [c].count ')' := by
  unfold ofChar? at h
  split at h
  · next hc =>
    obtain rfl := Option.some.inj h
    subst hc
    rfl
  · split at h
    · next hc =>
      obtain rfl := Option.some.inj h
      subst hc
      rfl
    · cases h

/-- The nesting level counts the parentheses among the characters. -/
theorem nesting_tokensAfter (word cs : List Char) :
    nesting (tokensAfter word cs) = (cs.count '(' : Int) - cs.count ')' := by
  induction cs generalizing word with
  | nil => exact nesting_wordTokens word
  | cons c cs ih =>
    have hcount : ∀ d, ((c :: cs).count d : Int) = [c].count d + cs.count d := fun d => by
      rw [← List.singleton_append, List.count_append, Int.natCast_add]
    rw [tokensAfter, hcount, hcount]
    cases hparen : Token.ofChar? c with
    | some paren =>
      have hc := Token.nesting_of_ofChar? hparen
      simp only [nesting_append, nesting_cons, nesting_wordTokens, ih]
      omega
    | none =>
      obtain ⟨hopen, hclose⟩ := Token.ofChar?_eq_none_iff.1 hparen
      have hnone : [c].count '(' = 0 ∧ [c].count ')' = 0 := by
        simp [hopen, hclose]
      by_cases hblank : Text.isBlank c = true
      · simp only [if_pos hblank, nesting_append, nesting_wordTokens, ih]
        omega
      · simp only [if_neg hblank, ih]
        omega

/-- The nesting level of a text counts its parentheses. -/
theorem nesting_tokens (text : String) :
    nesting (tokens text) = (text.toList.count '(' : Int) - text.toList.count ')' := by
  rw [tokens_eq_tokensAfter, nesting_tokensAfter]

namespace Lexer

/-! ### Calls and answers -/

/-- What can be asked of a lexer. -/
inductive Call where
  /-- Add the tokens of a text. -/
  | feed (text : String)
  /-- Hand out the pending tokens. -/
  | take
  /-- Hand out the pending tokens with their places. -/
  | takePlaced

/-- The texts that a call gives to the lexer: one or none. -/
def Call.texts : Call → List String
  | feed text => [text]
  | take => []
  | takePlaced => []

/-- What a lexer answers to a call. -/
inductive Answer where
  | nothing
  | tokens (ts : List Token)
  | lexemes (ls : List Lexeme)

/-- The answer hands out these lexemes, with or without their places. -/
def Answer.Shows : Answer → List Lexeme → Prop
  | nothing, ls => ls = []
  | tokens ts, ls => ls.map Lexeme.token = ts
  | lexemes ls', ls => ls = ls'

/-- The answer to a call, and the lexer after it. -/
def perform (lexer : Lexer) : Call → Answer × Lexer
  | .feed text => (.nothing, lexer.feed text)
  | .take => (.tokens (lexer.take.1.map Lexeme.token), lexer.take.2)
  | .takePlaced => (.lexemes lexer.take.1, lexer.take.2)

/-- The answers to calls made one after the other, and the lexer after all of them. -/
def performAll (lexer : Lexer) : List Call → List Answer × Lexer
  | [] => ([], lexer)
  | call :: calls =>
    let (answer, lexer) := lexer.perform call
    let (answers, lexer) := lexer.performAll calls
    (answer :: answers, lexer)

/-- The call hands out all lexemes that are pending, and leaves none pending. -/
def Empties (lexer : Lexer) (call : Call) : Prop :=
  (lexer.perform call).1.Shows lexer.pending ∧ (lexer.perform call).2.pending = []

/-- The texts given to a lexer, in order. -/
def given (calls : List Call) : List String :=
  calls.flatMap Call.texts

variable (lexer : Lexer)

/-! ### One call -/

/-- No call loses a lexeme or adds one that has not been given. -/
theorem exists_shows_perform (call : Call) :
    ∃ ls, (lexer.perform call).1.Shows ls ∧
      ls ++ (lexer.perform call).2.pending = lexer.pending ++ call.texts.flatMap lexemes := by
  cases call with
  | feed text => exact ⟨[], rfl, by simp [perform, feed, Call.texts]⟩
  | take => exact ⟨lexer.pending, rfl, by simp [perform, take, Call.texts]⟩
  | takePlaced => exact ⟨lexer.pending, rfl, by simp [perform, take, Call.texts]⟩

/-- Taking the tokens leaves none behind. -/
theorem empties_take : lexer.Empties .take :=
  ⟨rfl, rfl⟩

/-- Taking the tokens with their places leaves none behind. -/
theorem empties_takePlaced : lexer.Empties .takePlaced :=
  ⟨rfl, rfl⟩

/-- A call changes the nesting level by the parentheses that it is given. -/
theorem depth_perform (call : Call) :
    (lexer.perform call).2.depth = lexer.depth +
      (((call.texts.flatMap String.toList).count '(' : Int) -
        (call.texts.flatMap String.toList).count ')') := by
  cases call with
  | feed text =>
    show lexer.depth + nesting (tokens text) = _
    rw [nesting_tokens, Call.texts, List.flatMap_singleton]
  | take => exact (Int.add_zero _).symm
  | takePlaced => exact (Int.add_zero _).symm

/-! ### All calls -/

/-- Calls one after the other lose no lexeme, and add none that has not been given. -/
theorem exists_shows_performAll (calls : List Call) :
    ∃ handed, List.Forall₂ Answer.Shows (lexer.performAll calls).1 handed ∧
      handed.flatten ++ (lexer.performAll calls).2.pending =
        lexer.pending ++ (given calls).flatMap lexemes := by
  induction calls generalizing lexer with
  | nil => exact ⟨[], .nil, (List.append_nil _).symm⟩
  | cons call calls ih =>
    obtain ⟨ls, hls, hcall⟩ := exists_shows_perform lexer call
    obtain ⟨handed, hhanded, hcalls⟩ := ih (lexer.perform call).2
    refine ⟨ls :: handed, .cons hls hhanded, ?_⟩
    calc (ls :: handed).flatten ++ ((lexer.perform call).2.performAll calls).2.pending
        = ls ++ (lexer.perform call).2.pending ++ (given calls).flatMap lexemes := by
          rw [List.flatten_cons, List.append_assoc, hcalls, List.append_assoc]
      _ = lexer.pending ++ (given (call :: calls)).flatMap lexemes := by
          rw [hcall, given, given, List.flatMap_cons, List.flatMap_append, List.append_assoc]

/-- The level after some calls is that of all texts given in them. -/
theorem depth_performAll (calls : List Call) :
    (lexer.performAll calls).2.depth = lexer.depth +
      ((((given calls).flatMap String.toList).count '(' : Int) -
        ((given calls).flatMap String.toList).count ')') := by
  induction calls generalizing lexer with
  | nil => exact (Int.add_zero _).symm
  | cons call calls ih =>
    have hcall := depth_perform lexer call
    have hcalls := ih (lexer.perform call).2
    have hcount : ∀ c, (((given (call :: calls)).flatMap String.toList).count c : Int) =
        (call.texts.flatMap String.toList).count c +
          ((given calls).flatMap String.toList).count c := fun c => by
      rw [given, List.flatMap_cons, List.flatMap_append, List.count_append, Int.natCast_add]
      rfl
    rw [hcount, hcount]
    show ((lexer.perform call).2.performAll calls).2.depth = _
    omega

end Lexer

/-! ### Lexing loses nothing -/

/-- Splitting a text is exact: its lexemes are the only ones that stand in it, each with its own
bytes and none of them shorter than it could be, with nothing but blanks outside them. Whatever
calls are made of a lexer, what it hands out and what is still pending are together the lexemes of
the texts given to it, it is balanced as long as the texts have no more opening parentheses than
closing ones, and either way of taking its tokens would now hand out all that is pending. -/
theorem lexing_loses_nothing :
    (∀ text ls, IsLexing text 0 ls ↔ ls = lexemes text) ∧
    (∀ c, Text.isBlank c = true ↔ c.toNat ∈ Text.whiteSpace) ∧
    ∀ calls, (∃ handed,
        List.Forall₂ Lexer.Answer.Shows (Lexer.performAll {} calls).1 handed ∧
        handed.flatten ++ (Lexer.performAll {} calls).2.pending =
          (Lexer.given calls).flatMap lexemes) ∧
      ((Lexer.performAll {} calls).2.Empties .take ∧
        (Lexer.performAll {} calls).2.Empties .takePlaced) ∧
      ((Lexer.performAll {} calls).2.isBalanced = true ↔
        (((Lexer.given calls).flatMap String.toList).count '(' : Int) -
          ((Lexer.given calls).flatMap String.toList).count ')' ≤ 0) := by
  refine ⟨fun text ls => isLexing_iff, fun c => Text.isBlank_iff, fun calls => ⟨?_, ?_, ?_⟩⟩
  · exact Lexer.exists_shows_performAll {} calls
  · exact ⟨Lexer.empties_take _, Lexer.empties_takePlaced _⟩
  · have hdepth := Lexer.depth_performAll {} calls
    rw [Lexer.isBalanced, decide_eq_true_eq, hdepth]
    show 0 + _ ≤ 0 ↔ _
    rw [Int.zero_add]

end AtomLisp
