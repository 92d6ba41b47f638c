import AtomLisp.Proofs.ProgramPieces
import AtomLisp.ReadLoop

/-!
# What displaying a source runs

The read loop and the command line run a source inside a call of `display`. The source need not have
matched parentheses, so the parenthesis that is put after it need not be the one that closes the
call: a stray closing parenthesis in the source does so, and what follows it (`Text.afterStray`) is
run as it stands. `displayed_source_forms` says which forms a displayed source has, and how they are
run.
-/

namespace AtomLisp

namespace Text

/-- The characters after the first closing parenthesis that closes nothing, if `depth` parentheses
are open before them. -/
def afterStrayChars (depth : Int) : List Char → List Char
  | [] => []
  | c :: cs =>
    match Token.ofChar? c with
    | some paren =>
      if depth + paren.nesting < 0 then cs else afterStrayChars (depth + paren.nesting) cs
    | none => afterStrayChars depth cs

/-- The text after the first closing parenthesis that closes nothing, empty if there is none. -/
def afterStray (text : String) : String :=
  String.ofList (afterStrayChars 0 text.toList)

end Text

/-! ### Unfinished atoms -/

theorem noStray_wordTokens_append {depth : Int} {word : List Char} {ts : List Token} :
    NoStray depth (wordTokens word ++ ts) ↔ NoStray depth ts := by
  cases word with
  | nil => rfl
  | cons c word =>
    rw [wordTokens, List.singleton_append, noStray_cons, Token.add_nesting_atom]
    exact ⟨fun h => h.2, fun h => ⟨h.depth_nonneg, h⟩⟩

/-- A word at the beginning stands before every stray parenthesis. -/
theorem afterStray_wordTokens_append {depth : Int} (hdepth : 0 ≤ depth) (word : List Char)
    (ts : List Token) : afterStray depth (wordTokens word ++ ts) = afterStray depth ts := by
  cases word with
  | nil => rfl
  | cons c word =>
    rw [wordTokens, List.singleton_append, afterStray, Token.add_nesting_atom, if_neg (by omega)]

/-! ### The text after a stray parenthesis -/

/-- What follows the first stray token is what follows the first stray character. -/
theorem afterStray_tokensAfter {depth : Int} (hdepth : 0 ≤ depth) (word cs : List Char) :
    afterStray depth (tokensAfter word cs) = tokensAfter [] (Text.afterStrayChars depth cs) := by
  induction cs generalizing depth word with
  | nil =>
    have hnil := afterStray_wordTokens_append hdepth word []
    rwa [List.append_nil] at hnil
  | cons c cs ih =>
    rw [tokensAfter, Text.afterStrayChars]
    cases Token.ofChar? c with
    | some paren =>
      simp only [afterStray_wordTokens_append hdepth, afterStray]
      split
      · rfl
      · exact ih (by omega) []
    | none =>
      simp only
      split
      · rw [afterStray_wordTokens_append hdepth, ih hdepth]
      · exact ih hdepth (c :: word)

/-- Where no parenthesis is a stray one, the first one is still to come. -/
theorem afterStrayChars_append {depth : Int} {word cs : List Char}
    (h : NoStray depth (tokensAfter word cs)) (rest : List Char) :
    Text.afterStrayChars depth (cs ++ rest) =
      Text.afterStrayChars (depth + nesting (tokensAfter word cs)) rest := by
  induction cs generalizing depth word with
  | nil => rw [tokensAfter_nil, nesting_wordTokens, Int.add_zero, List.nil_append]
  | cons c cs ih =>
    rw [tokensAfter] at h ⊢
    rw [List.cons_append, Text.afterStrayChars]
    cases hparen : Token.ofChar? c with
    | some paren =>
      simp only [hparen, noStray_wordTokens_append, noStray_cons] at h
      have hlevel := h.2.depth_nonneg
      simp only [nesting_append, nesting_wordTokens, nesting_cons, if_neg (Int.not_lt.2 hlevel)]
      rw [ih h.2, Int.zero_add, Int.add_assoc]
    | none =>
      simp only [hparen] at h ⊢
      split at h
      · next hblank =>
        rw [if_pos hblank, nesting_append, nesting_wordTokens, Int.zero_add,
          ih (noStray_wordTokens_append.1 h)]
      · next hblank => rw [if_neg hblank, ih h]

/-- The tokens after the first stray parenthesis are those of the text after it. -/
theorem tokens_afterStray (text : String) :
    tokens (Text.afterStray text) = afterStray 0 (tokens text) := by
  rw [tokens_eq_tokensAfter, tokens_eq_tokensAfter, afterStray_tokensAfter (Int.le_refl 0),
    Text.afterStray, String.toList_ofList]

/-- Nothing follows a stray parenthesis if there is none. -/
theorem Text.afterStray_of_noStray {text : String} (h : NoStray 0 (tokens text)) :
    afterStray text = "" := by
  rw [tokens_eq_tokensAfter] at h
  have hchars := afterStrayChars_append h []
  rw [List.append_nil] at hchars
  rw [afterStray, hchars]
  rfl

/-- After matched parentheses, the next closing one is the first stray one. -/
theorem Text.afterStray_of_matched {before : String} (h : Matched (tokens before))
    (after : String) : afterStray (before ++ ")" ++ after) = after := by
  have hclosed := h.closed
  have hstray := h.noStray
  rw [tokens_eq_tokensAfter] at hclosed hstray
  have hchars := afterStrayChars_append hstray (')' :: after.toList)
  have htext : (before ++ ")" ++ after).toList = before.toList ++ ')' :: after.toList := by
    simp [String.toList_append]
  rw [hclosed] at hchars
  rw [afterStray, htext, hchars]
  exact String.ofList_toList

/-! ### Displayed sources -/

/-- The tokens of a displayed source are its own, inside those of the call. -/
theorem tokens_displayed (source : String) :
    tokens (displayed source) = .lparen :: .atom "display" :: (tokens source ++ [.rparen]) := by
  have hdisplayed : displayed source = "(display" ++ " " ++ source ++ ")" := rfl
  have hparen : Token.ofChar? ')' = some .rparen := rfl
  have hclose : Breaks (")" : String).toList := breaks_paren hparen []
  have hblank : ∀ c ∈ " ".toList, Text.isBlank c = true := List.forall_mem_singleton.2 rfl
  have hcall : tokens "(display" = [.lparen, .atom "display"] := rfl
  have hend : tokens ")" = [.rparen] := rfl
  rw [hdisplayed, tokens_append hclose, tokens_append_of_blanks (by decide) hblank, hcall, hend]
  rfl

/-- A displayed source is read as the form that displays it, and what follows a stray parenthesis of
it as further forms. -/
theorem read_displayed (source : String) :
    read (displayed source) =
      .list (.atom "display" :: read source) :: read (Text.afterStray source) := by
  have hafter :
      afterStray 0 (.atom "display" :: tokens source) = afterStray 0 (tokens source) := rfl
  unfold read
  rw [tokens_displayed, ← List.cons_append, ← List.cons_append, parse_append_rparen,
    parse_lparen, parse_atom, hafter, tokens_afterStray]

/-- A displayed source is run as one call, and then as what follows the call. -/
theorem run_displayed (depth : Nat) (source : String) (s : ScopeId) :
    run depth (displayed source) s =
      runForms depth [.list (.atom "display" :: read source)] s >>= fun v =>
        if (read (Text.afterStray source)).isEmpty then pure v
        else run depth (Text.afterStray source) s := by
  rw [run, read_displayed, ← List.singleton_append, runForms_append]
  rfl

/-- **What displaying a source runs.** The forms of a displayed source are first the one call of
`display` on all forms of the source, and then the forms of the text after its first closing
parenthesis that closes nothing. If there is no such parenthesis, which is no matter of lists that
are left open, there is only the call. Otherwise what follows it is run, once the call has a value,
as a program of its own in the same scope. -/
theorem displayed_source_forms (source : String) :
    read (displayed source) =
      .list (.atom "display" :: read source) :: read (Text.afterStray source) ∧
    (NoStray 0 (tokens source) → Text.afterStray source = "" ∧
      read (displayed source) = [.list (.atom "display" :: read source)]) ∧
    (∀ before after, source = before ++ ")" ++ after → Matched (tokens before) →
      Text.afterStray source = after) ∧
    ∀ depth s, run depth (displayed source) s =
      runForms depth [.list (.atom "display" :: read source)] s >>= fun v =>
        if (read (Text.afterStray source)).isEmpty then pure v
        else run depth (Text.afterStray source) s := by
  refine ⟨read_displayed source, fun h => ?_, ?_, fun depth s => run_displayed depth source s⟩
  · have hafter : Text.afterStray source = "" := Text.afterStray_of_noStray h
    have hempty : read "" = [] := rfl
    refine ⟨hafter, ?_⟩
    rw [read_displayed, hafter, hempty]
  · rintro before after rfl h
    exact Text.afterStray_of_matched h after

/-- The first parenthesis closes the call, and a list that is left open takes in the one that was
put after the source. -/
example : read (displayed "1) (f 2") =
    [.list [.atom "display", .atom "1"], .list [.atom "f", .atom "2"]] := rfl

end AtomLisp
