import AtomLisp.Token.Lexer

/-!
# The tokens of a text, character by character

The scan of a text keeps places and a stack of lexemes. Here the tokens alone are described, by a
recursion on the characters that are still to come (`tokensAfter`), so that the tokens of texts put
together from smaller ones can be computed. This is how a text is split (`tokens_eq_tokensAfter`).

A well-formed atom is read as one token (`tokensAfter_append_of_isAtom`), texts with blanks between
them are split each on its own (`tokens_append_of_blanks`), and all atoms of a text are well-formed.
-/

namespace AtomLisp

namespace Text

/-- The character can be part of an atom: it is neither blank nor a parenthesis. -/
def IsAtomChar (c : Char) : Prop :=
  isBlank c = false ∧ c ≠ '(' ∧ c ≠ ')'

/-- The text stands for one atom in source text: it is not empty, and no character of it is blank
or a parenthesis. -/
def IsAtom (text : String) : Prop :=
  text ≠ "" ∧ ∀ c ∈ text.toList, IsAtomChar c

instance : DecidablePred IsAtomChar := fun c =>
  inferInstanceAs (Decidable (isBlank c = false ∧ c ≠ '(' ∧ c ≠ ')'))

instance : DecidablePred IsAtom := fun text =>
  -- only the characters of the text are looked at, not all that there are
  @instDecidableAnd _ _ inferInstance (List.decidableBAll IsAtomChar text.toList)

end Text

/-- Only parentheses are tokens by themselves. -/
theorem Token.ofChar?_eq_none_iff {c : Char} : ofChar? c = none ↔ c ≠ '(' ∧ c ≠ ')' := by
  unfold ofChar?
  split
  · next h => simp [h]
  · split
    · next h => simp [h]
    · next h h' => simp [h, h']

theorem Token.ofChar?_eq_none_of_isBlank {c : Char} (h : Text.isBlank c = true) :
    ofChar? c = none := by
  refine ofChar?_eq_none_iff.2 ⟨?_, ?_⟩
  · rintro rfl
    rw [Text.isBlank_lparen] at h
    cases h
  · rintro rfl
    rw [Text.isBlank_rparen] at h
    cases h

/-- The token that an unfinished atom, given by its characters with the newest first, has become
when it ends. -/
def wordTokens : List Char → List Token
  | [] => []
  | c :: word => [.atom (String.ofList (c :: word).reverse)]

theorem nesting_wordTokens (word : List Char) : nesting (wordTokens word) = 0 := by
  cases word <;> rfl

/-- The tokens of the characters `cs` that come after an unfinished atom. -/
def tokensAfter (word : List Char) : (cs : List Char) → List Token
  | [] => wordTokens word
  | c :: cs =>
    match Token.ofChar? c with
    | some paren => wordTokens word ++ paren :: tokensAfter [] cs
    | none =>
      if Text.isBlank c then wordTokens word ++ tokensAfter [] cs
      else tokensAfter (c :: word) cs

/-! ### The scan in terms of tokens -/

namespace Scan

theorem map_token_finish (scan : Scan) :
    scan.finish.complete.reverse.map Lexeme.token =
      scan.complete.reverse.map Lexeme.token ++ wordTokens scan.word := by
  unfold finish
  cases hword : scan.word with
  | nil => simp [wordTokens]
  | cons c word => simp [wordTokens]

theorem word_finish (scan : Scan) : scan.finish.word = [] := by
  unfold finish
  split
  · next hword => exact hword
  · rfl

/-- The scan adds the tokens of the characters to those that it has found. -/
theorem map_token_foldl_next (cs : List Char) (scan : Scan) :
    (cs.foldl next scan).finish.complete.reverse.map Lexeme.token =
      scan.complete.reverse.map Lexeme.token ++ tokensAfter scan.word cs := by
  -- the places are of no account, so the induction is on the characters for every scan at once
  induction cs generalizing scan with
  | nil => exact map_token_finish scan
  | cons c cs ih =>
    rw [List.foldl_cons, ih, next, tokensAfter]
    cases Token.ofChar? c with
    | some paren =>
      simp only [List.reverse_cons, List.map_append, map_token_finish, List.append_assoc]
      rfl
    | none =>
      by_cases hblank : Text.isBlank c = true
      · simp only [if_pos hblank, map_token_finish, word_finish, List.append_assoc]
      · simp only [if_neg hblank]

end Scan

/-- The tokens of a text are those of its characters, with no atom begun. -/
theorem tokens_eq_tokensAfter (text : String) : tokens text = tokensAfter [] text.toList := by
  rw [tokens, lexemes, Scan.map_token_foldl_next]
  rfl

/-! ### One character or one atom at a time -/

theorem tokensAfter_nil (word : List Char) : tokensAfter word [] = wordTokens word := rfl

/-- A parenthesis ends the atom before it. -/
theorem tokensAfter_paren {c : Char} {paren : Token} (h : Token.ofChar? c = some paren)
    (word cs : List Char) :
    tokensAfter word (c :: cs) = wordTokens word ++ paren :: tokensAfter [] cs := by
  rw [tokensAfter, h]

/-- So does a blank, which makes no token of its own. -/
theorem tokensAfter_blank {c : Char} (h : Text.isBlank c = true) (word cs : List Char) :
    tokensAfter word (c :: cs) = wordTokens word ++ tokensAfter [] cs := by
  rw [tokensAfter, Token.ofChar?_eq_none_of_isBlank h]
  exact if_pos h

/-- A character of an atom goes into the word. -/
theorem tokensAfter_atomChar {c : Char} (h : Text.IsAtomChar c) (word cs : List Char) :
    tokensAfter word (c :: cs) = tokensAfter (c :: word) cs := by
  rw [tokensAfter, Token.ofChar?_eq_none_iff.2 h.2]
  exact if_neg (Bool.eq_false_iff.1 h.1)

/-- Characters of an atom go on with the atom that has been begun. -/
theorem tokensAfter_append_of_atomChars {cs : List Char} (h : ∀ c ∈ cs, Text.IsAtomChar c)
    (word rest : List Char) :
    tokensAfter word (cs ++ rest) = tokensAfter (cs.reverse ++ word) rest := by
  induction cs generalizing word with
  | nil => rfl
  | cons c cs ih =>
    rw [List.cons_append, tokensAfter_atomChar (h c List.mem_cons_self),
      ih (fun d hd => h d (List.mem_cons_of_mem _ hd)), List.reverse_cons, List.append_assoc]
    rfl

/-- An atom that stands right before the characters ends there. -/
def Breaks (rest : List Char) : Prop :=
  ∀ word, tokensAfter word rest = wordTokens word ++ tokensAfter [] rest

theorem breaks_nil : Breaks [] :=
  fun word => (List.append_nil (wordTokens word)).symm

theorem breaks_blank {c : Char} (h : Text.isBlank c = true) (cs : List Char) : Breaks (c :: cs) :=
  fun word => by rw [tokensAfter_blank h, tokensAfter_blank h, wordTokens, List.nil_append]

theorem breaks_paren {c : Char} {paren : Token} (h : Token.ofChar? c = some paren)
    (cs : List Char) : Breaks (c :: cs) :=
  fun word => by rw [tokensAfter_paren h, tokensAfter_paren h, wordTokens, List.nil_append]

/-- A well-formed atom that ends where the rest begins is read as one token. -/
theorem tokensAfter_append_of_isAtom {text : String} (h : Text.IsAtom text) {rest : List Char}
    (hrest : Breaks rest) :
    tokensAfter [] (text.toList ++ rest) = .atom text :: tokensAfter [] rest := by
  obtain ⟨hne, hchars⟩ := h
  have hword : wordTokens text.toList.reverse = [.atom text] := by
    cases hreverse : text.toList.reverse with
    | nil => exact absurd (String.toList_eq_nil_iff.1 (List.reverse_eq_nil_iff.1 hreverse)) hne
    | cons c word => rw [wordTokens, ← hreverse, List.reverse_reverse, String.ofList_toList]
  rw [tokensAfter_append_of_atomChars hchars, List.append_nil, hrest, hword]
  rfl

/-! ### Texts put together -/

/-- Where an atom would end, the tokens of the characters before and after stand side by side. -/
theorem tokensAfter_append {rest : List Char} (hrest : Breaks rest) (word cs : List Char) :
    tokensAfter word (cs ++ rest) = tokensAfter word cs ++ tokensAfter [] rest := by
  induction cs generalizing word with
  | nil => exact hrest word
  | cons c cs ih =>
    rw [List.cons_append, tokensAfter, tokensAfter]
    cases Token.ofChar? c with
    | some paren => simp only [ih, List.append_assoc, List.cons_append]
    | none =>
      by_cases hblank : Text.isBlank c = true
      · simp only [if_pos hblank, ih, List.append_assoc]
      · simp only [if_neg hblank, ih]

/-- Blanks at the beginning yield no tokens. -/
theorem tokensAfter_blanks_append {blanks : List Char} (h : ∀ c ∈ blanks, Text.isBlank c = true)
    (rest : List Char) : tokensAfter [] (blanks ++ rest) = tokensAfter [] rest := by
  induction blanks with
  | nil => rfl
  | cons c blanks ih =>
    rw [List.cons_append, tokensAfter_blank (h c List.mem_cons_self), wordTokens, List.nil_append,
      ih fun d hd => h d (List.mem_cons_of_mem _ hd)]

/-- Where an atom would end, two texts are split each on its own. -/
theorem tokens_append {second : String} (h : Breaks second.toList) (first : String) :
    tokens (first ++ second) = tokens first ++ tokens second := by
  simp only [tokens_eq_tokensAfter, String.toList_append, tokensAfter_append h]

/-- Two texts with blanks between them have the tokens of the one and then those of the other. -/
theorem tokens_append_of_blanks {blanks : String} (hne : blanks ≠ "")
    (h : ∀ c ∈ blanks.toList, Text.isBlank c = true) (first second : String) :
    tokens (first ++ blanks ++ second) = tokens first ++ tokens second := by
  obtain ⟨c, cs, hcs⟩ := List.exists_cons_of_ne_nil (mt String.toList_eq_nil_iff.1 hne)
  have hbreaks : Breaks (blanks ++ second).toList := by
    rw [String.toList_append, hcs, List.cons_append]
    exact breaks_blank (h c (hcs ▸ List.mem_cons_self)) _
  have hblanks : tokens (blanks ++ second) = tokens second := by
    simp only [tokens_eq_tokensAfter, String.toList_append, tokensAfter_blanks_append h]
  rw [String.append_assoc, tokens_append hbreaks, hblanks]

/-! ### The atoms of a text -/

/-- A word of such characters is a well-formed atom. -/
theorem isAtom_of_mem_wordTokens {word : List Char} (hword : ∀ c ∈ word, Text.IsAtomChar c)
    {text : String} (h : .atom text ∈ wordTokens word) : Text.IsAtom text := by
  cases word with
  | nil => cases h
  | cons c word =>
    obtain rfl : text = _ := Token.atom.inj (List.mem_singleton.1 h)
    refine ⟨fun hempty => ?_, fun d hd => hword d ?_⟩
    · simpa using congrArg String.toList hempty
    · rwa [String.toList_ofList, List.mem_reverse] at hd

/-- All atoms among the tokens are well-formed. -/
theorem isAtom_of_mem_tokensAfter {word cs : List Char} (hword : ∀ c ∈ word, Text.IsAtomChar c)
    {text : String} (h : .atom text ∈ tokensAfter word cs) : Text.IsAtom text := by
  have hnil : ∀ c ∈ ([] : List Char), Text.IsAtomChar c :=
    fun c hc => absurd hc List.not_mem_nil
  induction cs generalizing word with
  | nil => exact isAtom_of_mem_wordTokens hword h
  | cons c cs ih =>
    rw [tokensAfter] at h
    split at h
    · next paren hparen =>
      rcases List.mem_append.1 h with h | h
      · exact isAtom_of_mem_wordTokens hword h
      · rcases List.mem_cons.1 h with rfl | h
        · unfold Token.ofChar? at hparen
          split at hparen <;> simp_all
        · exact ih hnil h
    · next hnone =>
      split at h
      · rcases List.mem_append.1 h with h | h
        · exact isAtom_of_mem_wordTokens hword h
        · exact ih hnil h
      · next hblank =>
        have hc : Text.IsAtomChar c :=
          ⟨Bool.eq_false_iff.2 hblank, Token.ofChar?_eq_none_iff.1 hnone⟩
        refine ih (fun d hd => ?_) h
        rcases List.mem_cons.1 hd with rfl | hd
        · exact hc
        · exact hword d hd

/-- Every atom of a text is one that can be written in source text. -/
theorem isAtom_of_mem_tokens {source text : String} (h : .atom text ∈ tokens source) :
    Text.IsAtom text := by
  rw [tokens_eq_tokensAfter] at h
  exact isAtom_of_mem_tokensAfter (fun c hc => absurd hc List.not_mem_nil) h

end AtomLisp
