import AtomLisp.Proofs.TextBytes
import AtomLisp.Proofs.TokensOfText

/-!
# What splitting a text must give

The lexemes of a text are described by what they are and not by how they are found: they stand in
the text where they say, in order, nothing but blanks is left out, and no atom could be longer. One
list alone is described so, and the scan finds it (`isLexing_iff`).

Between the description by bytes (`IsLexing`) and the scan over characters stands `LexesFrom`, which
reads the lexemes off the characters from the left to the right. The scan finds what it says
(`LexesFrom.scan_eq`), and both descriptions agree (`isLexing_iff_lexesFrom`), since where a lexeme
stands the text is cut between characters.
-/

namespace AtomLisp

open String (utf8Len utf8Len_append utf8Len_cons utf8Len_toList utf8Len_eq_zero)

namespace Text

/-- The code points with the Unicode property `White_Space`, one by one. -/
def whiteSpace : List Nat :=
  [0x9, 0xA, 0xB, 0xC, 0xD, 0x20, 0x85, 0xA0, 0x1680, 0x2000, 0x2001, 0x2002, 0x2003, 0x2004,
    0x2005, 0x2006, 0x2007, 0x2008, 0x2009, 0x200A, 0x2028, 0x2029, 0x202F, 0x205F, 0x3000]

/-- The character `c` begins at byte `place` of the text. -/
def HasAt (text : String) (place : Nat) (c : Char) : Prop :=
  ∃ before after, text.toList = before ++ c :: after ∧ utf8Len before = place

/-- No atom goes on from the one side to the other. -/
def Seam (before after : List Char) : Prop :=
  ∀ c d, before.getLast? = some c → after.head? = some d → IsAtomChar c → ¬ IsAtomChar d

end Text

/-- The token can be written in source text. -/
def Token.IsWritten (t : Token) : Prop :=
  ∀ name, t = .atom name → Text.IsAtom name

/-- The lexeme is a token of the text: its bytes are those of the token, and if it is an atom, then
neither the character before it nor the one after it could belong to it. -/
structure Lexeme.StandsIn (l : Lexeme) (text : String) : Prop where
  nonempty : l.start < l.stop
  inside : l.stop ≤ text.utf8ByteSize
  bytes : text.toByteArray.extract l.start l.stop = l.token.text.toByteArray
  isWritten : l.token.IsWritten
  maximal_before : ∀ name place c, l.token = .atom name → Text.HasAt text place c →
    place + c.utf8Size = l.start → ¬ Text.IsAtomChar c
  maximal_after : ∀ name c, l.token = .atom name → Text.HasAt text l.stop c →
    ¬ Text.IsAtomChar c

/-- From byte `start` on, the text has these lexemes, and blanks between them. -/
structure IsLexing (text : String) (start : Nat) (ls : List Lexeme) : Prop where
  start_le : ∀ l ∈ ls, start ≤ l.start
  ordered : ls.Pairwise fun l m => l.stop ≤ m.start
  standsIn : ∀ l ∈ ls, l.StandsIn text
  blank : ∀ place c, start ≤ place → Text.HasAt text place c →
    (∀ l ∈ ls, ¬ (l.start ≤ place ∧ place < l.stop)) → Text.isBlank c = true

/-- The characters, of which the first one is at byte `start`, have these lexemes. -/
inductive LexesFrom : Nat → List Char → List Lexeme → Prop
  | nil (start : Nat) : LexesFrom start [] []
  | blank {start : Nat} {c : Char} {cs : List Char} {ls : List Lexeme}
      (hc : Text.isBlank c = true) (h : LexesFrom (start + c.utf8Size) cs ls) :
      LexesFrom start (c :: cs) ls
  | token {start : Nat} {t : Token} {rest : List Char} {ls : List Lexeme} (ht : t.IsWritten)
      (hseam : Text.Seam t.text.toList rest)
      (h : LexesFrom (start + t.text.utf8ByteSize) rest ls) :
      LexesFrom start (t.text.toList ++ rest) (⟨t, start, start + t.text.utf8ByteSize⟩ :: ls)

/-- The ranges of blanks hold these code points and no others. -/
theorem Text.isBlank_iff {c : Char} : isBlank c = true ↔ c.toNat ∈ whiteSpace := by
  simp only [isBlank, blankRanges, whiteSpace, List.any_cons, List.any_nil, Bool.or_eq_true,
    Bool.and_eq_true, decide_eq_true_eq, Bool.false_eq_true, List.mem_cons, List.not_mem_nil,
    or_false]
  omega

/-! ### Tokens and seams -/

theorem Token.isWritten_lparen : lparen.IsWritten :=
  fun _ h => nomatch h

theorem Token.isWritten_rparen : rparen.IsWritten :=
  fun _ h => nomatch h

/-- An atom can be written if its text has no parenthesis and no blank. -/
theorem Token.isWritten_atom {name : String} : (atom name).IsWritten ↔ Text.IsAtom name :=
  ⟨fun h => h name rfl, fun h _ heq => Token.atom.inj heq ▸ h⟩

/-- A character that is a token by itself is the text of this token. -/
theorem Token.toList_text_of_ofChar? {c : Char} {paren : Token} (h : ofChar? c = some paren) :
    paren.text.toList = [c] ∧ paren.IsWritten := by
  unfold ofChar? at h
  split at h
  · next hc =>
    obtain rfl := Option.some.inj h
    exact ⟨by rw [hc]; rfl, isWritten_lparen⟩
  · split at h
    · next hc =>
      obtain rfl := Option.some.inj h
      exact ⟨by rw [hc]; rfl, isWritten_rparen⟩
    · cases h

/-- No token is written with nothing. -/
theorem Token.IsWritten.toList_ne_nil {t : Token} (h : t.IsWritten) : t.text.toList ≠ [] := by
  cases t with
  | lparen => decide
  | rparen => decide
  | atom name => exact mt String.toList_eq_nil_iff.1 (h name rfl).1

theorem Token.IsWritten.utf8ByteSize_pos {t : Token} (h : t.IsWritten) :
    0 < t.text.utf8ByteSize := by
  have hne : utf8Len t.text.toList ≠ 0 := mt utf8Len_eq_zero.1 h.toList_ne_nil
  rw [utf8Len_toList] at hne
  omega

namespace Text

theorem not_isAtomChar_of_isBlank {c : Char} (h : isBlank c = true) : ¬ IsAtomChar c := by
  intro hc
  rw [hc.1] at h
  cases h

/-- A character is of an atom, a parenthesis or a blank. -/
theorem isBlank_of_not_isAtomChar {c : Char} (hc : ¬ IsAtomChar c)
    (hparen : Token.ofChar? c = none) : isBlank c = true := by
  by_contra hblank
  exact hc ⟨Bool.eq_false_iff.2 hblank, Token.ofChar?_eq_none_iff.1 hparen⟩

/-- After a character that is no part of an atom, a token can begin. -/
theorem seam_append_singleton (before : List Char) {c : Char} (hc : ¬ IsAtomChar c)
    (after : List Char) : Seam (before ++ [c]) after := by
  intro d e hd _ hatom
  obtain rfl : c = d := by
    rw [List.getLast?_append] at hd
    exact Option.some.inj hd
  exact absurd hatom hc

/-- What stands further to the left does not matter to a seam. -/
theorem Seam.append_left {before after : List Char} (h : Seam before after) (earlier : List Char)
    (hne : before ≠ []) : Seam (earlier ++ before) after := by
  intro c d hc
  obtain ⟨e, he⟩ := Option.ne_none_iff_exists'.1 (mt List.getLast?_eq_none_iff.1 hne)
  rw [List.getLast?_append, he] at hc
  exact h c d (he.trans hc)

theorem seam_nil_left (after : List Char) : Seam [] after :=
  fun _ _ hc => nomatch hc

/-- Where a token ends, only its being an atom can make a seam fail. -/
theorem seam_text_left_iff {t : Token} (ht : t.IsWritten) {after : List Char} :
    Seam t.text.toList after ↔
      ∀ name d, t = .atom name → after.head? = some d → ¬ IsAtomChar d := by
  constructor
  · rintro hseam name d rfl hd
    obtain ⟨hne, hchars⟩ := ht name rfl
    obtain ⟨c, hc⟩ := Option.ne_none_iff_exists'.1
      (mt List.getLast?_eq_none_iff.1 (mt String.toList_eq_nil_iff.1 hne))
    exact hseam c d hc hd (hchars c (List.mem_of_getLast? hc))
  · intro h c d hc hd hatom
    cases t with
    | lparen => exact absurd rfl ((Option.some.inj hc : '(' = c) ▸ hatom).2.1
    | rparen => exact absurd rfl ((Option.some.inj hc : ')' = c) ▸ hatom).2.2
    | atom name => exact h name d rfl hd

/-- The same where a token begins. -/
theorem seam_text_right_iff {t : Token} (ht : t.IsWritten) {before rest : List Char} :
    Seam before (t.text.toList ++ rest) ↔
      ∀ name c, t = .atom name → before.getLast? = some c → ¬ IsAtomChar c := by
  constructor
  · rintro hseam name c rfl hc hatom
    obtain ⟨hne, hchars⟩ := ht name rfl
    obtain ⟨d, ds, hds⟩ := List.exists_cons_of_ne_nil (mt String.toList_eq_nil_iff.1 hne)
    have hd : (name.toList ++ rest).head? = some d := by rw [hds]; rfl
    exact hseam c d hc hd hatom (hchars d (hds ▸ List.mem_cons_self))
  · intro h c d hc hd hatom
    cases t with
    | lparen => exact fun hd' => absurd rfl ((Option.some.inj hd : '(' = d) ▸ hd').2.1
    | rparen => exact fun hd' => absurd rfl ((Option.some.inj hd : ')' = d) ▸ hd').2.2
    | atom name => exact absurd hatom (h name c rfl hc)

/-! ### Characters and their places -/

theorem utf8Len_append_singleton (before : List Char) (c : Char) :
    utf8Len (before ++ [c]) = utf8Len before + c.utf8Size := by
  rw [utf8Len_append, utf8Len_cons, String.utf8Len_nil, Nat.zero_add]

/-- Of two cuts of the same characters, the one with fewer bytes in front is the earlier one. -/
theorem exists_gap_of_utf8Len_le {p q p' q' : List Char} (h : p ++ q = p' ++ q')
    (hle : utf8Len p ≤ utf8Len p') : ∃ gap, p' = p ++ gap ∧ q = gap ++ q' := by
  rcases List.append_eq_append_iff.1 h with hgap | ⟨gap, hp, hq⟩
  · exact hgap
  · have hgap : gap = [] := by
      refine utf8Len_eq_zero.1 ?_
      rw [hp, utf8Len_append] at hle
      omega
    subst hgap
    rw [List.append_nil] at hp
    exact ⟨[], by rw [hp, List.append_nil], hq.symm⟩

/-- Two cuts with the same number of bytes in front are the same. -/
theorem cut_eq_of_utf8Len_eq {p q p' q' : List Char} (h : p ++ q = p' ++ q')
    (heq : utf8Len p = utf8Len p') : p = p' ∧ q = q' := by
  obtain ⟨gap, rfl, rfl⟩ := exists_gap_of_utf8Len_le h heq.le
  have hgap : gap = [] := by
    refine utf8Len_eq_zero.1 ?_
    rw [utf8Len_append] at heq
    omega
  subst hgap
  exact ⟨(List.append_nil p).symm, rfl⟩

variable {text : String} {before cs : List Char} {c : Char}

theorem HasAt.lt_utf8ByteSize {place : Nat} (h : HasAt text place c) :
    place < text.utf8ByteSize := by
  obtain ⟨before, after, htext, rfl⟩ := h
  have hc := c.utf8Size_pos
  rw [← utf8Len_toList, htext, utf8Len_append, utf8Len_cons]
  omega

/-- The character after a cut is the first one of the second part. -/
theorem hasAt_iff_head? (htext : text.toList = before ++ cs) :
    HasAt text (utf8Len before) c ↔ cs.head? = some c := by
  rw [List.head?_eq_some_iff]
  constructor
  · rintro ⟨before', after, htext', hplace⟩
    exact ⟨after, (cut_eq_of_utf8Len_eq (htext.symm.trans htext') hplace.symm).2⟩
  · rintro ⟨after, rfl⟩
    exact ⟨before, after, htext, rfl⟩

/-- The character before a cut is the last one of the first part. -/
theorem exists_hasAt_iff_getLast? (htext : text.toList = before ++ cs) :
    (∃ place, HasAt text place c ∧ place + c.utf8Size = utf8Len before) ↔
      before.getLast? = some c := by
  rw [List.getLast?_eq_some_iff]
  constructor
  · rintro ⟨_, ⟨init, after, htext', rfl⟩, hstop⟩
    have hcut : (init ++ [c]) ++ after = before ++ cs := by
      rw [← htext, htext', List.append_assoc, List.singleton_append]
    have hsize := (utf8Len_append_singleton init c).trans hstop
    exact ⟨init, (cut_eq_of_utf8Len_eq hcut hsize).1.symm⟩
  · rintro ⟨init, rfl⟩
    refine ⟨utf8Len init, ⟨init, cs, ?_, rfl⟩, (utf8Len_append_singleton init c).symm⟩
    rw [htext, List.append_assoc, List.singleton_append]

/-- Inside the bytes of a character no other one begins. -/
theorem HasAt.eq_of_lt {place : Nat} {d : Char} (h : HasAt text place d)
    (htext : text.toList = before ++ c :: cs) (hle : utf8Len before ≤ place)
    (hlt : place < utf8Len before + c.utf8Size) : d = c := by
  obtain ⟨before', after, htext', rfl⟩ := h
  obtain ⟨gap, rfl, hgap⟩ := exists_gap_of_utf8Len_le (htext.symm.trans htext') hle
  cases gap with
  | nil => exact (List.cons.inj hgap).1.symm
  | cons e gap =>
    obtain rfl : c = e := (List.cons.inj hgap).1
    rw [utf8Len_append, utf8Len_cons] at hlt
    omega

end Text

namespace Lexeme

variable {l : Lexeme} {text : String}

/-- A lexeme that stands in a text cuts it in three, and no atom goes on over the cuts. -/
theorem StandsIn.exists_cut (h : l.StandsIn text) :
    ∃ before after, text.toList = before ++ (l.token.text.toList ++ after) ∧
      utf8Len before = l.start ∧ l.start + l.token.text.utf8ByteSize = l.stop ∧
      Text.Seam before (l.token.text.toList ++ after) ∧ Text.Seam l.token.text.toList after := by
  obtain ⟨before, after, rfl, hstart, hstop⟩ :=
    (Text.extract_toByteArray_eq_iff h.nonempty h.inside).1 h.bytes
  have htext : (before ++ l.token.text ++ after).toList =
      before.toList ++ (l.token.text.toList ++ after.toList) := by
    rw [String.toList_append, String.toList_append, List.append_assoc]
  refine ⟨before.toList, after.toList, htext, ?_, hstop, ?_, ?_⟩
  · rw [utf8Len_toList, hstart]
  · refine (Text.seam_text_right_iff h.isWritten).2 fun name c hname hc => ?_
    obtain ⟨place, hplace, hend⟩ := (Text.exists_hasAt_iff_getLast? htext).2 hc
    refine h.maximal_before name place c hname hplace ?_
    rw [hend, utf8Len_toList, hstart]
  · refine (Text.seam_text_left_iff h.isWritten).2 fun name d hname hd => ?_
    have hplace := (Text.hasAt_iff_head? (htext.trans (List.append_assoc ..).symm)).2 hd
    rw [utf8Len_append, utf8Len_toList, utf8Len_toList, hstart, hstop] at hplace
    exact h.maximal_after name d hname hplace

/-- And a token over whose ends no atom goes on is a lexeme that stands in the text. -/
theorem standsIn_of_cut {before after : List Char} (ht : l.token.IsWritten)
    (htext : text.toList = before ++ (l.token.text.toList ++ after))
    (hstart : utf8Len before = l.start) (hstop : l.start + l.token.text.utf8ByteSize = l.stop)
    (hbefore : Text.Seam before (l.token.text.toList ++ after))
    (hafter : Text.Seam l.token.text.toList after) : l.StandsIn text := by
  have hpos := ht.utf8ByteSize_pos
  have hsize : l.start + l.token.text.utf8ByteSize + utf8Len after = text.utf8ByteSize := by
    rw [← utf8Len_toList text, htext, utf8Len_append, utf8Len_append, utf8Len_toList, hstart,
      Nat.add_assoc]
  have htext' := htext.trans (List.append_assoc ..).symm
  have hlt : l.start < l.stop := by omega
  have hinside : l.stop ≤ text.utf8ByteSize := by omega
  refine ⟨hlt, hinside, ?_, ht, ?_, ?_⟩
  · refine (Text.extract_toByteArray_eq_iff hlt hinside).2
      ⟨String.ofList before, String.ofList after, String.toList_inj.1 ?_, ?_, hstop⟩
    · rw [String.toList_append, String.toList_append, String.toList_ofList, String.toList_ofList,
        htext']
    · rw [String.utf8ByteSize_ofList, hstart]
  · intro name place c hname hplace hend
    refine (Text.seam_text_right_iff ht).1 hbefore name c hname ?_
    exact (Text.exists_hasAt_iff_getLast? htext).1 ⟨place, hplace, hend.trans hstart.symm⟩
  · intro name d hname hd
    refine (Text.seam_text_left_iff ht).1 hafter name d hname ?_
    refine (Text.hasAt_iff_head? htext').1 ?_
    rwa [utf8Len_append, utf8Len_toList, hstart, hstop]

end Lexeme

/-! ### The scan finds the lexemes -/

namespace Scan

/-- A word is finished once. -/
theorem finish_finish (scan : Scan) : scan.finish.finish = scan.finish := by
  rw [finish, word_finish]

theorem offset_finish (scan : Scan) : scan.finish.offset = scan.offset := by
  unfold finish
  split <;> rfl

/-- A character that can belong to no atom completes the one before it. -/
theorem next_finish {c : Char} (hc : ¬ Text.IsAtomChar c) (scan : Scan) :
    scan.finish.next c = scan.next c := by
  unfold next
  cases hparen : Token.ofChar? c with
  | some paren => simp only [finish_finish, offset_finish]
  | none =>
    simp only [if_pos (Text.isBlank_of_not_isAtomChar hc hparen), finish_finish, offset_finish]

/-- So the scan of what cannot go on with an atom may begin with no atom. -/
theorem foldl_next_finish {cs : List Char} (hcs : ∀ c, cs.head? = some c → ¬ Text.IsAtomChar c)
    (scan : Scan) :
    (cs.foldl next scan.finish).finish = (cs.foldl next scan).finish := by
  cases cs with
  | nil => exact finish_finish scan
  | cons c cs => rw [List.foldl_cons, List.foldl_cons, next_finish (hcs c rfl)]

/-- Characters of an atom go into the word. -/
theorem foldl_next_of_atomChars {cs : List Char} (h : ∀ c ∈ cs, Text.IsAtomChar c)
    (scan : Scan) : cs.foldl next scan =
      { scan with offset := scan.offset + utf8Len cs, word := cs.reverse ++ scan.word } := by
  induction cs generalizing scan with
  | nil => rfl
  | cons c cs ih =>
    have hc := h c List.mem_cons_self
    have hnext : scan.next c =
        { scan with offset := scan.offset + c.utf8Size, word := c :: scan.word } := by
      rw [next, Token.ofChar?_eq_none_iff.2 hc.2]
      exact if_neg (Bool.eq_false_iff.1 hc.1)
    rw [List.foldl_cons, hnext, ih fun d hd => h d (List.mem_cons_of_mem _ hd)]
    simp only [utf8Len_cons, List.reverse_cons, List.append_assoc, List.singleton_append,
      Nat.add_assoc, Nat.add_comm]

/-- A token that has been read whole is complete where the next one begins. -/
theorem finish_foldl_next_of_isWritten {t : Token} (ht : t.IsWritten) (start : Nat)
    (complete : List Lexeme) :
    (t.text.toList.foldl next ⟨start, [], complete⟩).finish =
      ⟨start + t.text.utf8ByteSize, [],
        ⟨t, start, start + t.text.utf8ByteSize⟩ :: complete⟩ := by
  cases t with
  | lparen => rfl
  | rparen => rfl
  | atom name =>
    have hne : name.toList.reverse ≠ [] := mt List.reverse_eq_nil_iff.1 ht.toList_ne_nil
    have hback : String.ofList name.toList.reverse.reverse = name := by
      rw [List.reverse_reverse, String.ofList_toList]
    rw [Token.text, foldl_next_of_atomChars (ht name rfl).2, List.append_nil, utf8Len_toList]
    obtain ⟨c, word, hword⟩ := List.exists_cons_of_ne_nil hne
    rw [hword] at hback ⊢
    simp only [finish, hback, Nat.add_sub_cancel]

end Scan

/-- The scan of characters finds the lexemes that they have. -/
theorem LexesFrom.scan_eq {start : Nat} {cs : List Char} {ls : List Lexeme}
    (h : LexesFrom start cs ls) (complete : List Lexeme) :
    (cs.foldl Scan.next ⟨start, [], complete⟩).finish.complete.reverse =
      complete.reverse ++ ls := by
  induction h generalizing complete with
  | nil start => exact (List.append_nil _).symm
  | @blank start c cs ls hc h ih =>
    have hnext : Scan.next ⟨start, [], complete⟩ c =
        ⟨start + c.utf8Size, [], complete⟩ := by
      rw [Scan.next, Token.ofChar?_eq_none_of_isBlank hc]
      exact if_pos hc
    rw [List.foldl_cons, hnext, ih]
  | @token start t rest ls ht hseam h ih =>
    have hfinish :
        (rest.foldl Scan.next (t.text.toList.foldl Scan.next ⟨start, [], complete⟩)).finish =
          (rest.foldl Scan.next
            (t.text.toList.foldl Scan.next ⟨start, [], complete⟩).finish).finish := by
      cases t with
      | lparen => rfl
      | rparen => rfl
      | atom name =>
        have hrest := (Text.seam_text_left_iff ht).1 hseam name
        exact (Scan.foldl_next_finish (fun d hd => hrest d rfl hd) _).symm
    rw [List.foldl_append, hfinish, Scan.finish_foldl_next_of_isWritten ht, ih, List.reverse_cons,
      List.append_assoc, List.singleton_append]

/-! ### All characters have lexemes -/

/-- An atom before what is split is a lexeme of its own. -/
theorem exists_lexesFrom_atomChars_append {word rest : List Char}
    (hword : ∀ c ∈ word, Text.IsAtomChar c)
    (hrest : ∀ d, rest.head? = some d → ¬ Text.IsAtomChar d) {start : Nat}
    (h : ∃ ls, LexesFrom (start + utf8Len word) rest ls) :
    ∃ ls, LexesFrom start (word ++ rest) ls := by
  obtain ⟨ls, h⟩ := h
  by_cases hne : word = []
  · subst hne
    exact ⟨ls, h⟩
  · have ht : (Token.atom (String.ofList word)).IsWritten := by
      refine Token.isWritten_atom.2 ⟨mt (congrArg String.toList) ?_, ?_⟩
      · rwa [String.toList_ofList]
      · rwa [String.toList_ofList]
    have hsize : (Token.atom (String.ofList word)).text.utf8ByteSize = utf8Len word :=
      String.utf8ByteSize_ofList word
    have hlexes := LexesFrom.token ht ((Text.seam_text_left_iff ht).2 fun _ d _ => hrest d)
      (hsize.symm ▸ h)
    rw [Token.text, String.toList_ofList] at hlexes
    exact ⟨_, hlexes⟩

/-- A character that is no part of an atom is a lexeme, or a blank. -/
theorem exists_lexesFrom_cons {c : Char} (hc : ¬ Text.IsAtomChar c) {cs : List Char}
    (h : ∀ start, ∃ ls, LexesFrom start cs ls) (start : Nat) :
    ∃ ls, LexesFrom start (c :: cs) ls := by
  cases hparen : Token.ofChar? c with
  | some paren =>
    obtain ⟨htext, ht⟩ := Token.toList_text_of_ofChar? hparen
    obtain ⟨ls, hlexes⟩ := h (start + paren.text.utf8ByteSize)
    have hseam : Text.Seam paren.text.toList cs := htext ▸ Text.seam_append_singleton [] hc cs
    have hall := LexesFrom.token ht hseam hlexes
    rw [htext] at hall
    exact ⟨_, hall⟩
  | none =>
    obtain ⟨ls, hlexes⟩ := h (start + c.utf8Size)
    exact ⟨ls, .blank (Text.isBlank_of_not_isAtomChar hc hparen) hlexes⟩

/-- Characters can always be split, with a part of an atom in front of them. -/
theorem exists_lexesFrom_append {word : List Char} (hword : ∀ c ∈ word, Text.IsAtomChar c)
    (cs : List Char) (start : Nat) : ∃ ls, LexesFrom start (word ++ cs) ls := by
  -- characters move into the atom that has been begun, until one of them ends it
  induction cs generalizing word start with
  | nil =>
    exact exists_lexesFrom_atomChars_append hword (fun _ hd => by cases hd) ⟨[], .nil _⟩
  | cons c cs ih =>
    by_cases hc : Text.IsAtomChar c
    · have hword' : ∀ d ∈ word ++ [c], Text.IsAtomChar d := by
        intro d hd
        rcases List.mem_append.1 hd with hd | hd
        · exact hword d hd
        · exact List.mem_singleton.1 hd ▸ hc
      have hlexes := ih hword' start
      rwa [List.append_assoc] at hlexes
    · refine exists_lexesFrom_atomChars_append hword ?_ ?_
      · intro d hd
        exact Option.some.inj hd ▸ hc
      · exact exists_lexesFrom_cons hc (ih (List.forall_mem_nil _)) (start + utf8Len word)

/-! ### Both descriptions agree -/

/-- Behind the first lexeme, the others fit the description. -/
theorem IsLexing.tail {text : String} {start : Nat} {l : Lexeme} {ls : List Lexeme}
    (h : IsLexing text start (l :: ls)) : IsLexing text l.stop ls where
  start_le := fun m hm => List.rel_of_pairwise_cons h.ordered hm
  ordered := h.ordered.of_cons
  standsIn := fun m hm => h.standsIn m (List.mem_cons_of_mem l hm)
  blank := by
    intro place c hplace hc hout
    have hstart := h.start_le l List.mem_cons_self
    have hlt := (h.standsIn l List.mem_cons_self).nonempty
    refine h.blank place c (by omega) hc fun m hm => ?_
    rcases List.mem_cons.1 hm with rfl | hm
    · omega
    · exact hout m hm

/-- Blanks before the first lexeme are left out. -/
theorem LexesFrom.blanks_append {blanks cs : List Char} {ls : List Lexeme}
    (hblanks : ∀ c ∈ blanks, Text.isBlank c = true) {start : Nat}
    (h : LexesFrom (start + utf8Len blanks) cs ls) : LexesFrom start (blanks ++ cs) ls := by
  induction blanks generalizing start with
  | nil => exact h
  | cons c blanks ih =>
    refine .blank (hblanks c List.mem_cons_self) (ih (fun d hd => ?_) ?_)
    · exact hblanks d (List.mem_cons_of_mem c hd)
    · rwa [Nat.add_assoc, Nat.add_comm c.utf8Size]

/-- Characters that no lexeme covers are blank. -/
theorem IsLexing.forall_blank {text : String} {start : Nat} {ls : List Lexeme}
    (h : IsLexing text start ls) {before gap after : List Char}
    (htext : text.toList = before ++ (gap ++ after)) (hstart : utf8Len before = start)
    (hout : ∀ l ∈ ls, start + utf8Len gap ≤ l.start) :
    ∀ c ∈ gap, Text.isBlank c = true := by
  intro c hc
  obtain ⟨init, rest, rfl⟩ := List.append_of_mem hc
  have hsize := c.utf8Size_pos
  refine h.blank (utf8Len (before ++ init)) c ?_ ⟨before ++ init, rest ++ after, ?_, rfl⟩ ?_
  · rw [utf8Len_append]
    omega
  · rw [htext, List.append_assoc, List.append_assoc, List.cons_append]
  · intro l hl hcover
    have hle := hout l hl
    rw [utf8Len_append, utf8Len_cons] at hle
    rw [utf8Len_append] at hcover
    omega

/-- Lexemes that fit the description are read off the characters. -/
theorem IsLexing.lexesFrom {text : String} {start : Nat} {ls : List Lexeme}
    (h : IsLexing text start ls) {before cs : List Char} (htext : text.toList = before ++ cs)
    (hstart : utf8Len before = start) : LexesFrom start cs ls := by
  induction ls generalizing start before cs with
  | nil =>
    have htext' : text.toList = before ++ (cs ++ []) := by rwa [List.append_nil]
    have hblank := h.forall_blank htext' hstart (List.forall_mem_nil _)
    have hlexes := LexesFrom.blanks_append hblank (.nil (start + utf8Len cs))
    rwa [List.append_nil] at hlexes
  | cons l ls ih =>
    have hl := h.standsIn l List.mem_cons_self
    obtain ⟨init, rest, htext', hinit, hstop, -, hseam⟩ := hl.exists_cut
    have hle := h.start_le l List.mem_cons_self
    -- what lies between the start and the first lexeme is blank
    obtain ⟨gap, rfl, rfl⟩ :=
      Text.exists_gap_of_utf8Len_le (htext.symm.trans htext') (by omega)
    rw [utf8Len_append, hstart] at hinit
    have hblank : ∀ c ∈ gap, Text.isBlank c = true := by
      refine h.forall_blank htext hstart fun m hm => ?_
      rcases List.mem_cons.1 hm with rfl | hm
      · omega
      · have hlt := hl.nonempty
        have hle := h.tail.start_le m hm
        omega
    have hdone : text.toList = before ++ gap ++ l.token.text.toList ++ rest := by
      rw [htext', List.append_assoc (before ++ gap)]
    have hrest : LexesFrom l.stop rest ls := by
      refine ih h.tail hdone ?_
      rw [utf8Len_append, utf8Len_append, utf8Len_toList, hstart, hinit, hstop]
    have hlexes : LexesFrom l.start (l.token.text.toList ++ rest) (⟨_, _, _⟩ :: ls) :=
      .token hl.isWritten hseam (hstop.symm ▸ hrest)
    rw [hstop] at hlexes
    exact LexesFrom.blanks_append hblank (hinit.symm ▸ hlexes)

/-- A blank in front does not change what the lexemes are. -/
theorem IsLexing.blank_cons {text : String} {before cs : List Char} {c : Char} {ls : List Lexeme}
    (htext : text.toList = before ++ c :: cs) (hc : Text.isBlank c = true)
    (h : IsLexing text (utf8Len before + c.utf8Size) ls) : IsLexing text (utf8Len before) ls where
  start_le := fun l hl => (Nat.le_add_right _ _).trans (h.start_le l hl)
  ordered := h.ordered
  standsIn := h.standsIn
  blank := by
    intro place d hplace hd hout
    by_cases hlt : place < utf8Len before + c.utf8Size
    · rwa [hd.eq_of_lt htext hplace hlt]
    · exact h.blank place d (by omega) hd hout

/-- A lexeme in front of others that begin where it ends. -/
theorem IsLexing.cons {text : String} {l : Lexeme} {ls : List Lexeme} (hl : l.StandsIn text)
    (h : IsLexing text l.stop ls) : IsLexing text l.start (l :: ls) where
  start_le := by
    have hlt := hl.nonempty
    intro m hm
    rcases List.mem_cons.1 hm with rfl | hm
    · exact Nat.le_refl _
    · have hle := h.start_le m hm
      omega
  ordered := List.pairwise_cons.2 ⟨h.start_le, h.ordered⟩
  standsIn := List.forall_mem_cons.2 ⟨hl, h.standsIn⟩
  blank := by
    intro place c hplace hc hout
    have hhead := hout l List.mem_cons_self
    exact h.blank place c (by omega) hc fun m hm => hout m (List.mem_cons_of_mem l hm)

/-- Lexemes that are read off the characters fit the description. -/
theorem LexesFrom.isLexing {text : String} {start : Nat} {cs : List Char} {ls : List Lexeme}
    (h : LexesFrom start cs ls) {before : List Char} (htext : text.toList = before ++ cs)
    (hstart : utf8Len before = start) (hseam : Text.Seam before cs) : IsLexing text start ls := by
  induction h generalizing before with
  | nil start =>
    refine ⟨List.forall_mem_nil _, .nil, List.forall_mem_nil _, fun place c hplace hc => ?_⟩
    have hlt := hc.lt_utf8ByteSize
    rw [← utf8Len_toList, htext, List.append_nil] at hlt
    omega
  | @blank start c cs ls hc h ih =>
    subst hstart
    have hdone : text.toList = (before ++ [c]) ++ cs := by
      rw [htext, List.append_assoc, List.singleton_append]
    refine IsLexing.blank_cons htext hc (ih hdone (Text.utf8Len_append_singleton before c) ?_)
    exact Text.seam_append_singleton before (Text.not_isAtomChar_of_isBlank hc) cs
  | @token start t rest ls ht hrest h ih =>
    have hl : Lexeme.StandsIn ⟨t, start, start + t.text.utf8ByteSize⟩ text :=
      Lexeme.standsIn_of_cut ht htext hstart rfl hseam hrest
    have hdone : text.toList = (before ++ t.text.toList) ++ rest := by
      rw [htext, List.append_assoc]
    refine IsLexing.cons hl (ih hdone ?_ ?_)
    · rw [utf8Len_append, utf8Len_toList, hstart]
    · exact hrest.append_left before ht.toList_ne_nil

/-- Both descriptions of the lexemes of a text agree. -/
theorem isLexing_iff_lexesFrom {text : String} {ls : List Lexeme} :
    IsLexing text 0 ls ↔ LexesFrom 0 text.toList ls :=
  ⟨fun h => h.lexesFrom (List.nil_append _).symm rfl,
    fun h => h.isLexing (List.nil_append _).symm rfl (Text.seam_nil_left _)⟩

/-- The lexemes of a text are the only ones that can stand in it with nothing but blanks left. -/
theorem isLexing_iff {text : String} {ls : List Lexeme} :
    IsLexing text 0 ls ↔ ls = lexemes text := by
  have hscan : ∀ ls', LexesFrom 0 text.toList ls' → lexemes text = ls' := fun ls' h =>
    h.scan_eq []
  rw [isLexing_iff_lexesFrom]
  constructor
  · exact fun h => (hscan ls h).symm
  · rintro rfl
    obtain ⟨ls', h⟩ := exists_lexesFrom_append (List.forall_mem_nil _) text.toList 0
    rw [hscan ls' h]
    exact h

/-- Places count bytes, of which a letter can have several. -/
example : lexemes "(λ ñu)" =
    [⟨.lparen, 0, 1⟩, ⟨.atom "λ", 1, 3⟩, ⟨.atom "ñu", 4, 7⟩, ⟨.rparen, 7, 8⟩] :=
  rfl

end AtomLisp
