import AtomLisp.ReadLoop
import AtomLisp.Proofs.LexerCalls

/-!
# The lines of a source

Lines are put together to sources until they run out. A source ends with the first line after which
no parenthesis of it is left open, so the sources are groups of lines that follow one another, and
what is left over is a source that never came to its end.

No token goes over the end of a line (`tokens_sourceText`), so each line counts on its own, and one
more line decides whether a source has come to its end (`readOn_cons`). `reading_partitions_lines`
says that the sources and the lines left over are all the lines in order.
-/

namespace AtomLisp

/-! ### Lines and their parentheses -/

/-- The text that the lines make up, each with its line end. -/
def sourceText (lines : List String) : String :=
  String.join (lines.map (· ++ "\n"))

/-- The number of opening parentheses in the lines, less the number of closing ones. -/
def balance (lines : List String) : Int :=
  ((lines.flatMap String.toList).count '(' : Int) - (lines.flatMap String.toList).count ')'

/-- After each of the lines some parenthesis is open. -/
def Unfinished (lines : List String) : Prop :=
  ∀ n, 0 < n → n ≤ lines.length → 0 < balance (lines.take n)

/-- The lines of one source: after the last one no more parentheses are open, and after each one
before it some are. -/
structure IsSource (lines : List String) : Prop where
  ne_nil : lines ≠ []
  balance_nonpos : balance lines ≤ 0
  unfinished : Unfinished lines.dropLast

/-- What the user is asked with for `n` lines of one source. -/
def prompts : Nat → String
  | 0 => ""
  | n + 1 => ">> " ++ String.join (List.replicate n ".. ")

/-- The lexer after it has been given texts, one after the other. -/
def Lexer.feedAll (lexer : Lexer) (texts : List String) : Lexer :=
  texts.foldl Lexer.feed lexer

theorem sourceText_append (lines more : List String) :
    sourceText (lines ++ more) = sourceText lines ++ sourceText more := by
  rw [sourceText, List.map_append, String.join_append, sourceText, sourceText]

theorem sourceText_cons (line : String) (lines : List String) :
    sourceText (line :: lines) = line ++ "\n" ++ sourceText lines := by
  rw [sourceText, List.map_cons, String.join_cons, sourceText]

/-- One more line is put at the end of the text, with its line feed. -/
theorem sourceText_append_singleton (lines : List String) (line : String) :
    sourceText (lines ++ [line]) = sourceText lines ++ line ++ "\n" := by
  rw [sourceText_append, sourceText_cons, String.append_assoc]
  simp [sourceText, String.append_assoc]

theorem unfinished_nil : Unfinished [] :=
  fun _ hpos hle => absurd hle (Nat.not_le_of_lt hpos)

/-- Lines with one more stay unfinished if something is left open. -/
theorem Unfinished.append_singleton {lines : List String} (h : Unfinished lines) {line : String}
    (hline : 0 < balance (lines ++ [line])) : Unfinished (lines ++ [line]) := by
  intro n hpos hle
  rw [List.length_append, List.length_singleton] at hle
  by_cases hn : n ≤ lines.length
  · rw [List.take_append_of_le_length hn]
    exact h n hpos hn
  · have hall : (lines ++ [line]).length ≤ n := by
      rw [List.length_append, List.length_singleton]
      omega
    rwa [List.take_of_length_le hall]

theorem prompts_append_prompt (lines : List String) :
    prompts lines.length ++ prompt (sourceText lines) = prompts (lines.length + 1) := by
  cases lines with
  | nil => rfl
  | cons line lines =>
    -- a line end has been typed in, so this is not the first prompt
    have hne : (sourceText (line :: lines)).isEmpty = false := by
      rw [sourceText_cons]
      simp [String.isEmpty]
    rw [prompt, hne, List.length_cons, prompts, prompts, List.replicate_succ', String.join_append,
      String.append_assoc]
    rfl

/-! ### Tokens line by line -/

/-- No token goes over the end of a line. -/
theorem tokens_sourceText (lines : List String) :
    tokens (sourceText lines) = lines.flatMap fun line => tokens (line ++ "\n") := by
  have hblanks : ∀ c ∈ "\n".toList, Text.isBlank c = true := List.forall_mem_singleton.2 rfl
  induction lines with
  | nil => rfl
  | cons line lines ih =>
    have hline := tokens_append_of_blanks (by decide) hblanks line ""
    have hsource := tokens_append_of_blanks (by decide) hblanks line (sourceText lines)
    rw [String.append_empty] at hline
    rw [sourceText_cons, hsource, List.flatMap_cons, hline, ih]
    exact congrArg (· ++ _) (List.append_nil _).symm

/-- The nesting level of a source is what its lines leave open. -/
theorem nesting_sourceText (lines : List String) :
    nesting (tokens (sourceText lines)) = balance lines := by
  have hcount : ∀ c, c ≠ '\n' →
      (sourceText lines).toList.count c = (lines.flatMap String.toList).count c := by
    intro c hc
    have hend : ("\n".toList).count c = 0 := List.count_eq_zero.2 fun hmem =>
      hc (List.mem_singleton.1 hmem)
    induction lines with
    | nil => rfl
    | cons line lines ih =>
      rw [sourceText_cons, String.toList_append, String.toList_append, List.flatMap_cons,
        List.count_append, List.count_append, List.count_append, hend, ih, Nat.add_zero]
  rw [nesting_tokens, hcount '(' (by decide), hcount ')' (by decide), balance]

/-- The text of the lines is balanced as long as no parenthesis is left open in it. -/
theorem isBalanced_sourceText (lines : List String) :
    isBalanced (sourceText lines) = true ↔ balance lines ≤ 0 := by
  rw [isBalanced_iff, nesting_sourceText]

namespace Lexer

theorem feedAll_cons (lexer : Lexer) (text : String) (texts : List String) :
    lexer.feedAll (text :: texts) = (lexer.feed text).feedAll texts := rfl

/-- A lexer that is given lines one after the other has the tokens of the text they make up, and is
as deep in it. -/
theorem feedAll_lines (lexer : Lexer) (lines : List String) :
    (lexer.feedAll (lines.map (· ++ "\n"))).pending.map Lexeme.token =
        lexer.pending.map Lexeme.token ++ tokens (sourceText lines) ∧
      (lexer.feedAll (lines.map (· ++ "\n"))).depth =
        lexer.depth + nesting (tokens (sourceText lines)) := by
  rw [tokens_sourceText]
  induction lines generalizing lexer with
  | nil => exact ⟨(List.append_nil _).symm, (Int.add_zero _).symm⟩
  | cons line lines ih =>
    obtain ⟨hpending, hdepth⟩ := ih (lexer.feed (line ++ "\n"))
    rw [List.map_cons, feedAll_cons, hpending, hdepth, List.flatMap_cons, nesting_append, feed,
      List.map_append, List.append_assoc, Int.add_assoc]
    exact ⟨rfl, rfl⟩

end Lexer

/-- To split the whole text anew comes to the same decision as to go on with one lexer. -/
theorem isBalanced_feedAll_lines (lines : List String) :
    (Lexer.feedAll {} (lines.map (· ++ "\n"))).isBalanced = isBalanced (sourceText lines) := by
  rw [Lexer.isBalanced, (Lexer.feedAll_lines {} lines).2]
  rfl

/-! ### One source -/

/-- Without more lines, the input ends with one more prompt. -/
theorem readOn_nil (lines : List String) :
    readOn (sourceText lines) (prompts lines.length) [] = .ended (prompts (lines.length + 1)) := by
  rw [readOn, prompts_append_prompt]

/-- Within a source, one more line either ends it or is one of its lines. -/
theorem readOn_cons (lines : List String) (line : String) (rest : List String) :
    readOn (sourceText lines) (prompts lines.length) (line :: rest) =
      if balance (lines ++ [line]) ≤ 0 then
        .source (sourceText (lines ++ [line])) (prompts (lines ++ [line]).length) rest
      else
        readOn (sourceText (lines ++ [line])) (prompts (lines ++ [line]).length) rest := by
  have hlength : (lines ++ [line]).length = lines.length + 1 := by
    rw [List.length_append, List.length_singleton]
  rw [readOn, prompts_append_prompt, ← sourceText_append_singleton, hlength]
  by_cases hbalance : balance (lines ++ [line]) ≤ 0
  · rw [if_pos hbalance]
    exact if_pos ((isBalanced_sourceText _).2 hbalance)
  · rw [if_neg hbalance]
    exact if_neg (mt (isBalanced_sourceText _).1 hbalance)

/-- Within a source, the lines to come begin with the rest of it, or never end it. -/
theorem exists_source_or_unfinished {lines : List String} (h : Unfinished lines)
    (rest : List String) :
    (∃ more left, rest = more ++ left ∧ IsSource (lines ++ more) ∧
      readOn (sourceText lines) (prompts lines.length) rest =
        .source (sourceText (lines ++ more)) (prompts (lines ++ more).length) left) ∨
    Unfinished (lines ++ rest) ∧
      readOn (sourceText lines) (prompts lines.length) rest =
        .ended (prompts ((lines ++ rest).length + 1)) := by
  induction rest generalizing lines with
  | nil =>
    rw [List.append_nil]
    exact .inr ⟨h, readOn_nil lines⟩
  | cons line rest ih =>
    rw [readOn_cons]
    by_cases hbalance : balance (lines ++ [line]) ≤ 0
    · rw [if_pos hbalance]
      refine .inl ⟨[line], rest, rfl, ⟨by simp, hbalance, ?_⟩, rfl⟩
      rwa [List.dropLast_concat]
    · rw [if_neg hbalance]
      have hmore := ih (h.append_singleton (Int.not_le.1 hbalance))
      rw [List.append_assoc, List.singleton_append] at hmore
      refine hmore.imp_left fun ⟨more, left, hrest, hsource, hread⟩ => ?_
      refine ⟨line :: more, left, congrArg (line :: ·) hrest, ?_, ?_⟩
      · rwa [List.append_assoc, List.singleton_append] at hsource
      · rwa [List.append_assoc, List.singleton_append] at hread

/-- From the start of a source, the lines begin with a whole source or are all left over. -/
theorem readBalanced_cases (lines : List String) :
    (∃ group left, lines = group ++ left ∧ IsSource group ∧
      readBalanced lines = .source (sourceText group) (prompts group.length) left) ∨
    Unfinished lines ∧ readBalanced lines = .ended (prompts (lines.length + 1)) :=
  exists_source_or_unfinished unfinished_nil lines

/-- A source takes at least one line. -/
theorem length_lt_of_readBalanced {lines rest : List String} {text shown : String}
    (h : readBalanced lines = .source text shown rest) : rest.length < lines.length := by
  rcases readBalanced_cases lines with ⟨group, left, rfl, hsource, hread⟩ | ⟨-, hread⟩
  · obtain ⟨-, -, rfl⟩ := Reading.source.inj (hread.symm.trans h)
    have hpos := List.length_pos_iff.2 hsource.ne_nil
    rw [List.length_append]
    omega
  · rw [hread] at h
    cases h

/-! ### All sources -/

/-- Read sources one after the other until the input ends. The last reading is the one that failed
for want of lines. -/
def readAll (lines : List String) : List Reading :=
  match _h : readBalanced lines with
  | .source text shown rest => .source text shown rest :: readAll rest
  | .ended shown => [.ended shown]
termination_by lines.length
decreasing_by exact length_lt_of_readBalanced _h

/-- The first source is followed by those in the other lines. -/
theorem readAll_of_source {lines rest : List String} {text shown : String}
    (h : readBalanced lines = .source text shown rest) :
    readAll lines = .source text shown rest :: readAll rest := by
  rw [readAll]
  split
  · next heq =>
    obtain ⟨rfl, rfl, rfl⟩ := Reading.source.inj (heq.symm.trans h)
    rfl
  · next heq => cases heq.symm.trans h

/-- Lines that make up no source are the end of the input. -/
theorem readAll_of_ended {lines : List String} {shown : String}
    (h : readBalanced lines = .ended shown) : readAll lines = [.ended shown] := by
  rw [readAll]
  split
  · next heq => cases heq.symm.trans h
  · next heq =>
    obtain rfl := Reading.ended.inj (heq.symm.trans h)
    rfl

/-- Sources made of these groups of lines, each with the lines that come after it, and then the end
of the input, with the last lines left over. -/
def readingsOf (left : List String) : List (List String) → List Reading
  | [] => [.ended (prompts (left.length + 1))]
  | group :: groups =>
    .source (sourceText group) (prompts group.length) (groups.flatten ++ left) ::
      readingsOf left groups

/-- **Reading partitions the lines.** Read sources from lines until the input ends. The sources are
groups of lines that follow one another; each ends with the first line after which it has no more
opening parentheses than closing ones, is the text of its lines with their line ends, and takes one
prompt of the first kind and then one of the second kind for every other line. In the lines left
over some parenthesis is open after each of them; the reading that fails shows one prompt more than
they are. Nothing is lost and nothing is read twice. To split the whole text anew after each line
comes to the same decision, and to the same tokens, as to give the lines to one lexer. -/
theorem reading_partitions_lines (lines : List String) :
    (∃ groups left, groups.flatten ++ left = lines ∧ (∀ group ∈ groups, IsSource group) ∧
      Unfinished left ∧ readAll lines = readingsOf left groups) ∧
    (Lexer.feedAll {} (lines.map (· ++ "\n"))).isBalanced = isBalanced (sourceText lines) ∧
    (Lexer.feedAll {} (lines.map (· ++ "\n"))).pending.map Lexeme.token =
      tokens (sourceText lines) := by
  refine ⟨?_, isBalanced_feedAll_lines lines, (Lexer.feedAll_lines {} lines).1⟩
  -- each source takes a line at least, so the lines that are left decide the induction
  induction hlength : lines.length using Nat.strongRecOn generalizing lines with
  | _ n ih =>
    subst hlength
    rcases readBalanced_cases lines with
      ⟨group, rest, hlines, hsource, hread⟩ | ⟨hopen, hread⟩
    · have hlt := length_lt_of_readBalanced hread
      obtain ⟨groups, left, hflatten, hgroups, hleft, hrest⟩ := ih rest.length hlt rest rfl
      refine ⟨group :: groups, left, ?_, List.forall_mem_cons.2 ⟨hsource, hgroups⟩, hleft,
        ?_⟩
      · rw [List.flatten_cons, List.append_assoc, hflatten, hlines]
      · rw [readAll_of_source hread, readingsOf, hrest, hflatten]
    · exact ⟨[], lines, rfl, fun group hgroup => absurd hgroup List.not_mem_nil, hopen,
        readAll_of_ended hread⟩

end AtomLisp
