import AtomLisp.Program
import AtomLisp.Proofs.LenientReading
import AtomLisp.Proofs.Preservation
import AtomLisp.Proofs.TokensOfText

/-!
# Running a program in pieces

A program is the forms that are read from its text, and forms are evaluated one after the other
(`runForms_append`). So a text whose parentheses are all matched can be run first, and what follows
it after a blank can be run in the session that it leaves (`run_in_pieces`).
-/

namespace AtomLisp

/-- A text with matched parentheses is read on its own, whatever follows it after a blank. -/
theorem read_append_of_blanks {first blanks : String} (hmatched : Matched (tokens first))
    (hne : blanks ≠ "") (hblanks : ∀ c ∈ blanks.toList, Text.isBlank c = true)
    (second : String) : read (first ++ blanks ++ second) = read first ++ read second := by
  unfold read
  rw [tokens_append_of_blanks hne hblanks, parse_append hmatched]

/-- Forms that follow others are run if those have a value, which counts only if there are no more
forms. -/
theorem runForms_append (depth : Nat) (xs ys : List Value) (s : ScopeId) :
    runForms depth (xs ++ ys) s =
      runForms depth xs s >>= fun v => if ys.isEmpty then pure v else runForms depth ys s := by
  unfold runForms Evaluator.program
  rw [List.foldlM_append]
  -- the value of the forms before is dropped by the first one of those that follow
  cases ys <;> rfl

/-- **A program can be run in pieces.** Let a text have all its parentheses matched, and let another
text follow it after some blanks. To run the two as one program is to run the first one, and then,
only if that has a value, the second one in the session that the first one has left. If the first
one fails, nothing more is done. The value is that of the second one if there is a form in it, and
that of the first one otherwise. -/
theorem run_in_pieces (depth : Nat) {first blanks : String} (second : String) (s : ScopeId)
    (session : Session) (hmatched : Matched (tokens first)) (hne : blanks ≠ "")
    (hblanks : ∀ c ∈ blanks.toList, Text.isBlank c = true) :
    run depth (first ++ blanks ++ second) s session =
      match run depth first s session with
      | .error stop session => .error stop session
      | .ok v session =>
        match run depth second s session with
        | .error stop session => .error stop session
        | .ok v' session => .ok (if (read second).isEmpty then v else v') session := by
  unfold run
  rw [read_append_of_blanks hmatched hne hblanks, runForms_append]
  simp only [bind, EStateM.bind]
  cases runForms depth (read first) s session with
  | error stop later => rfl
  | ok v later =>
    cases read second with
    | nil => rfl
    | cons x xs =>
      show runForms depth (x :: xs) s later =
        match runForms depth (x :: xs) s later with
        | .error stop last => .error stop last
        | .ok v' last => .ok v' last
      cases runForms depth (x :: xs) s later <;> rfl

/-- A definition and a name are run, and then a text that begins with an atom and leaves a list
open. The atoms on both sides of the line end stay two atoms. -/
theorem run_in_pieces_of_open_list :
    ∃ later last : Session,
      Matched (tokens "(define x 1) x") ∧ "\n" ≠ "" ∧
      (∀ c ∈ "\n".toList, Text.isBlank c = true) ∧
      run 3 "(define x 1) x" 0 (Eval.newRoot.after {}) = .ok (.atom "1") later ∧
      run 3 "y (display x" 0 later = .ok (.atom "1") last ∧
      run 3 ("(define x 1) x" ++ "\n" ++ "y (display x") 0 (Eval.newRoot.after {}) =
        .ok (.atom "1") last ∧
      last.output = "1\n" := by
  have hmatched : Matched (tokens "(define x 1) x") := by decide +kernel
  have hblanks : ∀ c ∈ "\n".toList, Text.isBlank c = true := List.forall_mem_singleton.2 rfl
  have hfirstForms : read "(define x 1) x" =
      [.list [.atom "define", .atom "x", .atom "1"], .atom "x"] := rfl
  have hsecondForms : read "y (display x" = [.atom "y", .list [.atom "display", .atom "x"]] := rfl
  have hfirst : (run 3 "(define x 1) x" 0).outcome (Eval.newRoot.after {}) = .ok (.atom "1") := by
    rw [run, hfirstForms]
    with_unfolding_all rfl
  have hsecond : (run 3 "y (display x" 0).outcome
      ((run 3 "(define x 1) x" 0).after (Eval.newRoot.after {})) = .ok (.atom "1") := by
    rw [run, run, hfirstForms, hsecondForms]
    with_unfolding_all rfl
  refine ⟨_, _, hmatched, by decide, hblanks, Eval.eq_ok_of_outcome hfirst,
    Eval.eq_ok_of_outcome hsecond, ?_, ?_⟩
  · rw [run_in_pieces 3 "y (display x" 0 _ hmatched (by decide) hblanks,
      Eval.eq_ok_of_outcome hfirst]
    simp only [Eval.eq_ok_of_outcome hsecond, hsecondForms, List.isEmpty_cons,
      Bool.false_eq_true, if_false]
  · rw [run, run, hfirstForms, hsecondForms]
    with_unfolding_all rfl

end AtomLisp
