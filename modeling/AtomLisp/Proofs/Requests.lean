import AtomLisp.Arguments

/-!
# What arguments ask for

Arguments that are no flags are the inputs, in the order in which they are given, and whatever comes
after `--` is an input. A program is run just when nothing else is settled by the arguments and no
flag is given too often; then the flags say how it is run, wherever they stand.
-/

namespace AtomLisp

namespace Argument

/-- The argument does not look like a flag. -/
def IsPlain (argument : String) : Prop :=
  argument.toList.head? ≠ some '-' ∨ argument = "-"

/-- What does not look like a flag is an input. -/
theorem read_of_isPlain {argument : String} (h : IsPlain argument) :
    read argument = [input argument] := by
  rcases h with h | rfl
  · unfold read
    split
    · next heq => simp [heq] at h
    · next heq => simp [heq] at h
    · rfl
  · rfl

theorem readAll_of_ne {argument : String} (h : argument ≠ "--") (arguments : List String) :
    readAll (argument :: arguments) = read argument ++ readAll arguments := by
  rw [readAll]
  exact h

/-- Inputs come first, before whatever the rest of the arguments says. -/
theorem readAll_append_of_isPlain {inputs : List String}
    (h : ∀ argument ∈ inputs, IsPlain argument) (arguments : List String) :
    readAll (inputs ++ arguments) = inputs.map input ++ readAll arguments := by
  induction inputs with
  | nil => rfl
  | cons argument inputs ih =>
    obtain ⟨hargument, hinputs⟩ := List.forall_mem_cons.1 h
    have hne : argument ≠ "--" := by
      rintro rfl
      rcases hargument with h | h
      · exact h rfl
      · exact absurd h (by decide)
    rw [List.cons_append, readAll_of_ne hne, read_of_isPlain hargument, ih hinputs]
    rfl

@[simp]
theorem flag?_eq_some_iff {part : Argument} {asked : Flag} :
    part.flag? = some asked ↔ part = flag asked := by
  cases part <;> simp [flag?]

/-- A program is run if nothing settles otherwise. -/
theorem ne_run_of_settles {part : Argument} {request : Request}
    (h : part.settles? = some request) (options : Options) : request ≠ .run options := by
  rintro rfl
  unfold settles? at h
  split at h <;> cases h

end Argument

open Argument

namespace Request

/-- The first argument that settles what is done settles it. -/
theorem ofParts_of_settles {before : List Argument}
    (hbefore : ∀ part ∈ before, part.settles? = none)
    {part : Argument} {request : Request} (h : part.settles? = some request)
    (rest : List Argument) : ofParts (before ++ part :: rest) = request := by
  have hfirst : (before ++ part :: rest).findSome? settles? = some request := by
    rw [List.findSome?_append, List.findSome?_eq_none_iff.2 hbefore, List.findSome?_cons, h]
    rfl
  rw [ofParts, hfirst]

/-- No flag is given too often just when each occurs at most once or can be repeated. -/
theorem repeated?_eq_none_iff {flags : List Flag} :
    repeated? flags = none ↔ ∀ flag : Flag, flag.isRepeatable = false →
      flags.count flag ≤ 1 := by
  rw [repeated?, List.find?_eq_none]
  constructor
  · intro h flag hflag
    by_cases hmem : flag ∈ flags
    · simpa [hflag] using h flag hmem
    · rw [List.count_eq_zero.2 hmem]
      exact Nat.zero_le 1
  · intro h flag _
    cases hflag : flag.isRepeatable with
    | true => simp
    | false => simpa using h flag hflag

theorem count_flags (parts : List Argument) (asked : Flag) :
    (parts.filterMap flag?).count asked = parts.count (flag asked) := by
  rw [List.count_filterMap, List.count]
  refine List.countP_congr fun part _ => ?_
  simp

theorem contains_flags (parts : List Argument) (asked : Flag) :
    (parts.filterMap flag?).contains asked = parts.contains (flag asked) := by
  rw [Bool.eq_iff_iff]
  simp

/-- **A program is run just when nothing else is asked for.** None of the arguments asks for help or
for the version or is misused, and no flag but the one for more messages is given twice. The library
is left out and the checks are run if the flags for that are among the arguments, and all other
arguments are the inputs, in order. -/
theorem ofParts_eq_run_iff {parts : List Argument} {options : Options} :
    ofParts parts = .run options ↔
      (∀ part ∈ parts, part.settles? = none) ∧
      (∀ asked : Flag, asked.isRepeatable = false → parts.count (flag asked) ≤ 1) ∧
      options =
        { library := !parts.contains (flag .noPrelude)
          selfTest := parts.contains (flag .selfTest)
          inputs := parts.filterMap input? } := by
  have hrepeated : repeated? (parts.filterMap flag?) = none ↔
      ∀ asked : Flag, asked.isRepeatable = false → parts.count (flag asked) ≤ 1 := by
    simp only [repeated?_eq_none_iff, count_flags]
  cases hsettled : parts.findSome? settles? with
  | some request =>
    obtain ⟨part, hpart, hrequest⟩ := List.exists_of_findSome?_eq_some hsettled
    rw [ofParts, hsettled]
    refine ⟨fun h => absurd h (ne_run_of_settles hrequest options), fun h => ?_⟩
    rw [h.1 part hpart] at hrequest
    cases hrequest
  | none =>
    rw [ofParts, hsettled, ← hrepeated, and_iff_right (List.findSome?_eq_none_iff.1 hsettled)]
    simp only [ofFlags, contains_flags]
    cases repeated? (parts.filterMap flag?) with
    | some asked => simp
    | none => simp [eq_comm]

/-- Arguments that do not look like flags are the inputs, and so is all that comes after `--`. -/
theorem ofArguments_of_isPlain {inputs : List String}
    (h : ∀ argument ∈ inputs, IsPlain argument) (rest : List String) :
    ofArguments inputs = .run { inputs } ∧
      ofArguments (inputs ++ "--" :: rest) = .run { inputs := inputs ++ rest } := by
  have hrun : ∀ texts : List String, ofParts (texts.map input) = .run { inputs := texts } := by
    intro texts
    rw [ofParts_eq_run_iff]
    refine ⟨?_, ?_, ?_⟩
    · simp [settles?]
    · intro asked _
      rw [List.count_eq_zero.2 (by simp)]
      exact Nat.zero_le 1
    · simp [List.filterMap_map, Function.comp_def, input?]
  constructor
  · rw [ofArguments, ← List.append_nil inputs, readAll_append_of_isPlain h]
    simpa [readAll] using hrun inputs
  · rw [ofArguments, readAll_append_of_isPlain h, readAll, ← List.map_append]
    exact hrun (inputs ++ rest)

/-- The flag for more messages may be repeated, in one argument as well, and an input may come
before other flags. -/
example : ofArguments ["-vv", "x", "--no-prelude", "-v", "-"] =
    .run { library := false, inputs := ["x", "-"] } := by
  decide

end Request

end AtomLisp
