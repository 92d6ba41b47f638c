import AtomLisp.Proofs.Numerals
import Mathlib.Algebra.BigOperators.Group.List.Basic
import Mathlib.Algebra.Ring.Int.Defs
import Mathlib.Data.List.Forall2
import Mathlib.Data.List.Perm.Basic

/-!
# Arithmetic is exact

Arithmetic takes in its arguments from the left. Each of them is read as an integer, and each
partial result is checked against the range. So the first argument that is no integer, or that takes
the result out of the range, decides how an operation fails; if there is none, the result is that of
the unbounded integers.

The two ways in which a calculation ends are told without the operation: `Value.HasTotal` by the
integers that the values stand for, `Value.FirstFailure` by the first of them that stops it.
`Builtin.Agrees.accumulate` shows that checked steps from the left agree with exact ones, from which
the three operations are exact; the quotient has a single case that is out of the range
(`Builtin.inRange_tdiv_iff`). The results are `arithmetic_is_exact` and `integers_are_read_exactly`.
-/

namespace AtomLisp

open Integer

namespace Integer

/-- All partial results from the left are in the range. -/
def Within (total : List Int → Int) (zs : List Int) : Prop :=
  ∀ front, front <+: zs → InRange (total front)

/-- The first integer less all others. Without any integer it is zero. -/
def difference : List Int → Int
  | [] => 0
  | z :: zs => z - zs.sum

/-- The final result is one of the partial results. -/
theorem Within.inRange {total : List Int → Int} {zs : List Int} (h : Within total zs) :
    InRange (total zs) :=
  h zs (List.prefix_refl zs)

theorem within_nil_iff {total : List Int → Int} : Within total [] ↔ InRange (total []) := by
  refine ⟨Within.inRange, fun h front hfront => ?_⟩
  rwa [List.prefix_nil.1 hfront]

/-- The partial results after a first integer are those of the rest from there on. -/
theorem within_cons_iff {total : List Int → Int} {z : Int} {zs : List Int} :
    Within total (z :: zs) ↔
      InRange (total []) ∧ Within (fun front => total (z :: front)) zs := by
  constructor
  · exact fun h => ⟨h [] List.nil_prefix, fun front hfront =>
      h (z :: front) (List.cons_prefix_cons.2 ⟨rfl, hfront⟩)⟩
  · rintro ⟨hnil, hcons⟩ front hfront
    cases front with
    | nil => exact hnil
    | cons y front =>
      obtain ⟨rfl, hrest⟩ := List.cons_prefix_cons.1 hfront
      exact hcons front hrest

/-- Integers taken away one after the other are the difference to all of them. -/
theorem foldl_sub (z : Int) (zs : List Int) : zs.foldl (· - ·) z = difference (z :: zs) := by
  rw [difference]
  induction zs generalizing z with
  | nil => rw [List.foldl_nil, List.sum_nil, Int.sub_zero]
  | cons y zs ih => rw [List.foldl_cons, ih, List.sum_cons, Int.sub_sub]

end Integer

/-! ### How a calculation ends -/

namespace Value

/-- The values stand for these integers, one for each. -/
def Stand (args : List Value) (zs : List Int) : Prop :=
  List.Forall₂ (fun x z => x.toInteger = .ok z) args zs

/-- After the integers `zs` the value `x` stops the calculation of `total`: it is not an atom, or it
is one with a number out of the range, or it takes the partial result out of the range. -/
inductive FailsAfter (total : List Int → Int) (zs : List Int) (x : Value) : Fault → Prop
  | type (hx : x.isAtom = false) : FailsAfter total zs x (.notNumber x)
  | digits (hx : x.toInteger = .error .overflow) : FailsAfter total zs x .overflow
  | result {z : Int} (hx : x.toInteger = .ok z) (hrange : ¬ InRange (total (zs ++ [z]))) :
    FailsAfter total zs x .overflow

/-- All values stand for integers, all partial results are in the range, and `i` is the last. -/
def HasTotal (total : List Int → Int) (args : List Value) (i : Int) : Prop :=
  ∃ zs, Stand args zs ∧ Within total zs ∧ i = total zs

/-- The leftmost value that stops the calculation does so with this fault. -/
def FirstFailure (total : List Int → Int) (args : List Value) (fault : Fault) : Prop :=
  ∃ front x rest zs, args = front ++ x :: rest ∧ Stand front zs ∧ Within total zs ∧
    FailsAfter total zs x fault

/-- What is not an atom is no number. -/
theorem toInteger_of_isAtom_eq_false {x : Value} (h : x.isAtom = false) :
    x.toInteger = .error (.notNumber x) := by
  cases x with
  | atom text => cases h
  | _ => rfl

/-- An atom whose number is out of the range is the only atom without an integer. -/
theorem toInteger_of_isAtom {x : Value} {fault : Fault} (hatom : x.isAtom = true)
    (h : x.toInteger = .error fault) : fault = .overflow := by
  cases x with
  | atom text =>
    rw [toInteger] at h
    split at h
    · cases h
    · exact (Except.error.inj h).symm
  | _ => cases hatom

variable {total : List Int → Int} {zs : List Int} {x : Value} {args : List Value}

/-- Values stand for integers if each of them is read as its integer. -/
theorem stand_iff : Stand args zs ↔ args.map toInteger = zs.map .ok := by
  rw [← List.forall₂_eq_eq_eq, List.forall₂_map_left_iff, List.forall₂_map_right_iff]
  rfl

namespace FailsAfter

/-- An argument that is read stops a calculation by a result out of the range. -/
theorem not_inRange {fault : Fault} (h : FailsAfter total zs x fault) {z : Int}
    (hz : x.toInteger = .ok z) : ¬ InRange (total (zs ++ [z])) := by
  cases h with
  | type hx =>
    rw [toInteger_of_isAtom_eq_false hx] at hz
    cases hz
  | digits hx =>
    rw [hx] at hz
    cases hz
  | result hx hrange =>
    obtain rfl := Except.ok.inj (hx.symm.trans hz)
    exact hrange

/-- There is only one fault with which a value can stop a calculation. -/
theorem unique {fault fault' : Fault} (h : FailsAfter total zs x fault)
    (h' : FailsAfter total zs x fault') : fault = fault' := by
  cases h with
  | type hx =>
    have herror := toInteger_of_isAtom_eq_false hx
    cases h' with
    | type hx' => rfl
    | digits hx' => exact Except.error.inj (herror.symm.trans hx')
    | result hx' _ => exact nomatch herror.symm.trans hx'
  | digits hx =>
    cases h' with
    | type hx' => exact Except.error.inj (hx.symm.trans (toInteger_of_isAtom_eq_false hx'))
    | digits _ => rfl
    | result _ _ => rfl
  | result hx _ =>
    cases h' with
    | type hx' => exact nomatch hx.symm.trans (toInteger_of_isAtom_eq_false hx')
    | digits _ => rfl
    | result _ _ => rfl

/-- A value stops the calculation or takes it one step on. -/
theorem or_inRange (total : List Int → Int) (zs : List Int) (x : Value) :
    (∃ fault, FailsAfter total zs x fault) ∨
      ∃ z, x.toInteger = .ok z ∧ InRange (total (zs ++ [z])) := by
  cases hx : x.toInteger with
  | ok z =>
    by_cases hrange : InRange (total (zs ++ [z]))
    · exact .inr ⟨z, rfl, hrange⟩
    · exact .inl ⟨_, .result hx hrange⟩
  | error fault =>
    cases hatom : x.isAtom with
    | false => exact .inl ⟨_, .type hatom⟩
    | true =>
      obtain rfl := toInteger_of_isAtom hatom hx
      exact .inl ⟨_, .digits hx⟩

/-- To stop after a first integer is to stop the calculation that goes on from there. -/
theorem cons_iff {z : Int} {fault : Fault} : FailsAfter total (z :: zs) x fault ↔
    FailsAfter (fun front => total (z :: front)) zs x fault := by
  constructor
  all_goals
    intro h
    cases h with
    | type hx => exact .type hx
    | digits hx => exact .digits hx
    | result hx hrange => exact .result hx hrange

end FailsAfter

theorem hasTotal_nil_iff {i : Int} :
    HasTotal total [] i ↔ InRange (total []) ∧ i = total [] := by
  constructor
  · rintro ⟨zs, hstand, hwithin, rfl⟩
    obtain rfl := List.forall₂_nil_left_iff.1 hstand
    exact ⟨hwithin.inRange, rfl⟩
  · rintro ⟨hrange, rfl⟩
    exact ⟨[], .nil, within_nil_iff.2 hrange, rfl⟩

/-- A first argument must be read, and the others go on from there. -/
theorem hasTotal_cons_iff {i : Int} : HasTotal total (x :: args) i ↔ InRange (total []) ∧
    ∃ z, x.toInteger = .ok z ∧ HasTotal (fun front => total (z :: front)) args i := by
  constructor
  · rintro ⟨_, hstand, hwithin, rfl⟩
    obtain ⟨z, zs, hz, hzs, rfl⟩ := List.forall₂_cons_left_iff.1 hstand
    obtain ⟨hnil, hcons⟩ := within_cons_iff.1 hwithin
    exact ⟨hnil, z, hz, zs, hzs, hcons, rfl⟩
  · rintro ⟨hnil, z, hz, zs, hzs, hcons, rfl⟩
    exact ⟨z :: zs, .cons hz hzs, within_cons_iff.2 ⟨hnil, hcons⟩, rfl⟩

theorem not_firstFailure_nil {fault : Fault} : ¬ FirstFailure total [] fault := by
  rintro ⟨front, x, rest, zs, hargs, -⟩
  cases front <;> cases hargs

/-- The first failure is that of the first argument, or comes after it. -/
theorem firstFailure_cons_iff {fault : Fault} : FirstFailure total (x :: args) fault ↔
    InRange (total []) ∧ (FailsAfter total [] x fault ∨
      ∃ z, x.toInteger = .ok z ∧
        FirstFailure (fun front => total (z :: front)) args fault) := by
  constructor
  · rintro ⟨front, y, rest, zs, hargs, hstand, hwithin, hfails⟩
    refine ⟨hwithin [] List.nil_prefix, ?_⟩
    cases hstand with
    | nil =>
      obtain ⟨rfl, rfl⟩ := List.cons.inj hargs
      exact .inl hfails
    | cons hz hzs =>
      obtain ⟨rfl, rfl⟩ := List.cons.inj hargs
      exact .inr ⟨_, hz, _, y, rest, _, rfl, hzs, (within_cons_iff.1 hwithin).2,
        FailsAfter.cons_iff.1 hfails⟩
  · rintro ⟨hnil, hfails | ⟨z, hz, front, y, rest, zs, rfl, hstand, hwithin, hfails⟩⟩
    · exact ⟨[], x, args, [], rfl, .nil, within_nil_iff.2 hnil, hfails⟩
    · exact ⟨x :: front, y, rest, z :: zs, rfl, .cons hz hstand,
        within_cons_iff.2 ⟨hnil, hwithin⟩, FailsAfter.cons_iff.2 hfails⟩

end Value

open Value

namespace Builtin

/-! ### Steps from the left -/

/-- The result of a calculation on `args` is `total`, unless an argument stops the calculation. -/
structure Agrees (total : List Int → Int) (args : List Value) (result : Except Fault Int) :
    Prop where
  ok_iff : ∀ i, result = .ok i ↔ HasTotal total args i
  error_iff : ∀ fault, result = .error fault ↔ FirstFailure total args fault

namespace Agrees

variable {total : List Int → Int} {x : Value} {args : List Value} {result : Except Fault Int}

/-- A calculation that has no arguments left is done. -/
theorem nil (hnil : InRange (total [])) : Agrees total [] (.ok (total [])) where
  ok_iff i := by
    rw [hasTotal_nil_iff, Except.ok.injEq]
    exact ⟨fun h => ⟨hnil, h.symm⟩, fun h => h.2.symm⟩
  error_iff fault := ⟨fun h => (nomatch h), fun h => (not_firstFailure_nil h).elim⟩

/-- One step: the first argument stops the calculation, or it goes on with the others. -/
theorem cons (hnil : InRange (total []))
    (hfails : ∀ fault, FailsAfter total [] x fault → result = .error fault)
    (hnext : ∀ z, x.toInteger = .ok z → InRange (total [z]) →
      Agrees (fun front => total (z :: front)) args result) : Agrees total (x :: args) result := by
  obtain ⟨fault, hfault⟩ | ⟨z, hz, hrange⟩ := FailsAfter.or_inRange total [] x
  · have hresult := hfails fault hfault
    have hstuck : ∀ z, x.toInteger = .ok z → ¬ InRange (total [z]) :=
      fun z hz => hfault.not_inRange hz
    constructor
    · intro i
      rw [hresult, hasTotal_cons_iff]
      refine ⟨fun h => (nomatch h), fun ⟨_, z, hz, zs, _, hwithin, _⟩ => ?_⟩
      exact (hstuck z hz (hwithin [] List.nil_prefix)).elim
    · intro fault'
      rw [hresult, firstFailure_cons_iff, Except.error.injEq]
      constructor
      · rintro rfl
        exact ⟨hnil, .inl hfault⟩
      · rintro ⟨-, hfault' | ⟨z, hz, front, y, rest, zs, -, -, hwithin, -⟩⟩
        · exact hfault.unique hfault'
        · exact (hstuck z hz (hwithin [] List.nil_prefix)).elim
  · have hagrees := hnext z hz hrange
    have hsame : ∀ z', x.toInteger = .ok z' → z' = z := fun z' hz' =>
      Except.ok.inj (hz'.symm.trans hz)
    constructor
    · intro i
      rw [hagrees.ok_iff, hasTotal_cons_iff]
      constructor
      · exact fun h => ⟨hnil, z, hz, h⟩
      · rintro ⟨-, z', hz', h⟩
        exact hsame z' hz' ▸ h
    · intro fault
      rw [hagrees.error_iff, firstFailure_cons_iff]
      constructor
      · exact fun h => ⟨hnil, .inr ⟨z, hz, h⟩⟩
      · rintro ⟨-, hfault | ⟨z', hz', h⟩⟩
        · exact (hfault.not_inRange hz hrange).elim
        · exact hsame z' hz' ▸ h

end Agrees

theorem inRange_of_inRange {i : Int} (h : InRange i) : inRange i = .ok i := by
  rw [inRange, checked_of_inRange h]

theorem inRange_of_not_inRange {i : Int} (h : ¬ InRange i) : inRange i = .error .overflow := by
  rw [inRange, checked_of_not_inRange h]

section Step

variable (op : Int → Int → Int) (value : Int) {x : Value} (args : List Value)

/-- Each argument is read, and its result checked, before the next one. -/
theorem accumulate_cons : accumulate op value (x :: args) =
    x.toInteger >>= fun z => inRange (op value z) >>= fun value => accumulate op value args := by
  rw [accumulate, List.foldlM_cons, bind_assoc]
  rfl

theorem accumulate_cons_of_error {fault : Fault} (hx : x.toInteger = .error fault) :
    accumulate op value (x :: args) = .error fault := by
  rw [accumulate_cons, hx]
  rfl

theorem accumulate_cons_of_ok {z : Int} (hz : x.toInteger = .ok z) :
    accumulate op value (x :: args) =
      inRange (op value z) >>= fun value => accumulate op value args := by
  rw [accumulate_cons, hz]
  rfl

end Step

/-- Checked steps from the left agree with the same steps on unbounded integers. -/
theorem Agrees.accumulate (op : Int → Int → Int) {value : Int} (hvalue : InRange value)
    (args : List Value) : Agrees (·.foldl op value) args (Builtin.accumulate op value args) := by
  induction args generalizing value with
  | nil => exact .nil hvalue
  | cons x args ih =>
    refine .cons hvalue (fun fault hfault => ?_) fun z hz hrange => ?_
    · cases hfault with
      | type hx => exact accumulate_cons_of_error op value args (toInteger_of_isAtom_eq_false hx)
      | digits hx => exact accumulate_cons_of_error op value args hx
      | @result z hz hrange =>
        have hstep : inRange (op value z) = .error .overflow := inRange_of_not_inRange hrange
        rw [accumulate_cons_of_ok op value args hz, hstep]
        rfl
    · have hstep : inRange (op value z) = .ok (op value z) := inRange_of_inRange hrange
      rw [accumulate_cons_of_ok op value args hz, hstep]
      exact ih hrange

theorem Agrees.sum (args : List Value) : Agrees List.sum args (Builtin.sum args) := by
  have htotal : (·.foldl (· + ·) 0) = (List.sum : List Int → Int) :=
    funext fun zs => List.sum_eq_foldl.symm
  exact htotal ▸ .accumulate (· + ·) (by decide) args

theorem Agrees.product (args : List Value) : Agrees List.prod args (Builtin.product args) := by
  have htotal : (·.foldl (· * ·) 1) = (List.prod : List Int → Int) :=
    funext fun zs => List.prod_eq_foldl.symm
  exact htotal ▸ .accumulate (· * ·) (by decide) args

theorem Agrees.difference (args : List Value) :
    Agrees Integer.difference args (Builtin.difference args) := by
  have hnil : InRange (Integer.difference []) := by decide
  cases args with
  | nil => exact .nil hnil
  | cons x args =>
    rw [Builtin.difference]
    refine .cons hnil (fun fault hfault => ?_) fun z hz hrange => ?_
    · cases hfault with
      | type hx => rw [toInteger_of_isAtom_eq_false hx]; rfl
      | digits hx => rw [hx]; rfl
      | @result z hz hrange =>
        -- the first integer is the first partial result, so it cannot be out of the range
        have hfirst : Integer.difference [z] = z := Int.sub_zero z
        exact (hrange (hfirst.symm ▸ inRange_of_toInteger hz)).elim
    · have htotal : (fun zs => Integer.difference (z :: zs)) = (·.foldl (· - ·) z) :=
        funext fun zs => (foldl_sub z zs).symm
      rw [hz, htotal]
      exact .accumulate (· - ·) (inRange_of_toInteger hz) args

/-! ### The operations -/

/-- The outcome of an operation with this result. -/
def settle : Except Fault Int → Except Stop Value
  | .ok i => .ok (.ofInt i)
  | .error fault => .error (.error { fault })

/-- An event before a result does not change the outcome. -/
theorem outcome_settled (event : Event) (result : Except Fault Int) (session : Session) :
    (Eval.emit event >>= fun _ => do return .ofInt (← Eval.ofExcept result)).outcome session =
      settle result := by
  cases result <;> rfl

/-- The operation computes `total` of the integers that its arguments stand for. It fails for the
leftmost argument that stops the calculation. -/
structure IsExact (op : Builtin) (total : List Int → Int) : Prop where
  ok_iff : ∀ args session v, (op.call args).outcome session = .ok v ↔
    ∃ zs, Stand args zs ∧ Within total zs ∧ v = .ofInt (total zs)
  error_iff : ∀ args session stop, (op.call args).outcome session = .error stop ↔
    ∃ front x rest zs fault, args = front ++ x :: rest ∧ Stand front zs ∧ Within total zs ∧
      FailsAfter total zs x fault ∧ stop = .error { fault }

/-- An operation is exact if it settles for what agrees with the integers. -/
theorem isExact_of_agrees {op : Builtin} {total : List Int → Int}
    {f : List Value → Except Fault Int} (hagrees : ∀ args, Agrees total args (f args))
    (hcall : ∀ args session, (op.call args).outcome session = settle (f args)) :
    op.IsExact total := by
  constructor
  · intro args session v
    rw [hcall]
    constructor
    · intro h
      cases hresult : f args with
      | ok i =>
        obtain ⟨zs, hstand, hwithin, rfl⟩ := ((hagrees args).ok_iff i).1 hresult
        rw [hresult] at h
        exact ⟨zs, hstand, hwithin, (Except.ok.inj h).symm⟩
      | error fault =>
        rw [hresult] at h
        cases h
    · rintro ⟨zs, hstand, hwithin, rfl⟩
      rw [((hagrees args).ok_iff _).2 ⟨zs, hstand, hwithin, rfl⟩, settle]
  · intro args session stop
    rw [hcall]
    constructor
    · intro h
      cases hresult : f args with
      | ok i =>
        rw [hresult] at h
        cases h
      | error fault =>
        obtain ⟨front, x, rest, zs, hargs, hstand, hwithin, hfails⟩ :=
          ((hagrees args).error_iff fault).1 hresult
        rw [hresult] at h
        exact ⟨front, x, rest, zs, fault, hargs, hstand, hwithin, hfails,
          (Except.error.inj h).symm⟩
    · rintro ⟨front, x, rest, zs, fault, hargs, hstand, hwithin, hfails, rfl⟩
      have hfirst : FirstFailure total args fault :=
        ⟨front, x, rest, zs, hargs, hstand, hwithin, hfails⟩
      rw [((hagrees args).error_iff fault).2 hfirst, settle]

theorem isExact_add : add.IsExact List.sum :=
  isExact_of_agrees Agrees.sum fun _ _ => outcome_settled _ _ _

theorem isExact_multiply : multiply.IsExact List.prod :=
  isExact_of_agrees Agrees.product fun _ _ => outcome_settled _ _ _

theorem isExact_subtract : subtract.IsExact Integer.difference :=
  isExact_of_agrees Agrees.difference fun _ _ => outcome_settled _ _ _

/-- Where the order of the integers does not matter, two orders of the arguments that both have a
result have the same one. -/
theorem IsExact.value_eq_of_perm {op : Builtin} {total : List Int → Int} (h : op.IsExact total)
    (htotal : ∀ {zs zs' : List Int}, zs.Perm zs' → total zs = total zs')
    {args args' : List Value} (hargs : args.Perm args') {session session' : Session} {v v' : Value}
    (hv : (op.call args).outcome session = .ok v)
    (hv' : (op.call args').outcome session' = .ok v') : v = v' := by
  obtain ⟨zs, hstand, -, rfl⟩ := (h.ok_iff _ _ _).1 hv
  obtain ⟨zs', hstand', -, rfl⟩ := (h.ok_iff _ _ _).1 hv'
  have hread : (zs.map .ok : List (Except Fault Int)).Perm (zs'.map .ok) := by
    rw [← stand_iff.1 hstand, ← stand_iff.1 hstand']
    exact hargs.map toInteger
  have hzs : zs.Perm zs' := (List.map_perm_map_iff fun _ _ => Except.ok.inj).1 hread
  rw [htotal hzs]

/-! ### Two atoms in either order -/

/-- Two arguments after a first value that changes nothing are combined with each other only. -/
theorem accumulate_pair {op : Int → Int → Int} {value : Int} (hop : ∀ z, op value z = z)
    (x y : Value) : accumulate op value [x, y] =
      x.toInteger >>= fun z => y.toInteger >>= fun z' => inRange (op z z') := by
  cases hx : x.toInteger with
  | error fault => exact accumulate_cons_of_error op value [y] hx
  | ok z =>
    have hstep : inRange (op value z) = .ok z := by
      rw [hop, inRange_of_inRange (inRange_of_toInteger hx)]
    rw [accumulate_cons_of_ok op value [y] hx, hstep]
    show accumulate op z [y] = _
    rw [accumulate_cons]
    exact congrArg _ (funext fun z' => bind_pure (inRange (op z z')))

/-- Atoms fail in one way only, so their order does not matter for failures either. -/
theorem accumulate_comm {op : Int → Int → Int} {value : Int} (hop : ∀ z, op value z = z)
    (hcomm : ∀ z z', op z z' = op z' z) (a b : String) :
    accumulate op value [.atom a, .atom b] = accumulate op value [.atom b, .atom a] := by
  rw [accumulate_pair hop, accumulate_pair hop]
  cases ha : (Value.atom a).toInteger with
  | ok z =>
    cases hb : (Value.atom b).toInteger with
    | ok z' => exact congrArg inRange (hcomm z z')
    | error fault => rfl
  | error fault =>
    obtain rfl := toInteger_of_isAtom rfl ha
    cases hb : (Value.atom b).toInteger with
    | ok z' => rfl
    | error fault' =>
      obtain rfl := toInteger_of_isAtom rfl hb
      rfl

/-- Two atoms are added in either order, with the same outcome and events. -/
theorem call_add_comm (a b : String) :
    add.call [.atom a, .atom b] = add.call [.atom b, .atom a] := by
  unfold call sum
  rw [accumulate_comm Int.zero_add Int.add_comm a b]
  rfl

theorem call_multiply_comm (a b : String) :
    multiply.call [.atom a, .atom b] = multiply.call [.atom b, .atom a] := by
  unfold call product
  rw [accumulate_comm Int.one_mul Int.mul_comm a b]
  rfl

/-! ### Division -/

/-- Only one quotient of integers in the range is not in the range. -/
theorem inRange_tdiv_iff {a b : Int} (ha : InRange a) (hb : b ≠ 0) :
    InRange (a.tdiv b) ↔ ¬ (a = -9223372036854775808 ∧ b = -1) := by
  unfold InRange at *
  constructor
  · rintro ⟨-, hle⟩ ⟨rfl, rfl⟩
    revert hle
    decide
  · intro hne
    have hquotient : (a.tdiv b).natAbs = a.natAbs / b.natAbs := Int.natAbs_tdiv a b
    obtain rfl | rfl | htwo : b = 1 ∨ b = -1 ∨ 2 ≤ b.natAbs := by omega
    · rwa [Int.tdiv_one]
    · rw [Int.tdiv_neg, Int.tdiv_one]
      omega
    · have hhalf : a.natAbs / b.natAbs ≤ a.natAbs / 2 := Nat.div_le_div_left htwo (by decide)
      omega

/-- The remainder is smaller than the divisor, and on the same side of zero as the dividend. -/
theorem tdiv_spec (a : Int) {b : Int} (hb : b ≠ 0) :
    ∃ r, a = b * a.tdiv b + r ∧ r.natAbs < b.natAbs ∧ (r = 0 ∨ r.sign = a.sign) := by
  refine ⟨a.tmod b, (Int.mul_tdiv_add_tmod a b).symm, ?_, ?_⟩
  · rw [Int.natAbs_tmod]
    exact Nat.mod_lt _ (Int.natAbs_pos.2 hb)
  · have hsign := Int.sign_tmod a b
    by_cases hdvd : b ∣ a
    · exact .inl (Int.tmod_eq_zero_of_dvd hdvd)
    · rw [if_neg hdvd] at hsign
      exact .inr hsign

theorem outcome_divide (x y : Value) (session : Session) :
    (divide.call [x, y]).outcome session = settle (quotient x y) :=
  outcome_settled _ _ _

/-- Division refuses any other number of arguments than two. -/
theorem outcome_divide_of_length_ne {args : List Value} (h : args.length ≠ 2)
    (session : Session) : (divide.call args).outcome session =
      .error (.error { fault := .builtinArity divide 2 args.length }) := by
  match args, h with
  | [], _ => rfl
  | [_], _ => rfl
  | [_, _], h => exact absurd rfl h
  | _ :: _ :: _ :: _, _ => rfl

/-- A dividend that is no integer is the first to be reported. -/
theorem outcome_divide_of_error_left {x : Value} {fault : Fault} (hx : x.toInteger = .error fault)
    (y : Value) (session : Session) :
    (divide.call [x, y]).outcome session = .error (.error { fault }) := by
  rw [outcome_divide, quotient, hx]
  rfl

/-- A divisor that is no integer is reported if the dividend is one. -/
theorem outcome_divide_of_error_right {x y : Value} {a : Int} {fault : Fault}
    (hx : x.toInteger = .ok a) (hy : y.toInteger = .error fault) (session : Session) :
    (divide.call [x, y]).outcome session = .error (.error { fault }) := by
  rw [outcome_divide, quotient, hx, hy]
  rfl

/-- The quotient of two integers is the one rounded towards zero, unless they have none. -/
theorem quotient_of_ok {x y : Value} {a b : Int} (hx : x.toInteger = .ok a)
    (hy : y.toInteger = .ok b) :
    quotient x y = if b = 0 then .error .divisionByZero else inRange (a.tdiv b) := by
  rw [quotient, hx, hy]
  rfl

theorem inRange_of_quotient {x y : Value} {i : Int} (h : quotient x y = .ok i) : InRange i := by
  cases hx : x.toInteger with
  | error fault =>
    rw [quotient, hx] at h
    cases h
  | ok a =>
    cases hy : y.toInteger with
    | error fault =>
      rw [quotient, hx, hy] at h
      cases h
    | ok b =>
      rw [quotient_of_ok hx hy] at h
      split at h
      · cases h
      · by_cases hrange : InRange (a.tdiv b)
        · rw [inRange_of_inRange hrange] at h
          exact Except.ok.inj h ▸ hrange
        · rw [inRange_of_not_inRange hrange] at h
          cases h

/-- The outcome of a division is that of the integers `a` and `b`: it fails for the divisor zero
and for the one quotient that is out of the range, and else it is the quotient rounded towards
zero, which leaves a remainder on the side of the dividend. -/
structure IsQuotient (a b : Int) (outcome : Except Stop Value) : Prop where
  divisionByZero_iff : outcome = .error (.error { fault := .divisionByZero }) ↔ b = 0
  overflow_iff : outcome = .error (.error { fault := .overflow }) ↔
    a = -9223372036854775808 ∧ b = -1
  exact_of_ne : b ≠ 0 → ¬ (a = -9223372036854775808 ∧ b = -1) → ∃ q r,
    outcome = .ok (.ofInt q) ∧ a = b * q + r ∧ r.natAbs < b.natAbs ∧
      (r = 0 ∨ r.sign = a.sign)

/-- The quotient of two integers has one of the three outcomes that there are. -/
theorem isQuotient_of_ok {x y : Value} {a b : Int} (hx : x.toInteger = .ok a)
    (hy : y.toInteger = .ok b) (session : Session) :
    IsQuotient a b ((divide.call [x, y]).outcome session) := by
  rw [outcome_divide, quotient_of_ok hx hy]
  by_cases hzero : b = 0
  · rw [if_pos hzero, settle]
    exact ⟨⟨fun _ => hzero, fun _ => rfl⟩, ⟨nofun, fun h => by omega⟩,
      fun hne => absurd hzero hne⟩
  · rw [if_neg hzero]
    have hrange := inRange_tdiv_iff (inRange_of_toInteger hx) hzero
    by_cases hleast : a = -9223372036854775808 ∧ b = -1
    · rw [inRange_of_not_inRange fun h => hrange.1 h hleast, settle]
      exact ⟨⟨nofun, fun h => absurd h hzero⟩, ⟨fun _ => hleast, fun _ => rfl⟩,
        fun _ hne => absurd hleast hne⟩
    · rw [inRange_of_inRange (hrange.2 hleast), settle]
      obtain ⟨r, hr⟩ := tdiv_spec a hzero
      exact ⟨⟨nofun, fun h => absurd h hzero⟩,
        ⟨nofun, fun h => absurd h hleast⟩, fun _ _ => ⟨_, r, rfl, hr⟩⟩

end Builtin

open Builtin

/-! ### Arithmetic -/

/-- The values of arithmetic are the texts of integers in the range. -/
theorem Builtin.exists_ofInt_of_call {op : Builtin} (hop : op ∈ [add, subtract, multiply, divide])
    {args : List Value} {session : Session} {v : Value}
    (h : (op.call args).outcome session = .ok v) : ∃ i, InRange i ∧ v = .ofInt i := by
  have hexact : ∀ total, op.IsExact total → ∃ i, InRange i ∧ v = .ofInt i := by
    intro total hop
    obtain ⟨zs, -, hwithin, rfl⟩ := (hop.ok_iff args session v).1 h
    exact ⟨total zs, hwithin.inRange, rfl⟩
  simp only [List.mem_cons, List.not_mem_nil, or_false] at hop
  obtain rfl | rfl | rfl | rfl := hop
  · exact hexact _ isExact_add
  · exact hexact _ isExact_subtract
  · exact hexact _ isExact_multiply
  · by_cases hlength : args.length = 2
    · obtain ⟨x, y, rfl⟩ := List.length_eq_two.1 hlength
      rw [outcome_divide] at h
      cases hquotient : quotient x y with
      | ok i =>
        rw [hquotient] at h
        exact ⟨i, inRange_of_quotient hquotient, (Except.ok.inj h).symm⟩
      | error fault =>
        rw [hquotient] at h
        cases h
    · rw [outcome_divide_of_length_ne hlength] at h
      cases h

/-- Sums, products and differences are those of the unbounded integers, if every argument stands for
an integer and every partial result from the left is in the range; else the leftmost argument with
which this ends decides how the operation fails. Two orders of the arguments of a sum or a product
that both have a result have the same one, and two atoms may trade places altogether. A quotient is
rounded towards zero; its arguments are read from left to right, and after that it fails for the
divisor zero and for the least integer by `-1`. -/
theorem arithmetic_is_exact :
    add.IsExact List.sum ∧ multiply.IsExact List.prod ∧ subtract.IsExact Integer.difference ∧
    (∀ op ∈ [add, multiply], ∀ args args' session session' v v', args.Perm args' →
      (op.call args).outcome session = .ok v → (op.call args').outcome session' = .ok v' →
      v = v') ∧
    (∀ op ∈ [add, multiply], ∀ a b,
      op.call [.atom a, .atom b] = op.call [.atom b, .atom a]) ∧
    (∀ args session, args.length ≠ 2 → (divide.call args).outcome session =
      .error (.error { fault := .builtinArity divide 2 args.length })) ∧
    ∀ x y session,
      (∀ fault, x.toInteger = .error fault →
        (divide.call [x, y]).outcome session = .error (.error { fault })) ∧
      (∀ a fault, x.toInteger = .ok a → y.toInteger = .error fault →
        (divide.call [x, y]).outcome session = .error (.error { fault })) ∧
      ∀ a b, x.toInteger = .ok a → y.toInteger = .ok b →
        IsQuotient a b ((divide.call [x, y]).outcome session) := by
  refine ⟨isExact_add, isExact_multiply, isExact_subtract, ?_, ?_,
    fun args session hlength => outcome_divide_of_length_ne hlength session,
    fun x y session => ⟨fun fault hx => outcome_divide_of_error_left hx y session,
      fun a fault hx hy => outcome_divide_of_error_right hx hy session,
      fun a b hx hy => isQuotient_of_ok hx hy session⟩⟩
  · intro op hop args args' session session' v v' hargs hv hv'
    simp only [List.mem_cons, List.not_mem_nil, or_false] at hop
    obtain rfl | rfl := hop
    · exact isExact_add.value_eq_of_perm List.Perm.sum_eq hargs hv hv'
    · exact isExact_multiply.value_eq_of_perm List.Perm.prod_eq hargs hv hv'
  · intro op hop a b
    simp only [List.mem_cons, List.not_mem_nil, or_false] at hop
    obtain rfl | rfl := hop
    · exact call_add_comm a b
    · exact call_multiply_comm a b

/-- The sum of the greatest integer, `1` and `-1` is in the range, but the sum of the first two is
not. The least integer has no quotient by `-1`. -/
theorem arithmetic_at_ends_of_range :
    (add.call [.atom "9223372036854775807", .atom "1", .atom "-1"]).outcome {} =
      .error (.error { fault := .overflow }) ∧
    (divide.call [.atom "-9223372036854775808", .atom "-1"]).outcome {} =
      .error (.error { fault := .overflow }) := by
  obtain ⟨hadd, -, -, -, -, -, hdivide⟩ := arithmetic_is_exact
  have hgreatest : (Value.atom "9223372036854775807").toInteger = .ok 9223372036854775807 := rfl
  have hleast : (Value.atom "-9223372036854775808").toInteger = .ok (-9223372036854775808) := rfl
  have hone : (Value.atom "1").toInteger = .ok 1 := rfl
  have hminus : (Value.atom "-1").toInteger = .ok (-1) := rfl
  have hwithin : Within List.sum [9223372036854775807] :=
    within_cons_iff.2 ⟨by decide, within_nil_iff.2 (by decide)⟩
  constructor
  · exact (hadd.error_iff _ _ _).2 ⟨[.atom "9223372036854775807"], .atom "1", [.atom "-1"],
      [9223372036854775807], .overflow, rfl, .cons hgreatest .nil, hwithin,
      .result hone (by decide), rfl⟩
  · exact ((hdivide _ _ {}).2.2 _ _ hleast hminus).overflow_iff.2 ⟨rfl, rfl⟩

/-- Every text is read as the value of its numeral if that is in the range, and is out of the range
else, whatever follows the digits. An integer of the range is read back from the atom made from it.
So two values of arithmetic are equal exactly if they stand for the same integer. -/
theorem integers_are_read_exactly :
    (∀ text, Nonempty (Numeral text) ∧ ∀ numeral : Numeral text, (Value.atom text).toInteger =
      if InRange numeral.value then .ok numeral.value else .error .overflow) ∧
    (∀ (text text' : String) (numeral : Numeral text) (numeral' : Numeral text'),
      numeral.sign = numeral'.sign → numeral.digits = numeral'.digits →
      (Value.atom text).toInteger = (Value.atom text').toInteger) ∧
    (∀ i, InRange i → (Value.ofInt i).toInteger = .ok i) ∧
    ∀ op ∈ [add, subtract, multiply, divide], ∀ op' ∈ [add, subtract, multiply, divide],
      ∀ args args' session session' v v', (op.call args).outcome session = .ok v →
        (op'.call args').outcome session' = .ok v' →
        ∃ i j, v.toInteger = .ok i ∧ v'.toInteger = .ok j ∧
          ∀ later, (isEq.call [v, v']).outcome later = .ok (.ofBool (decide (i = j))) := by
  refine ⟨fun text => ⟨nonempty_numeral text, toInteger_atom⟩, ?_,
    fun i hi => toInteger_ofInt hi, ?_⟩
  · intro text text' numeral numeral' hsign hdigits
    have hvalue : numeral.value = numeral'.value := by
      rw [Numeral.value, Numeral.value, hsign, hdigits]
    rw [toInteger_atom numeral, toInteger_atom numeral', hvalue]
  · intro op hop op' hop' args args' session session' v v' hv hv'
    obtain ⟨i, hi, rfl⟩ := exists_ofInt_of_call hop hv
    obtain ⟨j, hj, rfl⟩ := exists_ofInt_of_call hop' hv'
    refine ⟨i, j, toInteger_ofInt hi, toInteger_ofInt hj, fun later => ?_⟩
    rw [← ofInt_beq_ofInt hi hj]
    rfl

/-- Blanks in front and a letter at the end do not matter, and leading zeros are read like any other
digits. -/
theorem integers_of_padded_text :
    InRange (-42) ∧ (Value.atom " -0042x").toInteger = (Value.atom "-0042").toInteger ∧
      (Value.atom " -0042x").toInteger = .ok (-42) ∧
      (Value.ofInt (-42)).toInteger = .ok (-42) := by
  obtain ⟨hread, hsame, hwritten, -⟩ := integers_are_read_exactly
  have hrange : InRange (-42) := by decide
  have hsign : ∀ c, some '-' = some c → Text.isBlank c = false := by
    rintro _ ⟨⟩
    decide
  have hletter : ∀ c, some 'x' = some c → c.isDigit = false := by
    rintro _ ⟨⟩
    decide
  let padded : Numeral " -0042x" :=
    { blanks := [' ']
      sign := .minus
      digits := ['0', '0', '4', '2']
      rest := ['x']
      text_eq := rfl
      isBlank := List.all_eq_true.1 (by decide)
      isDigit := List.all_eq_true.1 (by decide)
      blanks_maximal := hsign
      sign_maximal := nofun
      digits_maximal := hletter }
  let plain : Numeral "-0042" :=
    { padded with
      blanks := []
      rest := []
      text_eq := rfl
      isBlank := nofun
      blanks_maximal := hsign
      digits_maximal := nofun }
  have hvalue : padded.value = -42 := rfl
  refine ⟨hrange, hsame _ _ padded plain rfl rfl, ?_, hwritten _ hrange⟩
  rw [(hread _).2 padded, hvalue, if_pos hrange]

end AtomLisp
