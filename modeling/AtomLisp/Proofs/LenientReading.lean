import AtomLisp.Proofs.Parentheses
import AtomLisp.Proofs.Reading

/-!
# Reading completes the parentheses

Reading does not ask for well nested tokens. What it yields is told apart from all other trees by
being written with the completed tokens: those before the first stray closing parenthesis, with
every list that is still open closed at their end (`flattenAll_parse`, `parse_eq_iff`). Tokens that
are put together are read part by part (`parse_append`, `parse_lparen`, `parse_append_rparen`).
`reading_completes_parentheses` says all this in terms of the longest part without a stray
parenthesis.
-/

namespace AtomLisp

open Value

namespace Value

/-- Trees one after the other are written one after the other. -/
@[simp] theorem flattenAll_append (xs ys : List Value) :
    flattenAll (xs ++ ys) = flattenAll xs ++ flattenAll ys := by
  induction xs with
  | nil => rfl
  | cons x xs ih => rw [List.cons_append, flattenAll, flattenAll, ih, List.append_assoc]

/-- The value is built from lists and atoms, whatever the texts of the atoms. -/
abbrev IsTree (x : Value) : Prop :=
  TreeOf (fun _ => True) x

end Value

namespace Reader

/-- The tokens that the lists around the current place begin with, up to this place. The lists are
given as they are kept while reading. -/
def opened : List (List Value) → List Token
  | [] => []
  | enclosing :: outer => opened outer ++ flattenAll enclosing.reverse ++ [.lparen]

/-- A list that is done is written behind what stands before it. -/
theorem flattenAll_reverse_list_cons (items enclosing : List Value) :
    flattenAll (.list items.reverse :: enclosing).reverse =
      flattenAll enclosing.reverse ++ [.lparen] ++ flattenAll items.reverse ++ [.rparen] := by
  simp [flattenAll, flatten]

/-- To close all open lists is to write a parenthesis for each of them. -/
theorem flattenAll_closeAll (outer : List (List Value)) (items : List Value) :
    flattenAll (closeAll outer items) =
      opened outer ++ flattenAll items.reverse ++ List.replicate outer.length .rparen := by
  induction outer generalizing items with
  | nil => simp [closeAll, opened]
  | cons enclosing outer ih =>
    rw [closeAll, ih, flattenAll_reverse_list_cons, opened, List.length_cons, List.replicate_succ]
    simp only [List.append_assoc, List.singleton_append]

/-- What is read on from the current place is written with the tokens read before it, and those to
come, completed within as many lists as enclose the place. -/
theorem flattenAll_parseFrom (outer : List (List Value)) (items : List Value) (ts : List Token) :
    flattenAll (parseFrom outer items ts) =
      opened outer ++ flattenAll items.reverse ++ completed outer.length ts := by
  -- the lists around the place are as many as the parentheses that are open there
  fun_induction parseFrom outer items ts with
  | case1 outer items =>
    rw [flattenAll_closeAll, completed, Int.toNat_natCast]
  | case2 outer items ts ih =>
    have hlevel :
        (outer.length : Int) + Token.lparen.nesting = ((items :: outer).length : Int) := rfl
    rw [ih, completed, hlevel, if_neg (by omega), opened]
    simp [flattenAll]
  | case3 items ts => exact (List.append_nil _).symm
  | case4 enclosing outer items ts ih =>
    have hlevel : ((enclosing :: outer).length : Int) + Token.rparen.nesting = outer.length := by
      simp only [Token.nesting, List.length_cons]
      omega
    rw [ih, completed, hlevel, if_neg (by omega), opened, flattenAll_reverse_list_cons]
    simp only [List.append_assoc, List.singleton_append]
  | case5 outer items text ts ih =>
    rw [ih, completed, Token.add_nesting_atom, if_neg (by omega)]
    simp [flattenAll, flatten]

end Reader

/-! ### What is read, by its tokens -/

theorem isTree_of_mem_parse (ts : List Token) : ∀ x ∈ parse ts, x.IsTree :=
  treeOf_of_mem_parse fun _ _ => trivial

/-- What is read is written with the completed tokens. -/
theorem flattenAll_parse (ts : List Token) : flattenAll (parse ts) = completed 0 ts :=
  Reader.flattenAll_parseFrom [] [] ts

/-- Of all lists of trees, the one that is read is the one written with the completed tokens. -/
theorem parse_eq_iff {ts : List Token} {xs : List Value} :
    parse ts = xs ↔ (∀ x ∈ xs, x.IsTree) ∧ flattenAll xs = completed 0 ts := by
  constructor
  · rintro rfl
    exact ⟨isTree_of_mem_parse ts, flattenAll_parse ts⟩
  · rintro ⟨hxs, htokens⟩
    rw [← parse_flattenAll hxs, htokens, ← flattenAll_parse,
      parse_flattenAll (isTree_of_mem_parse ts)]

/-- Tokens that are completed in the same way are read in the same way. -/
theorem parse_eq_of_completed_eq {ts us : List Token} (h : completed 0 ts = completed 0 us) :
    parse ts = parse us :=
  parse_eq_iff.2 ⟨isTree_of_mem_parse us, (flattenAll_parse us).trans h.symm⟩

/-- Only trees are read back from the tokens that they are written with. -/
theorem parse_flattenAll_eq_iff {xs : List Value} :
    parse (flattenAll xs) = xs ↔ ∀ x ∈ xs, x.IsTree :=
  ⟨fun h => h ▸ isTree_of_mem_parse _, parse_flattenAll⟩

/-! ### Reading tokens that are put together -/

/-- An atom at the beginning is read as it stands. -/
@[simp] theorem parse_atom (text : String) (ts : List Token) :
    parse (.atom text :: ts) = .atom text :: parse ts := by
  refine parse_eq_iff.2 ⟨fun x hx => ?_, ?_⟩
  · rcases List.mem_cons.1 hx with rfl | hx
    · exact .atom trivial
    · exact isTree_of_mem_parse ts x hx
  · rw [flattenAll, flatten, flattenAll_parse]
    rfl

/-- An opening parenthesis begins a list of all that is read from the tokens after it, up to a stray
closing one. Reading goes on after that one. -/
theorem parse_lparen (ts : List Token) :
    parse (.lparen :: ts) = .list (parse ts) :: parse (afterStray 0 ts) := by
  refine parse_eq_iff.2 ⟨fun x hx => ?_, ?_⟩
  · rcases List.mem_cons.1 hx with rfl | hx
    · exact .list (isTree_of_mem_parse ts)
    · exact isTree_of_mem_parse (afterStray 0 ts) x hx
  · have hcompleted : completed 0 (.lparen :: ts) = .lparen :: completed (0 + 1) ts := rfl
    rw [hcompleted, completed_succ (by omega), flattenAll, flatten, flattenAll_parse,
      flattenAll_parse]
    simp

/-- A closing parenthesis at the end changes nothing. -/
theorem parse_append_rparen (ts : List Token) : parse (ts ++ [.rparen]) = parse ts :=
  parse_eq_of_completed_eq (completed_append_rparen (Int.le_refl 0) ts)

/-- Tokens whose parentheses are all matched are read on their own, whatever follows them. -/
theorem parse_append {ts : List Token} (h : Matched ts) (us : List Token) :
    parse (ts ++ us) = parse ts ++ parse us := by
  refine parse_eq_iff.2 ⟨fun x hx => ?_, ?_⟩
  · rcases List.mem_append.1 hx with hx | hx
    · exact isTree_of_mem_parse ts x hx
    · exact isTree_of_mem_parse us x hx
  · have hcompleted := h.noStray.completed_append
    rw [h.closed, Int.add_zero] at hcompleted
    have hts : completed 0 ts = ts := by simpa [completed] using hcompleted []
    rw [flattenAll_append, flattenAll_parse, flattenAll_parse, hcompleted, hts]

/-- Nothing after a stray closing parenthesis is read. -/
theorem parse_append_stray {ts : List Token} (h : Matched ts) (us : List Token) :
    parse (ts ++ .rparen :: us) = parse ts := by
  rw [parse_append h]
  exact List.append_nil _

/-- **Reading completes the parentheses.** Cut the tokens off before the first closing parenthesis
that closes nothing, which leaves the longest part at the beginning without such a one, and let `k`
be the number of parentheses that are open at its end. Of all lists of trees, what is read is the
one that is written with this part and `k` closing parentheses after it. Trees are read back from
the tokens they are written with, and nothing after a stray closing parenthesis is read. -/
theorem reading_completes_parentheses (ts : List Token) :
    (∀ us, us <+: beforeStray 0 ts ↔ us <+: ts ∧ NoStray 0 us) ∧
    (∃ k : Nat, nesting (beforeStray 0 ts) = k ∧
      ∀ xs, parse ts = xs ↔
        (∀ x ∈ xs, x.IsTree) ∧
          flattenAll xs = beforeStray 0 ts ++ List.replicate k .rparen) ∧
    (∀ xs, parse (flattenAll xs) = xs ↔ ∀ x ∈ xs, x.IsTree) ∧
    ∀ us rest, Matched us → parse (us ++ .rparen :: rest) = parse us := by
  refine ⟨fun us => prefix_beforeStray_iff (Int.le_refl 0), ?_, fun xs => parse_flattenAll_eq_iff,
    fun us rest h => parse_append_stray h rest⟩
  have hopen : 0 ≤ 0 + nesting (beforeStray 0 ts) :=
    noStray_beforeStray (Int.le_refl 0) ts _ List.prefix_rfl
  refine ⟨(nesting (beforeStray 0 ts)).toNat, by omega, fun xs => ?_⟩
  rw [parse_eq_iff, completed_eq (Int.le_refl 0), Int.zero_add]

end AtomLisp
