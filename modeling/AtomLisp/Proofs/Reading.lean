import AtomLisp.Reader

/-!
# What reading yields

Reading puts trees together from the atoms among the tokens, and takes the tokens of a tree back to
that tree (`parse_flattenAll`). What holds of the atoms, and of lists of what it holds of, is true
of all that is read (`forall_mem_parse`), so only trees of the given atoms are read.
-/

namespace AtomLisp

namespace Value

/-- The value is built from lists, and from atoms whose texts have the property `P`. -/
inductive TreeOf (P : String → Prop) : Value → Prop where
  | atom {text : String} : P text → TreeOf P (.atom text)
  | list {items : List Value} : (∀ x ∈ items, TreeOf P x) → TreeOf P (.list items)

variable {P : String → Prop}

@[simp] theorem treeOf_atom {text : String} : TreeOf P (.atom text) ↔ P text := by
  constructor
  · rintro ⟨h⟩
    exact h
  · exact .atom

@[simp] theorem treeOf_list {items : List Value} :
    TreeOf P (.list items) ↔ ∀ x ∈ items, TreeOf P x := by
  constructor
  · rintro (_ | ⟨h⟩)
    exact h
  · exact .list

mutual

/-- The tokens that a tree is written with: a list is put between parentheses. -/
def flatten : Value → List Token
  | .atom text => [.atom text]
  | .list items => .lparen :: (flattenAll items ++ [.rparen])
  | .builtin _ => []
  | .closure _ _ => []

/-- The tokens that several trees are written with, one after the other. -/
def flattenAll : List Value → List Token
  | [] => []
  | x :: xs => flatten x ++ flattenAll xs

end

end Value

open Value

namespace Reader

variable {P : Value → Prop} (hlist : ∀ items, (∀ x ∈ items, P x) → P (.list items))
include hlist

/-- What holds of elements holds of the lists that are closed around them. -/
theorem forall_mem_closeAll {outer : List (List Value)} {items : List Value}
    (houter : ∀ enclosing ∈ outer, ∀ x ∈ enclosing, P x) (hitems : ∀ x ∈ items, P x) :
    ∀ x ∈ closeAll outer items, P x := by
  induction outer generalizing items with
  | nil =>
    intro x hx
    exact hitems x (List.mem_reverse.1 hx)
  | cons enclosing outer ih =>
    refine ih (fun e he => houter e (List.mem_cons_of_mem _ he)) fun x hx => ?_
    rcases List.mem_cons.1 hx with rfl | hx
    · exact hlist _ fun y hy => hitems y (List.mem_reverse.1 hy)
    · exact houter enclosing List.mem_cons_self x hx

/-- What holds of the atoms to come and of what is open holds of all that is read. -/
theorem forall_mem_parseFrom {outer : List (List Value)} {items : List Value} {ts : List Token}
    (hatom : ∀ text, .atom text ∈ ts → P (.atom text))
    (houter : ∀ enclosing ∈ outer, ∀ x ∈ enclosing, P x) (hitems : ∀ x ∈ items, P x) :
    ∀ x ∈ parseFrom outer items ts, P x := by
  -- what has been read so far is in `outer` and `items`, so these are what the induction is about
  fun_induction parseFrom outer items ts with
  | case1 outer items => exact forall_mem_closeAll hlist houter hitems
  | case2 outer items ts ih =>
    refine ih (fun text ht => hatom text (List.mem_cons_of_mem _ ht)) (fun e he => ?_)
      fun x hx => absurd hx List.not_mem_nil
    rcases List.mem_cons.1 he with rfl | he
    · exact hitems
    · exact houter e he
  | case3 items ts =>
    intro x hx
    exact hitems x (List.mem_reverse.1 hx)
  | case4 enclosing outer items ts ih =>
    refine ih (fun text ht => hatom text (List.mem_cons_of_mem _ ht))
      (fun e he => houter e (List.mem_cons_of_mem _ he)) fun x hx => ?_
    rcases List.mem_cons.1 hx with rfl | hx
    · exact hlist _ fun y hy => hitems y (List.mem_reverse.1 hy)
    · exact houter enclosing List.mem_cons_self x hx
  | case5 outer items text ts ih =>
    refine ih (fun text ht => hatom text (List.mem_cons_of_mem _ ht)) houter fun x hx => ?_
    rcases List.mem_cons.1 hx with rfl | hx
    · exact hatom text List.mem_cons_self
    · exact hitems x hx

end Reader

/-- A property of the atoms among the tokens that passes from the elements of a list to the list is
true of all that is read. -/
theorem forall_mem_parse {P : Value → Prop} {ts : List Token}
    (hatom : ∀ text, .atom text ∈ ts → P (.atom text))
    (hlist : ∀ items, (∀ x ∈ items, P x) → P (.list items)) : ∀ x ∈ parse ts, P x :=
  Reader.forall_mem_parseFrom hlist hatom (fun _ he => absurd he List.not_mem_nil)
    fun _ hx => absurd hx List.not_mem_nil

/-- What is read from tokens are trees of the atoms among them. -/
theorem treeOf_of_mem_parse {P : String → Prop} {ts : List Token}
    (h : ∀ text, .atom text ∈ ts → P text) : ∀ x ∈ parse ts, TreeOf P x :=
  forall_mem_parse (fun text ht => .atom (h text ht)) fun _ => .list

/-! ### Reading the tokens of a tree -/

namespace Reader

variable {P : String → Prop}

/-- Trees are read one after the other if each of them is. -/
theorem parseFrom_flattenAll {xs : List Value}
    (h : ∀ x ∈ xs, ∀ outer items ts,
      parseFrom outer items (flatten x ++ ts) = parseFrom outer (x :: items) ts)
    (outer : List (List Value)) (items : List Value) (ts : List Token) :
    parseFrom outer items (flattenAll xs ++ ts) = parseFrom outer (xs.reverse ++ items) ts := by
  induction xs generalizing items with
  | nil => rfl
  | cons x xs ih =>
    rw [flattenAll, List.append_assoc, h x List.mem_cons_self,
      ih (fun y hy => h y (List.mem_cons_of_mem _ hy)), List.reverse_cons, List.append_assoc]
    rfl

/-- The tokens of a tree are read as this tree, wherever they stand. -/
theorem parseFrom_flatten {x : Value} (h : TreeOf P x) (outer : List (List Value))
    (items : List Value) (ts : List Token) :
    parseFrom outer items (flatten x ++ ts) = parseFrom outer (x :: items) ts := by
  induction h generalizing outer items ts with
  | @atom text _ =>
    rw [flatten, List.singleton_append, parseFrom]
  | @list xs _ ih =>
    -- the elements are read inside the new list, and the parenthesis after them closes it
    rw [flatten, List.cons_append, List.append_assoc, parseFrom, parseFrom_flattenAll ih,
      List.append_nil, List.singleton_append, parseFrom, List.reverse_reverse]

end Reader

/-- The tokens of several trees are read as these trees. -/
theorem parse_flattenAll {P : String → Prop} {xs : List Value} (h : ∀ x ∈ xs, TreeOf P x) :
    parse (flattenAll xs) = xs := by
  have hread := Reader.parseFrom_flattenAll (fun x hx => Reader.parseFrom_flatten (h x hx)) [] [] []
  rw [List.append_nil, List.append_nil] at hread
  rw [parse, hread, Reader.parseFrom, Reader.closeAll, List.reverse_reverse]

end AtomLisp
