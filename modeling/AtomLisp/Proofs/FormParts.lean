import AtomLisp.Form

/-!
# The parts of a form

Whatever a form evaluates, binds or captures is a part of the list it was recognised from, or has
been put together from parts of that list and the three atoms that the expansion of clauses writes
itself.

`Form.Makes` lists the forms that a keyword makes of its operands, and there are no others
(`Form.makes_of_ofOperands`). Therefore a property that a list has just when its elements have it
holds of all parts of a form (`Form.forall_parts`), and a form that binds a name comes from a list
that mentions `define` (`Form.mentions_define`).
-/

namespace AtomLisp

namespace Value

/-- A property that a list has just when all its elements have it, and that holds of the atoms
which the expansion of clauses writes. -/
structure Hereditary (P : Value → Prop) : Prop where
  list_iff (items : List Value) : P (.list items) ↔ ∀ x ∈ items, P x
  branch : P (.atom Keyword.branch.text)
  begin : P (.atom Keyword.begin.text)
  ofBool : P (.ofBool false)

/-- The atom with the given text occurs in an expression. The body of a closure that sits in the
expression is not looked into. -/
inductive Mentions (text : String) : Value → Prop where
  | atom : Mentions text (.atom text)
  | list {items : List Value} {x : Value} : x ∈ items → Mentions text x →
      Mentions text (.list items)

@[simp] theorem mentions_atom {text other : String} :
    (Value.atom other).Mentions text ↔ other = text := by
  constructor
  · rintro ⟨⟩
    rfl
  · rintro rfl
    exact .atom

@[simp] theorem mentions_list {text : String} {items : List Value} :
    (Value.list items).Mentions text ↔ ∃ x ∈ items, x.Mentions text := by
  constructor
  · rintro ⟨⟩
    exact ⟨_, ‹_›, ‹_›⟩
  · rintro ⟨x, hx, hm⟩
    exact .list hx hm

/-- That `define` is not mentioned is hereditary: no expansion writes this atom. -/
theorem hereditary_not_mentions_define :
    Hereditary fun x => ¬ x.Mentions Keyword.define.text where
  list_iff items := by simp
  branch := by simp [Keyword.text]
  begin := by simp [Keyword.text]
  ofBool := by simp [Value.ofBool, Keyword.text]

end Value

/-- A check that goes on after another one succeeds if both do. -/
theorem Fault.bind_eq_ok_iff {α β : Type} {x : Except Fault α} {f : α → Except Fault β}
    {b : β} : (x >>= f) = .ok b ↔ ∃ a, x = .ok a ∧ f a = .ok b := by
  cases x with
  | error fault => simp [bind, Except.bind]
  | ok a => simp [bind, Except.bind]

namespace Form

/-- The expressions a form consists of. -/
def parts : Form → List Value
  | lambda _ body => body
  | defineProcedure _ _ body => body
  | defineValue _ expr => [expr]
  | branch predicate consequent alternative => predicate :: consequent :: alternative.toList
  | quote datum => [datum]
  | expand expr => [expr]
  | sequence exprs => exprs
  | application items => items

/-- Does the form bind a name in the scope it is evaluated in? -/
def IsDefinition : Form → Prop
  | defineProcedure .. => True
  | defineValue .. => True
  | _ => False

variable {P : Value → Prop}

/-- A sequence has what its expressions have. -/
theorem hereditary_sequenceExpr (hP : Value.Hereditary P) {exprs : List Value}
    (h : ∀ x ∈ exprs, P x) : P (sequenceExpr exprs) := by
  rw [sequenceExpr, hP.list_iff]
  intro x hx
  rcases List.mem_cons.1 hx with rfl | hx
  · exact hP.begin
  · exact h x hx

/-- Clauses stand for an expression that has every hereditary property they have. -/
theorem hereditary_ofCond (hP : Value.Hereditary P) {clauses : List Value} {expr : Value}
    (h : ∀ x ∈ clauses, P x) (heq : ofCond clauses = .ok expr) : P expr := by
  induction clauses generalizing expr with
  | nil =>
    obtain rfl := Except.ok.inj heq
    exact hP.ofBool
  | cons clause clauses ih =>
    match clause, h, heq with
    | .list (predicate :: actions), h, heq =>
      have hclause := (hP.list_iff _).1 (h _ List.mem_cons_self)
      have hpredicate : P predicate := hclause _ List.mem_cons_self
      have hactions : P (sequenceExpr actions) :=
        hereditary_sequenceExpr hP fun x hx => hclause x (List.mem_cons_of_mem _ hx)
      rw [ofCond] at heq
      split at heq
      · obtain rfl := Except.ok.inj heq
        exact hactions
      · obtain ⟨alternative, hrest, heq⟩ := Fault.bind_eq_ok_iff.1 heq
        obtain rfl := Except.ok.inj heq
        have halternative := ih (fun x hx => h x (List.mem_cons_of_mem _ hx)) hrest
        rw [hP.list_iff]
        simp only [List.mem_cons, List.not_mem_nil, or_false, forall_eq_or_imp, forall_eq]
        exact ⟨hP.branch, hpredicate, hactions, halternative⟩
    | .list [], _, heq => simp [ofCond] at heq
    | .atom _, _, heq => simp [ofCond] at heq
    | .builtin _, _, heq => simp [ofCond] at heq
    | .closure _ _, _, heq => simp [ofCond] at heq

/-- The form that a keyword makes of operands that have its shape. -/
inductive Makes : Keyword → List Value → Form → Prop where
  | lambda {params body : List Value} {names : List String} : paramNames params = .ok names →
      Makes .lambda (.list params :: body) (.lambda names body)
  | defineProcedure {name : String} {params body : List Value} {names : List String} :
      paramNames params = .ok names →
      Makes .define (.list (.atom name :: params) :: body) (.defineProcedure name names body)
  | defineValue {name : String} {expr : Value} :
      Makes .define [.atom name, expr] (.defineValue name expr)
  | branch {predicate consequent : Value} :
      Makes .branch [predicate, consequent] (.branch predicate consequent none)
  | branchElse {predicate consequent alternative : Value} :
      Makes .branch [predicate, consequent, alternative]
        (.branch predicate consequent (some alternative))
  | quote {datum : Value} : Makes .quote [datum] (.quote datum)
  | quoteAll {operands : List Value} : operands.length ≠ 1 →
      Makes .quote operands (.quote (.list operands))
  | cond {clauses : List Value} {expr : Value} : ofCond clauses = .ok expr →
      Makes .cond clauses (.expand expr)
  | begin {exprs : List Value} : Makes .begin exprs (.sequence exprs)

/-- No other forms are recognised. -/
theorem makes_of_ofOperands {whole : Value} {operands : List Value} {keyword : Keyword}
    {form : Form} (heq : ofOperands whole operands keyword = .ok form) :
    Makes keyword operands form := by
  cases keyword with
  | lambda =>
    simp only [ofOperands] at heq
    split at heq
    · obtain ⟨names, hnames, heq⟩ := Fault.bind_eq_ok_iff.1 heq
      obtain rfl := Except.ok.inj heq
      exact .lambda hnames
    · cases heq
  | define =>
    simp only [ofOperands] at heq
    split at heq
    · obtain ⟨names, hnames, heq⟩ := Fault.bind_eq_ok_iff.1 heq
      obtain rfl := Except.ok.inj heq
      exact .defineProcedure hnames
    · cases heq
    · obtain rfl := Except.ok.inj heq
      exact .defineValue
    · cases heq
  | branch =>
    simp only [ofOperands] at heq
    split at heq
    · obtain rfl := Except.ok.inj heq
      exact .branch
    · obtain rfl := Except.ok.inj heq
      exact .branchElse
    · cases heq
  | quote =>
    simp only [ofOperands] at heq
    split at heq
    · obtain rfl := Except.ok.inj heq
      exact .quote
    · next hsingle =>
      obtain rfl := Except.ok.inj heq
      refine .quoteAll fun hlength => ?_
      obtain ⟨datum, hdatum⟩ := List.length_eq_one_iff.1 hlength
      exact hsingle datum hdatum
  | cond =>
    obtain ⟨expr, hexpr, heq⟩ := Fault.bind_eq_ok_iff.1 heq
    obtain rfl := Except.ok.inj heq
    exact .cond hexpr
  | begin =>
    obtain rfl := Except.ok.inj heq
    exact .begin

/-- The parts of a form with a keyword come from its operands. What `P` says of operands, `Q` says
of the parts: these are operands, all operands in a list, or what clauses stand for. -/
theorem forall_parts_of_makes {Q : Value → Prop} (hpart : ∀ x, P x → Q x)
    (hdatum : ∀ operands, (∀ x ∈ operands, P x) → Q (.list operands))
    (hcond : ∀ clauses expr, (∀ x ∈ clauses, P x) → ofCond clauses = .ok expr → Q expr)
    {operands : List Value} {keyword : Keyword} {form : Form} (h : ∀ x ∈ operands, P x)
    (hmakes : Makes keyword operands form) : ∀ x ∈ form.parts, Q x := by
  cases hmakes with
  | lambda => exact fun x hx => hpart x (h x (List.mem_cons_of_mem _ hx))
  | defineProcedure => exact fun x hx => hpart x (h x (List.mem_cons_of_mem _ hx))
  | defineValue => exact fun x hx => hpart x (h x (List.mem_cons_of_mem _ hx))
  | branch => exact fun x hx => hpart x (h x hx)
  | branchElse => exact fun x hx => hpart x (h x hx)
  | quote => exact fun x hx => hpart x (h x hx)
  | quoteAll =>
    intro x hx
    obtain rfl := List.mem_singleton.1 hx
    exact hdatum _ h
  | cond hexpr =>
    intro x hx
    obtain rfl := List.mem_singleton.1 hx
    exact hcond _ _ h hexpr
  | begin => exact fun x hx => hpart x (h x hx)

/-- What `P` says of the elements of a list, `Q` says of the parts of the form that the list is. -/
theorem forall_parts_ofItems {Q : Value → Prop} (hpart : ∀ x, P x → Q x)
    (hdatum : ∀ operands, (∀ x ∈ operands, P x) → Q (.list operands))
    (hcond : ∀ clauses expr, (∀ x ∈ clauses, P x) → ofCond clauses = .ok expr → Q expr)
    {items : List Value} {form : Form} (h : ∀ x ∈ items, P x) (heq : ofItems items = .ok form) :
    ∀ x ∈ form.parts, Q x := by
  rw [ofItems] at heq
  split at heq
  · exact forall_parts_of_makes hpart hdatum hcond
      (fun x hx => h x (List.mem_of_mem_tail hx)) (makes_of_ofOperands heq)
  · obtain rfl := Except.ok.inj heq
    exact fun x hx => hpart x (h x hx)

/-- A hereditary property of a list holds of all parts of the form that the list is. -/
theorem forall_parts (hP : Value.Hereditary P) {items : List Value} {form : Form}
    (h : P (.list items)) (heq : ofItems items = .ok form) : ∀ x ∈ form.parts, P x :=
  forall_parts_ofItems (fun _ hx => hx) (fun operands => (hP.list_iff operands).2)
    (fun _ _ hclauses hexpr => hereditary_ofCond hP hclauses hexpr) ((hP.list_iff items).1 h) heq

/-- Of all keywords only `define` makes a form that binds a name. -/
theorem Makes.keyword_of_isDefinition {operands : List Value} {keyword : Keyword} {form : Form}
    (hmakes : Makes keyword operands form) (hdef : form.IsDefinition) : keyword = .define := by
  cases hmakes with
  | defineProcedure => rfl
  | defineValue => rfl
  | _ => exact hdef.elim

/-- Only a list that mentions `define` is a form that binds a name. -/
theorem mentions_define {items : List Value} {form : Form} (heq : ofItems items = .ok form)
    (hdef : form.IsDefinition) : (Value.list items).Mentions Keyword.define.text := by
  rw [ofItems] at heq
  split at heq
  · next keyword hheading =>
    obtain rfl := (makes_of_ofOperands heq).keyword_of_isDefinition hdef
    match items, hheading with
    | .atom text :: _, hheading =>
      have htext : Keyword.define.text = text := Keyword.ofText?_eq_some_iff.1 hheading
      exact .list List.mem_cons_self (htext ▸ .atom)
  · obtain rfl := Except.ok.inj heq
    exact hdef.elim

end Form

end AtomLisp
