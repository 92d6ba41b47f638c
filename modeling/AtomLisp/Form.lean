import AtomLisp.Fault

/-!
# Forms

A list that is to be evaluated is a form. Which one it is depends on its first element: six atoms
are keywords, and every other list is an application. `Form.ofItems` recognises a form, and refuses
it if it has not the shape of its keyword, before any of its parts is evaluated. Clauses are not a
form of their own: `Form.ofCond` takes them for the nested branches that they stand for.
-/

namespace AtomLisp

/-- The atoms that head a special form. -/
inductive Keyword where
  | lambda
  | define
  | branch
  | quote
  | cond
  | begin
deriving DecidableEq, Repr

namespace Keyword

def all : List Keyword :=
  [lambda, define, branch, quote, cond, begin]

def text : Keyword → String
  | lambda => "lambda"
  | define => "define"
  | branch => "if"
  | quote => "quote"
  | cond => "cond"
  | begin => "begin"

/-- The keyword with the given text, if it is one. -/
def ofText? (text : String) : Option Keyword :=
  all.find? fun keyword => keyword.text == text

/-- The keyword that a list is headed by. A list without one is an application. -/
def heading? : List Value → Option Keyword
  | .atom text :: _ => ofText? text
  | _ => none

/-- A keyword is recognised by its text alone. -/
theorem ofText?_eq_some_iff {t : String} {keyword : Keyword} :
    ofText? t = some keyword ↔ keyword.text = t := by
  constructor
  · intro h
    simpa using List.find?_some h
  · rintro rfl
    cases keyword <;> decide

end Keyword

/-- What a list asks for when it is evaluated. -/
inductive Form where
  | lambda (params : List String) (body : List Value)
  | defineProcedure (name : String) (params : List String) (body : List Value)
  | defineValue (name : String) (expr : Value)
  /-- Evaluate one of two expressions, or at most one, as the predicate says. -/
  | branch (predicate consequent : Value) (alternative : Option Value)
  | quote (datum : Value)
  /-- Evaluate another expression instead. -/
  | expand (expr : Value)
  | sequence (exprs : List Value)
  | application (items : List Value)

namespace Form

/-- The atom that heads the clause taken when no clause before it is. -/
def elseText : String := "else"

/-- The expression that evaluates several expressions in order. -/
def sequenceExpr (exprs : List Value) : Value :=
  .list (.atom Keyword.begin.text :: exprs)

/-- The expression that a list of clauses stands for. `(p1 a...) (p2 b...) (else c...)` stands for
`(if p1 (begin a...) (if p2 (begin b...) (begin c...)))`; clauses that run out without `else`
stand for `#f`. What follows the `else` clause is not looked at. -/
def ofCond : List Value → Except Fault Value
  | [] => .ok (.ofBool false)
  | .list (predicate :: actions) :: clauses =>
    if predicate.isAtomOf elseText then .ok (sequenceExpr actions)
    else do
      let alternative ← ofCond clauses
      return .list [.atom Keyword.branch.text, predicate, sequenceExpr actions, alternative]
  | clause :: _ => .error (.invalidClause clause)

/-- The names of parameters, which must all be atoms. -/
def paramNames (params : List Value) : Except Fault (List String) :=
  params.mapM fun
    | .atom name => .ok name
    | x => .error (.invalidParameter x)

/-- The form with the given keyword and operands; `whole` is the entire list. -/
def ofOperands (whole : Value) (operands : List Value) : Keyword → Except Fault Form
  | .lambda =>
    match operands with
    | .list params :: body => return .lambda (← paramNames params) body
    | _ => .error (.malformed whole .lambda)
  | .define =>
    match operands with
    | .list (.atom name :: params) :: body =>
      return .defineProcedure name (← paramNames params) body
    | .list _ :: _ => .error (.malformed whole .defineProcedure)
    | [.atom name, expr] => .ok (.defineValue name expr)
    | _ => .error (.malformed whole .defineValue)
  | .branch =>
    match operands with
    | [predicate, consequent] => .ok (.branch predicate consequent none)
    | [predicate, consequent, alternative] => .ok (.branch predicate consequent alternative)
    | _ => .error (.malformed whole .branch)
  | .quote =>
    match operands with
    | [datum] => .ok (.quote datum)
    | _ => .ok (.quote (.list operands))
  | .cond => return .expand (← ofCond operands)
  | .begin => .ok (.sequence operands)

/-- The form that a list is. -/
def ofItems (items : List Value) : Except Fault Form :=
  match Keyword.heading? items with
  | some keyword => ofOperands (.list items) items.tail keyword
  | none => .ok (.application items)

end Form

end AtomLisp
