import AtomLisp.Builtin

/-!
# Events

What happens during evaluation, for whoever wants to follow it: each kind of event has a level, a
title and fields, by which it is shown.
-/

namespace AtomLisp

/-- Something that happens during evaluation. -/
inductive Event where
  /-- A form of a program is about to be evaluated; its short text is `form`. -/
  | topLevelForm (form : String)
  /-- A closure has been given the right number of arguments. -/
  | applyClosure (name : Option String) (count : Nat)
  /-- A builtin operation has been given arguments that it has not looked at yet. -/
  | callBuiltin (op : Builtin) (count : Nat)
  /-- The program reports an error of its own. -/
  | userError (message : String)
deriving DecidableEq, Repr

namespace Event

/-- How much detail a reader must ask for to see an event. -/
inductive Level where
  | debug
  | trace
deriving DecidableEq, Repr

/-- The content of a field: a text or a count. -/
inductive Field where
  | text (s : String)
  | count (n : Nat)
deriving DecidableEq, Repr

/-- The level of detail that an event belongs to. -/
def level : Event → Level
  | topLevelForm _ => .debug
  | applyClosure .. => .trace
  | callBuiltin .. => .trace
  | userError _ => .debug

/-- What happened, in words. -/
def title : Event → String
  | topLevelForm _ => "eval top-level form"
  | applyClosure .. => "apply closure"
  | callBuiltin .. => "call builtin"
  | userError _ => "user error raised"

/-- The particulars of an event, each under its name. -/
def fields : Event → List (String × Field)
  | topLevelForm form => [("form", .text form)]
  | applyClosure name count =>
    [("procedure", .text (name.getD "<lambda>")), ("nargs", .count count)]
  | callBuiltin op count => [("builtin", .text op.name), ("nargs", .count count)]
  | userError message => [("error", .text message)]

end Event

end AtomLisp
