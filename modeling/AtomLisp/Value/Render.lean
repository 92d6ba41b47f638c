import AtomLisp.Value

/-!
# The text of a value

A list is written as its elements with one space between each two of them, inside parentheses. A
closure is written as the `lambda` form that would make it. So plain data is written as source text
again. `Value.short` is the same text, but only refers to a closure by its name.
-/

namespace AtomLisp

/-- How a closure is referred to in messages. -/
def ClosureHead.short (head : ClosureHead) : String :=
  match head.name with
  | some name => "<procedure " ++ name ++ ">"
  | none => "<procedure>"

namespace Value

mutual

/-- The text of a value. -/
def render : Value → String
  | .atom text => text
  | .list items => "(" ++ renderItems items ++ ")"
  | .builtin op => "#<builtin " ++ op.name ++ ">"
  | .closure head body =>
    "(lambda (" ++ String.intercalate " " head.params ++ ")" ++ renderTail body ++ ")"

/-- Values with one space between each two of them. -/
def renderItems : List Value → String
  | [] => ""
  | x :: xs => render x ++ renderTail xs

/-- Values with one space before each of them. -/
def renderTail : List Value → String
  | [] => ""
  | x :: xs => " " ++ (render x ++ renderTail xs)

end

/-- The texts of several values, one directly after the other. -/
def renderAll (xs : List Value) : String :=
  String.join (xs.map render)

/-- The text of a value in messages. A closure is referred to by its name; a closure inside a list
is written out. -/
def short : Value → String
  | .closure head _ => head.short
  | x => x.render

@[simp] theorem short_list (items : List Value) : short (.list items) = render (.list items) := rfl

end Value

end AtomLisp
