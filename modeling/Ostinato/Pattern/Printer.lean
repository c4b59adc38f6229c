import Ostinato.Pattern.Basic

/-!
# Ostinato.Pattern.Printer

The one-line text of patterns and values: the name of the node and its fields
in order, each after its own name.  Text stands between quotes, a tuple of one
has a comma after its only item.
-/

namespace Ostinato

/-- Items between parentheses. -/
def tupleText : List String → String
  | [] => "()"
  | [item] => "(" ++ item ++ ",)"
  | items => "(" ++ ", ".intercalate items ++ ")"

/-- A node's name and its fields, each a name and its text. -/
def nodeText (name : String) (fields : List (String × String)) : String :=
  name ++ "(" ++ ", ".intercalate (fields.map fun (field, text) => field ++ "=" ++ text) ++ ")"

mutual

/-- The text of a value inside a pattern. -/
def Value.shown : Value → String
  | .number x => x.shown
  | .text s => Text.quoted s
  | .flag b => if b then "True" else "False"
  | .nothing => "None"
  | .tuple items => tupleText (Value.shownAll items)
  | .call name operands =>
    nodeText "Call"
      [("operation", Text.quoted name), ("operands", tupleText (Value.shownAll operands))]
  | .pattern p => p.shown

/-- The texts of a list of values. -/
def Value.shownAll : List Value → List String
  | [] => []
  | v :: vs => v.shown :: Value.shownAll vs

/-- The text of a pattern. -/
def Pattern.shown : Pattern → String
  | .leaf value => nodeText "Leaf" [("value", value.shown)]
  | .sequence children => nodeText "Sequence" [("children", tupleText (Pattern.shownAll children))]
  | .parallel children => nodeText "Parallel" [("children", tupleText (Pattern.shownAll children))]
  | .transform child name operands =>
    nodeText "Transform"
      [("child", child.shown), ("operation", Text.quoted name),
        ("operands", tupleText (Value.shownAll operands))]
  | .euclidean steps pulses rotation child =>
    nodeText "Euclidean"
      [("steps", toString steps), ("pulses", toString pulses), ("rotation", toString rotation),
        ("child", child.shown)]
  | .modulation child amount rate =>
    nodeText "Modulation" [("child", child.shown), ("amount", amount.shown), ("rate", rate.shown)]
  | .operation child sign operand =>
    nodeText "Operation"
      [("child", child.shown), ("op", Text.quoted sign), ("operand", operand.shown)]
  | .stray value => value.shown

/-- The texts of a list of patterns. -/
def Pattern.shownAll : List Pattern → List String
  | [] => []
  | p :: ps => p.shown :: Pattern.shownAll ps

end

/-- The text of a value inside a sentence: names without quotes, fractions
without their name. -/
def Value.plain : Value → String
  | .text s => s
  | .number x => x.text
  | v => v.shown

mutual

/-- Whether all integers in a value are short enough to be written. -/
def Value.isWritable : Value → Bool
  | .number x => x.isWritable
  | .tuple items => Value.allWritable items
  | .call _ operands => Value.allWritable operands
  | .pattern p => p.isWritable
  | _ => true

/-- Whether all integers in some values are short enough to be written. -/
def Value.allWritable : List Value → Bool
  | [] => true
  | v :: vs => v.isWritable && Value.allWritable vs

/-- Whether all integers in a pattern are short enough to be written. -/
def Pattern.isWritable : Pattern → Bool
  | .leaf value => value.isWritable
  | .sequence children => Pattern.allWritable children
  | .parallel children => Pattern.allWritable children
  | .transform child _ operands => child.isWritable && Value.allWritable operands
  | .euclidean steps pulses rotation child =>
    (Number.int steps).isWritable && (Number.int pulses).isWritable &&
      (Number.int rotation).isWritable && child.isWritable
  | .modulation child amount rate => child.isWritable && amount.isWritable && rate.isWritable
  | .operation child _ operand => child.isWritable && operand.isWritable
  | .stray value => value.isWritable

/-- Whether all integers in some patterns are short enough to be written. -/
def Pattern.allWritable : List Pattern → Bool
  | [] => true
  | p :: ps => p.isWritable && Pattern.allWritable ps

end

/-- The text of a value inside a sentence, where it may be too long. -/
def Value.written (v : Value) : Except Fault String :=
  if v.isWritable then .ok v.plain else .error .unwritable

/-- The integer that a value of integral size stands for; `what` names it in
the complaint about any other value. -/
def Value.wholeNumber (what : String) (v : Value) : Except Fault Int :=
  match v with
  | .number x => do
    let n ← x.toInt
    if x.same (.int n) then .ok n else .error (.notWhole what v.plain)
  | _ => .error (.notWhole what v.plain)

end Ostinato
