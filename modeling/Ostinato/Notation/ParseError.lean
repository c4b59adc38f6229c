import Ostinato.Fault
import Ostinato.Notation.Lexer

/-!
# Ostinato.Notation.ParseError

What is wrong with words that do not form a pattern.  Each cause keeps the
words that its message and its position are about.
-/

namespace Ostinato

/-- Causes for which words form no pattern. -/
inductive ParseError where
  | unexpectedEnd
  | numberExpected (after : Token) (found : Option Token)
  | unclosed (opener : Token)
  | unmatched (closer : Token)
  | danglingColon (colon : Token)
  | nothingBefore (operator : Token)
  | unexpected (token : Token)
  | moduloByZero (operator : Token)
  | stepsExpected (slash : Token)
  | rhythmOutOfRange (slash : Token)
  | rhythmFault (slash : Token) (cause : Fault)
  | nothingToTransform (dot : Token)
  | nameExpected (after : Token)
  | unknownTransform (name : Token)
  | tooFewOperands (name : String) (token : Token) (fewest : Int) (given : Nat)
  | tooManyOperands (name : String) (extra : Token)
  | operandFault (name : String) (token : Token) (cause : Fault)
  /-- A fault that says nothing about the notation itself. -/
  | fault (cause : Fault)
deriving DecidableEq, Repr

namespace ParseError

/-- The place that the complaint is about. -/
def position : ParseError → Option Int
  | unexpectedEnd => none
  | numberExpected after found => some (found.getD after).position
  | unclosed t | unmatched t | danglingColon t | nothingBefore t | unexpected t => some t.position
  | moduloByZero t | stepsExpected t | rhythmOutOfRange t | rhythmFault t _ => some t.position
  | nothingToTransform t | nameExpected t | unknownTransform t => some t.position
  | tooFewOperands _ t _ _ | tooManyOperands _ t | operandFault _ t _ => some t.position
  | fault _ => none

/-- A word between quotes and its place. -/
def place (t : Token) : String := "'" ++ t.text ++ "' at position " ++ toString t.position

/-- What was found where a number was expected. -/
def foundText : Option Token → String
  | some t => place t
  | none => "end of input"

/-- The wording of the complaint. -/
def message : ParseError → String
  | unexpectedEnd => "unexpected end of input"
  | numberExpected after found => place after ++ " expects a number, found " ++ foundText found
  | unclosed t => "unclosed " ++ place t
  | unmatched t => "unmatched " ++ place t
  | danglingColon t => "dangling ':' at position " ++ toString t.position
  | nothingBefore t => "operator " ++ place t ++ " has no preceding element"
  | unexpected t => "unexpected " ++ place t
  | moduloByZero t => "modulo by zero at position " ++ toString t.position
  | stepsExpected t => "euclid at position " ++ toString t.position ++ " needs steps:pulses"
  | rhythmOutOfRange t =>
    "euclid at position " ++ toString t.position ++ " needs steps >= 1 and pulses >= 0"
  | rhythmFault t cause => cause.message ++ " (position " ++ toString t.position ++ ")"
  | nothingToTransform t =>
    "'.' at position " ++ toString t.position ++ " has nothing to transform"
  | nameExpected t => "expected a transform name after position " ++ toString t.position
  | unknownTransform t => "unknown transform " ++ place t
  | tooFewOperands name t fewest given =>
    "'" ++ name ++ "' at position " ++ toString t.position ++ " expects " ++ toString fewest ++
      " operand(s), got " ++ toString given
  | tooManyOperands name extra =>
    "too many operands for '" ++ name ++ "' at position " ++ toString extra.position
  | operandFault name t cause =>
    "'" ++ name ++ "' at position " ++ toString t.position ++ ": " ++ cause.message
  | fault cause => cause.message

end ParseError

/-- Why text is no pattern: it cannot be split, or its words form none. -/
inductive NotationError where
  | lexical (error : LexError)
  | grammatical (error : ParseError)
deriving DecidableEq, Repr

namespace NotationError

/-- The wording of the complaint. -/
def message : NotationError → String
  | lexical e => e.message
  | grammatical e => e.message

/-- The place that the complaint is about. -/
def position : NotationError → Option Int
  | lexical e => some e.position
  | grammatical e => e.position

end NotationError

end Ostinato
