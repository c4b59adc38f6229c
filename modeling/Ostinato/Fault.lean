import Ostinato.Text.Quoted

/-!
# Ostinato.Fault

What can go wrong while numbers are computed, operands are checked, or a
pattern is turned into events.  Each constructor is one cause; the wording is
in `Fault.message`.  Where a message shows the offending value, the fault
carries that value's text.
-/

namespace Ostinato

/-- The number a value was to be converted to. -/
inductive Conversion where
  | double
  | integer
  | fraction
deriving DecidableEq, Repr

/-- Causes of failure. -/
inductive Fault where
  /-- A remainder of integers or fractions was taken by zero. -/
  | moduloByZero
  /-- A remainder of doubles was taken by zero. -/
  | doubleModuloByZero
  /-- A fraction was divided by zero; its reduced numerator is kept. -/
  | quotientByZero (numerator : Int)
  /-- An integer lies beyond the largest double. -/
  | integerTooLarge
  /-- A fraction lies beyond the largest double. -/
  | fractionTooLarge
  /-- An infinity has no value as a fraction. -/
  | fractionOfInfinity
  /-- NaN has no value as a fraction. -/
  | fractionOfNaN
  /-- An infinity has no value as an integer. -/
  | integerOfInfinity
  /-- NaN has no value as an integer. -/
  | integerOfNaN
  /-- The sine of an infinity was taken. -/
  | sineOfInfinity
  /-- A pick was asked from nothing. -/
  | emptyRange
  /-- An integer was to be read from more digits than are taken. -/
  | tooManyDigits (count : Nat)
  /-- An integer was to be written that has more digits than are given out. -/
  | unwritable
  /-- Text does not spell the number it was to be read as. -/
  | unreadable (target : Conversion) (text : String)
  /-- A value of this kind has no numeric reading at all. -/
  | notConvertible (target : Conversion) (kind : String)
  /-- Values of these kinds have no order. -/
  | incomparable (relation left right : String)
  /-- An operator does not apply to values of these kinds. -/
  | unsupported (operator left right : String)
  /-- Copies were asked for in a number that no count can hold. -/
  | countTooLarge
  /-- Copies of a text would come to more characters than can be counted. -/
  | textTooLong
  /-- Copies would not fit in memory. -/
  | outOfMemory
  /-- Text or a tuple was multiplied by something other than an integer. -/
  | repeatCount (kind : String)
  /-- A transform looked for an operand that was not given. -/
  | missingOperand
  /-- A list was asked for an item beyond its ends. -/
  | outOfRange
  /-- The last operand of a conditional transform is not a call. -/
  | notACall (kind : String)
  /-- A child of a pattern is not itself a pattern. -/
  | notAPattern (shown : String)
  /-- Something other than text or a pattern was to be played. -/
  | notPlayable (kind : String)
  /-- No operator has this sign. -/
  | unknownOperator (sign : String)
  /-- No transform is registered under this name. -/
  | unknownTransform (name : String)
  /-- No choice policy is registered under this name. -/
  | unknownPolicy (name : String) (known : List String)
  /-- A rhythm needs at least one step. -/
  | tooFewSteps (steps : Int)
  /-- A whole number was expected. -/
  | notWhole (what got : String)
  /-- A count or period is less than one. -/
  | belowOne (what : String)
  /-- A repetition factor is negative. -/
  | negativeFactor (got : String)
  /-- A probability lies outside the unit interval. -/
  | notAProbability (got : String)
  /-- A rate is not greater than zero. -/
  | rateNotPositive (got : String)
deriving DecidableEq, Repr

namespace Fault

/-- The families that faults belong to. -/
inductive Family where
  | division
  | overflow
  | memory
  | value
  | type
  | index
  | attribute
  | key
  | pattern
deriving DecidableEq, Repr

/-- The family of a fault. -/
def family : Fault → Family
  | moduloByZero | doubleModuloByZero | quotientByZero _ => .division
  | integerTooLarge | fractionTooLarge | fractionOfInfinity | integerOfInfinity => .overflow
  | countTooLarge | textTooLong => .overflow
  | outOfMemory => .memory
  | fractionOfNaN | integerOfNaN | sineOfInfinity | emptyRange => .value
  | tooManyDigits _ | unwritable | unreadable .. => .value
  | unknownPolicy .. | tooFewSteps _ | notWhole .. | belowOne _ | negativeFactor _ => .value
  | notAProbability _ | rateNotPositive _ => .value
  | notConvertible .. | incomparable .. | unsupported .. | repeatCount _ => .type
  | notAPattern _ | notPlayable _ => .type
  | missingOperand | outOfRange => .index
  | notACall _ => .attribute
  | unknownOperator _ => .key
  | unknownTransform _ => .pattern

/-- The most digits an integer may have where it is read or written. -/
def digitLimit : Nat := 4300

/-- The beginning of what is said about an integer beyond the limit. -/
def limitMessage : String :=
  "Exceeds the limit (" ++ toString digitLimit ++ " digits) for integer string conversion"

/-- The advice at the end of what is said about an integer beyond the limit. -/
def limitAdvice : String := "; use sys.set_int_max_str_digits() to increase the limit"

/-- The most characters of an unreadable text, quotes included, that are shown
where an integer was expected. -/
def excerptLength : Nat := 200

/-- The beginning of a text between quotes. -/
def excerpt (text : String) : String :=
  String.ofList ((Text.quoted text).toList.take excerptLength)

/-- The wording of a failed reading.  Text that is no integer is shown in part
if it is long. -/
def unreadableMessage (text : String) : Conversion → String
  | .double => "could not convert string to float: " ++ Text.quoted text
  | .integer => "invalid literal for int() with base 10: " ++ excerpt text
  | .fraction => "Invalid literal for Fraction: " ++ Text.quoted text

/-- The wording of a conversion that no value of the kind admits. -/
def notConvertibleMessage (kind : String) : Conversion → String
  | .double => "float() argument must be a string or a real number, not '" ++ kind ++ "'"
  | .integer =>
    "int() argument must be a string, a bytes-like object or a real number, not '" ++ kind ++ "'"
  | .fraction => "argument should be a string or a Rational instance"

/-- The wording of a fault. -/
def message : Fault → String
  | moduloByZero => "integer modulo by zero"
  | doubleModuloByZero => "float modulo"
  | quotientByZero n => "Fraction(" ++ toString n ++ ", 0)"
  | integerTooLarge => "int too large to convert to float"
  | fractionTooLarge => "integer division result too large for a float"
  | fractionOfInfinity => "cannot convert Infinity to integer ratio"
  | fractionOfNaN => "cannot convert NaN to integer ratio"
  | integerOfInfinity => "cannot convert float infinity to integer"
  | integerOfNaN => "cannot convert float NaN to integer"
  | sineOfInfinity => "math domain error"
  | emptyRange => "empty range for randrange()"
  | tooManyDigits count =>
    limitMessage ++ ": value has " ++ toString count ++ " digits" ++ limitAdvice
  | unwritable => limitMessage ++ limitAdvice
  | unreadable target text => unreadableMessage text target
  | notConvertible target kind => notConvertibleMessage kind target
  | incomparable relation left right =>
    "'" ++ relation ++ "' not supported between instances of '" ++ left ++ "' and '" ++ right ++ "'"
  | unsupported operator left right =>
    "unsupported operand type(s) for " ++ operator ++ ": '" ++ left ++ "' and '" ++ right ++ "'"
  | countTooLarge => "cannot fit 'int' into an index-sized integer"
  | textTooLong => "repeated string is too long"
  | outOfMemory => ""
  | repeatCount kind => "can't multiply sequence by non-int of type '" ++ kind ++ "'"
  | missingOperand => "tuple index out of range"
  | outOfRange => "list index out of range"
  | notACall kind => "'" ++ kind ++ "' object has no attribute 'operation'"
  | notAPattern shown => "not a pattern node: " ++ shown
  | notPlayable kind => "expected notation text or a pattern node, got " ++ kind
  | unknownOperator sign => Text.quoted sign
  | unknownTransform name => "unknown transform '" ++ name ++ "'"
  | unknownPolicy name known =>
    "unknown choice policy '" ++ name ++ "' (known: " ++ ", ".intercalate known ++ ")"
  | tooFewSteps steps => "euclid steps must be at least 1, got " ++ toString steps
  | notWhole what got => what ++ " must be a whole number, got " ++ got
  | belowOne what => what ++ " must be at least 1"
  | negativeFactor got => "factor must not be negative, got " ++ got
  | notAProbability got => "probability must be between 0 and 1, got " ++ got
  | rateNotPositive got => "cycles per second must be positive, got " ++ got

end Fault

end Ostinato
