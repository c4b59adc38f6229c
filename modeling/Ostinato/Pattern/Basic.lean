import Ostinato.Number.Arithmetic
import Ostinato.Number.Copies

/-!
# Ostinato.Pattern.Basic

Patterns and the values in them.

A pattern is a tree whose leaves carry values.  Groups put their children one
after another or let one of them play per cycle; the other nodes change what
a single child plays.  A value is a number or a name in most patterns, but
operands may also be calls of transforms, and a pattern may be carried as a
value.  A child that is not a pattern is kept as a `stray` value, so that it
can be reported when it is to be played.
-/

namespace Ostinato

mutual

/-- What leaves carry and transforms take as operands. -/
inductive Value where
  | number (x : Number)
  | text (s : String)
  | flag (b : Bool)
  | nothing
  | tuple (items : List Value)
  /-- A transform and its operands, not yet applied to a pattern. -/
  | call (name : String) (operands : List Value)
  | pattern (p : Pattern)

/-- A tree that plays events cycle after cycle. -/
inductive Pattern where
  | leaf (value : Value)
  /-- The children share the span evenly, in order. -/
  | sequence (children : List Pattern)
  /-- One child per cycle, picked by the choice policy. -/
  | parallel (children : List Pattern)
  /-- A named transform of the child. -/
  | transform (child : Pattern) (name : String) (operands : List Value)
  /-- The child on each onset of an evenly spread rhythm. -/
  | euclidean (steps pulses rotation : Int) (child : Pattern)
  /-- The child's events, slid along a sine wave. -/
  | modulation (child : Pattern) (amount rate : Value)
  /-- Arithmetic on the child's numbers, or repetition of the child. -/
  | operation (child : Pattern) (sign : String) (operand : Value)
  /-- Something that is not a pattern. -/
  | stray (value : Value)

end

instance : Inhabited Value := ⟨.nothing⟩

instance : Inhabited Pattern := ⟨.sequence []⟩

/-- The name of a node's kind. -/
def Pattern.kind : Pattern → String
  | leaf _ => "Leaf"
  | sequence _ => "Sequence"
  | parallel _ => "Parallel"
  | transform .. => "Transform"
  | euclidean .. => "Euclidean"
  | modulation .. => "Modulation"
  | operation .. => "Operation"
  | stray _ => "Value"

namespace Value

/-- The name of a value's kind. -/
def kind : Value → String
  | number x => x.kind
  | text _ => "str"
  | flag _ => "bool"
  | nothing => "NoneType"
  | tuple _ => "tuple"
  | call .. => "Call"
  | pattern p => p.kind

/-- An integer value. -/
def int (n : Int) : Value := number (.int n)

/-- Whether the value counts as a number where events are computed with. -/
def isNumber : Value → Bool
  | number _ => true
  | _ => false

/-- The number a value stands for as an operand, where a flag is zero or one. -/
def asNumber? : Value → Option Number
  | number x => some x
  | flag b => some (.int (if b then 1 else 0))
  | _ => none

/-- Whether a value counts as true: all but zero, the empty text, the empty
tuple, a lowered flag and nothing. -/
def truth : Value → Bool
  | number x => !x.isZero
  | text s => !s.isEmpty
  | flag b => b
  | nothing => false
  | tuple items => !items.isEmpty
  | call .. => true
  | pattern _ => true

/-! ## Conversions -/

/-- A value as a double; text is read as a numeral. -/
def toFloat (v : Value) : Except Fault Float :=
  match v.asNumber?, v with
  | some x, _ => x.toFloat
  | none, text s =>
    match Numeral.readFloat? s with
    | some x => .ok x
    | none => .error (.unreadable .double s)
  | none, v => .error (.notConvertible .double v.kind)

/-- A value as an integer, cutting off places; text is read as a numeral. -/
def toInt (v : Value) : Except Fault Int :=
  match v.asNumber?, v with
  | some x, _ => x.toInt
  | none, text s => Numeral.readInt s
  | none, v => .error (.notConvertible .integer v.kind)

/-- A value as cycle time; text is read as a fraction. -/
def toTime (v : Value) : Except Fault Rat :=
  match v.asNumber?, v with
  | some x, _ => x.toTime
  | none, text s => Numeral.readFraction s
  | none, v => .error (.notConvertible .fraction v.kind)

/-! ## Operators -/

/-- A number times something that is not one: an integer repeats text or a
tuple. -/
def repeated (x : Number) (v : Value) : Except Fault Value :=
  match v, x with
  | text s, .int n => do
    let count ← Copies.ofText n s.length
    return text (String.join (List.replicate (if s.isEmpty then 0 else count) s))
  | tuple items, .int n => do
    let count ← Copies.held n items.length
    return tuple (List.replicate (if items.isEmpty then 0 else count) items).flatten
  | text _, x => .error (.repeatCount x.kind)
  | tuple _, x => .error (.repeatCount x.kind)
  | v, x => .error (.unsupported "*" x.kind v.kind)

/-- An operator on a number and an operand. -/
def combine (op : Operator) (x : Number) (operand : Value) : Except Fault Value :=
  match operand.asNumber?, op with
  | some y, _ => number <$> op.apply x y
  | none, .times => repeated x operand
  | none, _ => .error (.unsupported op.sign x.kind operand.kind)

/-- A double times an operand. -/
def scaleBy (x : Float) (operand : Value) : Except Fault Float :=
  match operand.asNumber?, operand with
  | some y, _ => do return x * (← y.toFloat)
  | none, text _ => .error (.repeatCount "float")
  | none, tuple _ => .error (.repeatCount "float")
  | none, v => .error (.unsupported "*" "float" v.kind)

/-- An operand times a double. -/
def scaledBy (operand : Value) (x : Float) : Except Fault Float :=
  match operand.asNumber?, operand with
  | some y, _ => do return (← y.toFloat) * x
  | none, text _ => .error (.repeatCount "float")
  | none, tuple _ => .error (.repeatCount "float")
  | none, v => .error (.unsupported "*" v.kind "float")

/-- Whether an integer reaches an operand. -/
def reachedBy (n : Int) (operand : Value) : Except Fault Bool :=
  match operand.asNumber? with
  | some y => .ok (y.lessOrSame (.int n))
  | none => .error (.incomparable ">=" "int" operand.kind)

/-- Whether an operand lies between zero and one. -/
def isProbability (operand : Value) : Except Fault Bool :=
  match operand.asNumber? with
  | some y => .ok ((Number.int 0).lessOrSame y && y.lessOrSame (.int 1))
  | none => .error (.incomparable "<=" "int" operand.kind)

/-! ## Equality across kinds -/

mutual

/-- Equality of values, where numbers and flags are compared by value. -/
def same : Value → Value → Bool
  | number x, v => (v.asNumber?.map x.same).getD false
  | flag b, v => (v.asNumber?.map (Number.same (.int (if b then 1 else 0)))).getD false
  | text s, text t => s == t
  | nothing, nothing => true
  | tuple xs, tuple ys => sameAll xs ys
  | call f xs, call g ys => f == g && sameAll xs ys
  | pattern p, pattern q => samePattern p q
  | _, _ => false
termination_by structural v => v

/-- Equality of two lists of values, place by place. -/
def sameAll : List Value → List Value → Bool
  | [], [] => true
  | x :: xs, y :: ys => same x y && sameAll xs ys
  | _, _ => false
termination_by structural v => v

/-- Equality of patterns up to equality of the values in them. -/
def samePattern : Pattern → Pattern → Bool
  | .leaf v, .leaf w => same v w
  | .sequence ps, .sequence qs => samePatterns ps qs
  | .parallel ps, .parallel qs => samePatterns ps qs
  | .transform p f xs, .transform q g ys => samePattern p q && f == g && sameAll xs ys
  | .euclidean s k r p, .euclidean t l u q => s == t && k == l && r == u && samePattern p q
  | .modulation p a r, .modulation q b s => samePattern p q && same a b && same r s
  | .operation p f x, .operation q g y => samePattern p q && f == g && same x y
  | .stray v, .stray w => same v w
  | _, _ => false
termination_by structural v => v

/-- Equality of two lists of patterns, place by place. -/
def samePatterns : List Pattern → List Pattern → Bool
  | [], [] => true
  | p :: ps, q :: qs => samePattern p q && samePatterns ps qs
  | _, _ => false
termination_by structural v => v

end

/-! ## Order -/

/-- The side on which one value may lie of another. -/
inductive Side where
  | below
  | above
deriving DecidableEq, Repr

/-- The sign that asks whether a value lies on a side. -/
def Side.sign : Side → String
  | below => "<"
  | above => ">"

/-- Whether a list lies on a side of another one by their lengths, where the
shorter begins the longer. -/
def Side.ofLengths : Side → Nat → Nat → Bool
  | below, m, n => m < n
  | above, m, n => n < m

/-- Whether a value lies on a side of another: numbers and flags by value,
text by code points. -/
def liesFlat (side : Side) (v w : Value) : Except Fault Bool :=
  match v.asNumber?, w.asNumber?, v, w with
  | some x, some y, _, _ => .ok (match side with | .below => x.less y | .above => y.less x)
  | _, _, text s, text t => .ok (match side with | .below => decide (s < t) | .above => decide (t < s))
  | _, _, _, _ => .error (.incomparable side.sign v.kind w.kind)

mutual

/-- Whether a value lies on a side of another.  Tuples are ordered by the first
place at which they differ. -/
def lies (side : Side) : Value → Value → Except Fault Bool
  | tuple xs, tuple ys => liesAll side xs ys
  | v, w => liesFlat side v w
termination_by structural v => v

/-- Whether a list of items lies on a side of another. -/
def liesAll (side : Side) : List Value → List Value → Except Fault Bool
  | x :: xs, y :: ys => if same x y then liesAll side xs ys else lies side x y
  | xs, ys => .ok (side.ofLengths xs.length ys.length)
termination_by structural xs => xs

end

/-- A value moved to the bound beyond which it lies, if there is one; the
lower bound counts first. -/
def clamp (v low high : Value) : Except Fault Value := do
  if ← v.lies .below low then return low
  if ← v.lies .above high then return high
  return v

/-- Whether an operand is less than zero. -/
def isNegative (operand : Value) : Except Fault Bool := operand.lies .below (int 0)

end Value

end Ostinato
