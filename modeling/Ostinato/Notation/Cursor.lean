import Ostinato.Notation.ParseError
import Ostinato.Number.Arithmetic

/-!
# Ostinato.Notation.Cursor

A place between the words of notation, and reading from there.

Readers of type `Parser` keep the place they have reached also when they fail,
so a caller can go on from there.  The cursor counts the modulations whose
operands are being read: inside them a minus sign belongs to the number that
follows.  It also remembers the modulations read so far.
-/

namespace Ostinato

/-- A place between words. -/
structure Cursor where
  /-- The words before the place, nearest first. -/
  passed : List Token
  /-- The words after the place. -/
  ahead : List Token
  /-- How many modulations are being read. -/
  depth : Int
  /-- Amounts and rates of the modulations read so far, latest first. -/
  modulations : List (Number × Number)

/-- The place before the first word. -/
def Cursor.start (tokens : List Token) : Cursor := ⟨[], tokens, 0, []⟩

/-- The number of words before the place. -/
def Cursor.position (c : Cursor) : Nat := c.passed.length

/-- Computations that read words and may fail on the way. -/
abbrev Parser (α : Type) := ExceptT ParseError (StateM Cursor) α

namespace Parser

/-- The words ahead. -/
def ahead : Parser (List Token) := do return (← get).ahead

/-- The next word, if there is one. -/
def peek : Parser (Option Token) := do return (← ahead).head?

/-- The word at a distance from the next one.  Places before the first word
count from the end. -/
def peekAt (offset : Int) : Parser (Option Token) := do
  let c ← get
  let tokens := c.passed.reverse ++ c.ahead
  let place := (c.position : Int) + offset
  if 0 ≤ place then return tokens[place.toNat]?
  else if 0 ≤ place + tokens.length then return tokens[(place + tokens.length).toNat]?
  else throw (.fault .outOfRange)

/-- Passes the next word. -/
def advance : Parser Token := do
  let c ← get
  match c.ahead with
  | [] => throw .unexpectedEnd
  | t :: ts =>
    set { c with passed := t :: c.passed, ahead := ts }
    return t

/-- Sets the count of modulations being read. -/
def setDepth (depth : Int) : Parser Unit := modify fun c => { c with depth := depth }

/-- Runs a reader inside one more modulation, whether it fails or not. -/
def deeper {α : Type} (reader : Parser α) : Parser α := ExceptT.mk do
  modify fun c => { c with depth := c.depth + 1 }
  let result ← reader.run
  modify fun c => { c with depth := c.depth - 1 }
  return result

/-- Repeats a step until it gives a result, at most `limit` times. -/
def loop {α β : Type} (step : α → Parser (α ⊕ β)) : Nat → α → Parser β
  | 0, _ => throw .unexpectedEnd
  | limit + 1, a => do
    match ← step a with
    | .inl a => loop step limit a
    | .inr b => return b

/-- Repeats a step until it gives a result.  Each step but the last must pass
a word, so the number of words ahead bounds the number of steps. -/
def repeatUntil {α β : Type} (step : α → Parser (α ⊕ β)) (a : α) : Parser β := do
  loop step ((← ahead).length + 1) a

/-! ## Numbers -/

/-- Whether the words begin with a number, possibly after a minus sign. -/
def startsNumber : List Token → Bool
  | [] => false
  | t :: rest =>
    if t.kind == .minus then rest.head?.any (·.kind == .number) else t.kind == .number

/-- Whether a number comes next, possibly after a minus sign. -/
def atNumber : Parser Bool := do return startsNumber (← ahead)

/-- The number that a word spells. -/
def spelled (t : Token) : Parser Number :=
  match Number.ofText t.text with
  | .ok x => return x
  | .error cause => throw (.fault cause)

/-- Passes a minus sign, if signs belong to numbers here. -/
def takeSign (isSigned : Bool) : Parser Bool := do
  let c ← get
  if c.ahead.head?.any (·.kind == .minus) && (isSigned || 0 < c.depth) then
    let _ ← advance
    return true
  else return false

/-- Reads the number that a word asks for. -/
def expectNumber (after : Token) (isSigned : Bool) : Parser Number := do
  let negative ← takeSign isSigned
  match ← peek with
  | none => throw (.numberExpected after none)
  | some t =>
    if t.kind == .number then
      let _ ← advance
      let x ← spelled t
      return if negative then x.negate else x
    else throw (.numberExpected after (some t))

end Parser

end Ostinato
