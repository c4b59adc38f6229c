import Ostinato.Notation.Cursor
import Ostinato.Transform

/-!
# Ostinato.Notation.Parser

From words to patterns:

```
pattern    ::= (suffixes* after an element | '.' call | element)*
element    ::= atom suffix*
atom       ::= NUMBER | STRING | SYMBOL (':' word)* | '[' pattern ']'
             | '<' pattern '>' | '/' rhythm | '-' NUMBER
suffix     ::= '/' rhythm | ('*' | '+' | '-' | '%') NUMBER | '~' modulation
rhythm     ::= steps ':' pulses [':' rotation]
modulation ::= amount [rate]
call       ::= SYMBOL operand* [call]
```

A point applies a transform to everything before it in the same group.  A
symbol names a sample variant with colons.  The transforms that may be called,
and how many operands each takes, come from a registry.
-/

namespace Ostinato

namespace Parser

/-! ## Suffixes -/

/-- Reads the rotation of a rhythm, zero if there is none. -/
def rotation : Parser Number := do
  match ← peek with
  | some t =>
    if t.kind == .colon then
      let colon ← advance
      expectNumber colon true
    else return .int 0
  | none => return .int 0

/-- The whole number that a part of a rhythm stands for. -/
def rhythmPart (slash : Token) (what : String) (x : Number) : Parser Int :=
  match Value.wholeNumber what (.number x) with
  | .ok n => return n
  | .error cause =>
    throw (if cause.family == .value then .rhythmFault slash cause else .fault cause)

/-- Reads a rhythm after its slash, for a child. -/
def euclid (child : Pattern) (slash : Token) : Parser Pattern := do
  let steps ← expectNumber slash false
  match ← peek with
  | none => throw (.stepsExpected slash)
  | some t =>
    if t.kind != .colon then throw (.stepsExpected slash)
    let colon ← advance
    let pulses ← expectNumber colon false
    let turned ← rotation
    let steps ← rhythmPart slash "euclid steps" steps
    let pulses ← rhythmPart slash "euclid pulses" pulses
    let turned ← rhythmPart slash "euclid rotation" turned
    if steps < 1 || pulses < 0 then throw (.rhythmOutOfRange slash)
    return .euclidean steps pulses turned child

/-- Reads the amount and the rate of a modulation. -/
def modulationOperands (tilde : Token) : Parser (Number × Number) := do
  let amount ← expectNumber tilde false
  if ← atNumber then return (amount, ← expectNumber tilde false)
  else return (amount, .int 1)

/-- Reads a modulation after its tilde, for a child. -/
def modulation (child : Pattern) (tilde : Token) : Parser Pattern := do
  let (amount, rate) ← deeper (modulationOperands tilde)
  modify fun c => { c with modulations := (amount, rate) :: c.modulations }
  return .modulation child (.number amount) (.number rate)

/-- Reads one suffix of a child, if there is one. -/
def suffixStep (child : Pattern) : Parser (Pattern ⊕ Pattern) := do
  match ← peek with
  | none => return .inr child
  | some t =>
    if !t.kind.isSuffix then return .inr child
    let _ ← advance
    match t.kind with
    | .slash => return .inl (← euclid child t)
    | .tilde => return .inl (← modulation child t)
    | _ =>
      let operand ← expectNumber t false
      if t.kind == .modulo && operand.isZero then throw (.moduloByZero t)
      return .inl (.operation child t.text (.number operand))

/-- Reads all suffixes of a child. -/
def suffixes (child : Pattern) : Parser Pattern := repeatUntil suffixStep child

/-! ## Atoms -/

/-- Reads one more colon and word of a name. -/
def variantStep (name : String) : Parser (String ⊕ String) := do
  match ← ahead with
  | colon :: rest =>
    if colon.kind != .colon then return .inr name
    match rest.head? with
    | some word =>
      if !word.kind.isVariant then throw (.danglingColon colon)
      let _ ← advance
      let _ ← advance
      return .inl (name ++ ":" ++ word.text)
    | none => throw (.danglingColon colon)
  | [] => return .inr name

/-- Reads an atom; `group` reads what stands between brackets, up to a closing
one of the given kind. -/
def atomWith (group : TokenKind → Token → Parser (List Pattern)) : Parser Pattern := do
  let t ← advance
  match t.kind with
  | .number => return .leaf (.number (← spelled t))
  | .string => return .leaf (.text t.text)
  | .symbol => return .leaf (.text (← repeatUntil variantStep t.text))
  | .listStart =>
    let children ← group .listEnd t
    let _ ← advance
    return .sequence children
  | .angleStart =>
    let children ← group .angleEnd t
    let _ ← advance
    return .parallel children
  | .slash => euclid (.leaf (.int 1)) t
  | .minus =>
    match ← peek with
    | some next =>
      if next.kind != .number then throw (.nothingBefore t)
      let x ← spelled (← advance)
      return .leaf (.number x.negate)
    | none => throw (.nothingBefore t)
  | .star | .plus | .modulo | .tilde => throw (.nothingBefore t)
  | .listEnd | .angleEnd | .dot | .colon => throw (.unexpected t)

/-! ## Calls -/

/-- Reads one more operand, if the transform takes it and there is one. -/
def operandStep (transform : Transform) (name : Token) (operands : List Value) :
    Parser (List Value ⊕ List Value) := do
  if (operands.length : Int) < transform.most && (← atNumber) then
    return .inl (operands ++ [.number (← expectNumber name true)])
  else return .inr operands

/-- Refuses a further value after the last operand. -/
def refuseExtra (name : String) : Parser Unit := do
  match ← peek with
  | some extra =>
    if extra.kind.isValue || (← atNumber) then throw (.tooManyOperands name extra)
  | none => return

/-- Runs the check of a transform on its operands. -/
def checkOperands (transform : Transform) (name : String) (token : Token)
    (operands : List Value) : Parser Unit :=
  match transform.check with
  | none => return
  | some check =>
    match check.run operands with
    | .ok () => return
    | .error cause =>
      throw (if cause.family == .value then .operandFault name token cause else .fault cause)

/-- Reads the name of a transform and its operands, with calls inside calls
down to `limit`. -/
def callWithin (transforms : Registry Transform) : Nat → Token → Parser (String × List Value)
  | 0, _ => throw .unexpectedEnd
  | limit + 1, after => do
    match ← peek with
    | none => throw (.nameExpected after)
    | some token =>
      if token.kind != .symbol then throw (.nameExpected after)
      let _ ← advance
      let name := Unicode.lowercase token.text
      match transforms.get? name with
      | none => throw (.unknownTransform token)
      | some transform =>
        let operands ← repeatUntil (operandStep transform token) []
        if (operands.length : Int) < transform.fewest then
          throw (.tooFewOperands name token transform.fewest operands.length)
        if transform.nested then
          let (inner, innerOperands) ← callWithin transforms limit token
          let operands := operands ++ [.call inner innerOperands]
          checkOperands transform name token operands
          return (name, operands)
        else
          refuseExtra name
          checkOperands transform name token operands
          return (name, operands)

/-- Reads the name of a transform and its operands. -/
def call (transforms : Registry Transform) (after : Token) : Parser (String × List Value) := do
  callWithin transforms ((← ahead).length + 1) after

/-- Reads a transform of everything before it in the group. -/
def transform (transforms : Registry Transform) (items : List Pattern) (dot : Token) :
    Parser Pattern := do
  match items with
  | [] => throw (.nothingToTransform dot)
  | first :: others =>
    let (name, operands) ← call transforms dot
    return .transform (if others.isEmpty then first else .sequence items) name operands

/-! ## Groups -/

/-- Reads one more part of a group, whose items so far are listed latest
first.  A group ends before its closing bracket, or at the end of the words. -/
def itemStep (transforms : Registry Transform)
    (group : TokenKind → Token → Parser (List Pattern)) (enclosing : Option (TokenKind × Token))
    (items : List Pattern) : Parser (List Pattern ⊕ List Pattern) := do
  match ← peek with
  | none =>
    match enclosing with
    | some (_, opener) => throw (.unclosed opener)
    | none => return .inr items.reverse
  | some t =>
    if t.kind.isCloser then
      if enclosing.any (·.1 == t.kind) then return .inr items.reverse
      else throw (.unmatched t)
    else if t.kind == .dot then
      let _ ← advance
      return .inl [← transform transforms items.reverse t]
    else
      match t.kind.isSuffix, items with
      | true, last :: others => return .inl ((← suffixes last) :: others)
      | _, _ =>
        let atom ← atomWith group
        return .inl ((← suffixes atom) :: items)

/-- Reads the items of a group, with groups inside groups down to `limit`. -/
def itemsWithin (transforms : Registry Transform) :
    Nat → Option (TokenKind × Token) → Parser (List Pattern)
  | 0, _ => throw .unexpectedEnd
  | limit + 1, enclosing =>
    repeatUntil
      (itemStep transforms (fun closer opener => itemsWithin transforms limit (closer, opener))
        enclosing) []

/-- Reads the items of a group up to the closing bracket that goes with an
opening one, or to the end of the words. -/
def items (transforms : Registry Transform) (enclosing : Option (TokenKind × Token)) :
    Parser (List Pattern) := do
  itemsWithin transforms ((← ahead).length + 1) enclosing

/-- Reads an atom. -/
def atom (transforms : Registry Transform) : Parser Pattern := do
  let limit := (← ahead).length + 1
  atomWith fun closer opener => itemsWithin transforms limit (closer, opener)

/-- Reads a whole pattern, an implicit group. -/
def pattern (transforms : Registry Transform) : Parser Pattern := do
  return .sequence (← items transforms none)

end Parser

/-- The pattern that words form. -/
def parseTokens (transforms : Registry Transform) (tokens : List Token) :
    Except ParseError Pattern × Cursor :=
  (Parser.pattern transforms).run.run (Cursor.start tokens)

/-- The pattern that text stands for. -/
def parse (transforms : Registry Transform) (text : String) : Except NotationError Pattern :=
  match tokenize text with
  | .error e => .error (.lexical e)
  | .ok tokens =>
    match (parseTokens transforms tokens).1 with
    | .error e => .error (.grammatical e)
    | .ok p => .ok p

end Ostinato
