/-!
# Ostinato.Notation.Token

The words of pattern notation: numbers, names and quoted text, and the
structural characters, each a token of its own.
-/

namespace Ostinato

/-- The kinds of words. -/
inductive TokenKind where
  | number
  | string
  | symbol
  | listStart
  | listEnd
  | angleStart
  | angleEnd
  | dot
  | colon
  | slash
  | star
  | plus
  | minus
  | modulo
  | tilde
deriving DecidableEq, Repr

namespace TokenKind

/-- The kind of a structural character. -/
def ofStructural? : Char → Option TokenKind
  | '[' => some listStart
  | ']' => some listEnd
  | '<' => some angleStart
  | '>' => some angleEnd
  | '.' => some dot
  | ':' => some colon
  | '/' => some slash
  | '*' => some star
  | '+' => some plus
  | '-' => some minus
  | '%' => some modulo
  | '~' => some tilde
  | _ => none

/-- The kinds that end a group. -/
def isCloser : TokenKind → Bool
  | listEnd | angleEnd => true
  | _ => false

/-- The kinds that say more about the element before them. -/
def isSuffix : TokenKind → Bool
  | star | plus | minus | modulo | slash | tilde => true
  | _ => false

/-- The kinds that are elements by themselves. -/
def isValue : TokenKind → Bool
  | number | string | symbol => true
  | _ => false

/-- The kinds that may follow a colon inside a name. -/
def isVariant : TokenKind → Bool
  | number | symbol => true
  | _ => false

end TokenKind

/-- A word of notation and the place of its first character. -/
structure Token where
  kind : TokenKind
  text : String
  position : Int
deriving DecidableEq, Repr

end Ostinato
