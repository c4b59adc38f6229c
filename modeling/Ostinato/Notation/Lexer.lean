import Ostinato.Notation.Token
import Ostinato.Number.Numeral
import Ostinato.Text.Quoted
import Ostinato.Unicode.Word

/-!
# Ostinato.Notation.Lexer

Splitting text into words.

1. Text between two equal quotes is one word, whatever it holds.
2. A point between digits belongs to a number; anywhere else it is a word of
   its own.  A run of word characters and sharp signs is one word.
3. A structural character ends the word before it and stands for itself.
4. White space separates words and is dropped.

A run of word characters is a number if it spells a finite double, and a name
otherwise.
-/

namespace Ostinato

/-- What is wrong with text that cannot be split. -/
inductive LexError where
  | unterminated (position : Nat)
  | unrecognized (character : Char) (position : Nat)
deriving DecidableEq, Repr

namespace LexError

/-- The place of the offending character. -/
def position : LexError → Nat
  | unterminated p => p
  | unrecognized _ p => p

/-- The wording of the complaint. -/
def message : LexError → String
  | unterminated p => "unterminated string starting at position " ++ toString p
  | unrecognized c p =>
    "unrecognized character " ++ Text.quoted (String.singleton c) ++
      " at position " ++ toString p

end LexError

namespace Lexer

/-- Whether a word spells a finite double. -/
def isNumeral (word : String) : Bool := (Numeral.readFloat? word).any Double.isFinite

/-- The kind of a run of word characters. -/
def wordKind (word : String) : TokenKind := if isNumeral word then .number else .symbol

/-- The characters that words are made of. -/
def isWordChar (c : Char) : Bool := Unicode.isWord c || c == '#'

/-- A lexeme at the front of some text. -/
structure Piece where
  /-- Nothing for white space. -/
  token : Option (TokenKind × String)
  size : Nat
  rest : List Char

/-- The text up to the next quote of the given kind, and what follows it. -/
def quotedPiece? (quote : Char) (cs : List Char) : Option Piece :=
  let body := cs.takeWhile (· != quote)
  match cs.dropWhile (· != quote) with
  | [] => none
  | _ :: rest => some ⟨some (.string, String.ofList body), body.length + 2, rest⟩

/-- The digits, point and digits in front, if the text begins so, and what
follows them. -/
def decimalPart (cs : List Char) : List Char × List Char :=
  match cs.dropWhile Unicode.isDigit with
  | '.' :: rest =>
    if cs.head?.any Unicode.isDigit && rest.head?.any Unicode.isDigit then
      (cs.takeWhile Unicode.isDigit ++ '.' :: rest.takeWhile Unicode.isDigit,
        rest.dropWhile Unicode.isDigit)
    else ([], cs)
  | _ => ([], cs)

/-- A run of word characters in front, a decimal point in it included. -/
def wordPiece (cs : List Char) : Piece :=
  let (decimal, rest) := decimalPart cs
  let chars := decimal ++ rest.takeWhile isWordChar
  let word := String.ofList chars
  ⟨some (wordKind word, word), chars.length, rest.dropWhile isWordChar⟩

/-- The lexeme at the front. -/
def piece (position : Nat) (c : Char) (cs : List Char) : Except LexError Piece :=
  if c == '"' || c == '\'' then
    match quotedPiece? c cs with
    | some p => .ok p
    | none => .error (.unterminated position)
  else if isWordChar c then .ok (wordPiece (c :: cs))
  else
    match TokenKind.ofStructural? c with
    | some kind => .ok ⟨some (kind, String.singleton c), 1, cs⟩
    | none =>
      if Unicode.isSpace c then
        .ok ⟨none, 1 + (cs.takeWhile Unicode.isSpace).length, cs.dropWhile Unicode.isSpace⟩
      else .error (.unrecognized c position)

/-- The words of text that begins at a position.  Each piece has at least one
character, so the number of characters bounds the number of pieces. -/
def tokensFrom : Nat → Nat → List Char → Except LexError (List Token)
  | 0, _, _ => .ok []
  | _ + 1, _, [] => .ok []
  | left + 1, position, c :: cs => do
    let p ← piece position c cs
    let rest ← tokensFrom left (position + p.size) p.rest
    match p.token with
    | some (kind, text) => .ok (⟨kind, text, position⟩ :: rest)
    | none => .ok rest

end Lexer

/-- The words of a text. -/
def tokenize (text : String) : Except LexError (List Token) :=
  Lexer.tokensFrom text.toList.length 0 text.toList

end Ostinato
