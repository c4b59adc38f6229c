import Ostinato.Notation.Parser

/-!
# Ostinato.Journal

What is told about the work while it is done.

Entries of a category are kept when the journal is switched on and their level
does not exceed its own; warnings are kept always.  Reading notation makes
entries for the modulations it comes across, even if the reading fails later,
and one for the pattern it ends with.
-/

namespace Ostinato

/-- Switches, and the lines so far. -/
structure Journal where
  enabled : Bool
  level : Int
  lines : List String

namespace Journal

/-- Switched off, with room for important entries only. -/
def initial : Journal := ⟨false, 1, []⟩

/-- An entry. -/
def log (j : Journal) (category message : String) (level : Int) : Journal :=
  if j.enabled && level ≤ j.level then
    { j with lines := j.lines ++ ["[LoopScript:" ++ category ++ "] " ++ message] }
  else j

/-- A warning. -/
def warn (j : Journal) (message : String) : Journal :=
  { j with lines := j.lines ++ ["[LoopScript] " ++ message] }

/-- Switches entries on or off and sets the level, if one is given. -/
def configure (j : Journal) (enable : Value) (level : Option Value) : Except Fault Unit × Journal :=
  let j := { j with enabled := enable.truth }
  let announced (j : Journal) : Journal :=
    j.log "debug" ("enabled (level=" ++ toString j.level ++ ")") 1
  match level with
  | none => (.ok (), announced j)
  | some v =>
    match v.toInt with
    | .ok n => (.ok (), announced { j with level := n })
    | .error fault => (.error fault, j)

/-- Text to be read, or words that have been split already. -/
inductive Source where
  | text (s : String)
  | words (tokens : List Token)

/-- The words of a source. -/
def Source.tokens : Source → Except LexError (List Token)
  | text s => tokenize s
  | words ts => .ok ts

/-- An entry for a modulation that was read. -/
def logModulation (j : Journal) (operands : Number × Number) : Journal :=
  j.log "parser" ("modulation amount=" ++ operands.1.text ++ " rate=" ++ operands.2.text) 2

/-- Entries for the modulations that a reader came across on its way to a
place, the earliest first. -/
def logModulations (j : Journal) (c : Cursor) : Journal :=
  c.modulations.foldr (fun operands j => j.logModulation operands) j

/-- The pattern of a source. -/
def read (j : Journal) (transforms : Registry Transform) (source : Source) :
    Except NotationError Pattern × Journal :=
  match source.tokens with
  | .error e => (.error (.lexical e), j)
  | .ok tokens =>
    let (result, c) := parseTokens transforms tokens
    let j := j.logModulations c
    match result with
    | .error e => (.error (.grammatical e), j)
    | .ok p => (.ok p, j.log "parser" (toString tokens.length ++ " tokens -> " ++ p.shown) 2)

/-- A journal that is switched off stays as it is. -/
theorem log_of_not_enabled {j : Journal} (h : j.enabled = false) (category message : String)
    (level : Int) : j.log category message level = j := by
  simp [log, h]

end Journal

end Ostinato
