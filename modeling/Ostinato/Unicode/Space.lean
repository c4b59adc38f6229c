import Ostinato.Unicode.InversionList

/-!
# Ostinato.Unicode.Space

White space of Unicode 14: the ASCII blanks and line ends, the four
information separators, next line, and the space, line and paragraph
separators.  The zero-width space, the byte order mark and the Mongolian
vowel separator are not in it.
-/

namespace Ostinato.Unicode

/-- Boundaries of the white space characters. -/
def spaceTable : InversionList := [
  9, 14, 28, 33, 133, 134, 160, 161, 5760, 5761, 8192, 8203, 8232, 8234, 8239, 8240, 8287, 8288,
  12288, 12289
]

/-- White space. -/
def isSpace (c : Char) : Bool := spaceTable.contains c.toNat

/-- Everything that core counts as white space is white space here. -/
theorem isSpace_of_isWhitespace {c : Char} (h : c.isWhitespace = true) : isSpace c = true := by
  simp only [Char.isWhitespace, Bool.or_eq_true, decide_eq_true_eq] at h
  rcases h with ((h | h) | h) | h <;> subst h <;> decide

end Ostinato.Unicode
