import Ostinato.Unicode.Lowercase

/-!
# Ostinato.Registry

Named entries in the order in which their names first came.  Names are kept
and looked up in lower case; an entry added under a known name takes that
name's place.
-/

namespace Ostinato

/-- Entries under lower-case names. -/
structure Registry (α : Type) where
  label : String
  entries : List (String × α)

namespace Registry

variable {α : Type}

/-- The entry under a name. -/
def get? (r : Registry α) (name : String) : Option α := r.entries.lookup (Unicode.lowercase name)

/-- Whether a name is taken. -/
def contains (r : Registry α) (name : String) : Bool := (r.get? name).isSome

/-- The names in order of arrival. -/
def names (r : Registry α) : List String := r.entries.map Prod.fst

/-- Entries with one replaced, or added at the end under a new name. -/
def put (name : String) (entry : α) : List (String × α) → List (String × α)
  | [] => [(name, entry)]
  | (other, old) :: rest =>
    if other == name then (name, entry) :: rest else (other, old) :: put name entry rest

/-- Adds an entry. -/
def add (r : Registry α) (name : String) (entry : α) : Registry α :=
  { r with entries := put (Unicode.lowercase name) entry r.entries }

/-- Inserts a name into a sorted list of names. -/
def insertSorted (name : String) : List String → List String
  | [] => [name]
  | other :: rest => if name ≤ other then name :: other :: rest else other :: insertSorted name rest

/-- The label and the names in alphabetical order. -/
def text (r : Registry α) : String :=
  "<" ++ r.label ++ ": " ++ ", ".intercalate (r.names.foldr insertSorted []) ++ ">"

/-- What was put is found. -/
theorem lookup_put (name : String) (entry : α) (entries : List (String × α)) :
    (put name entry entries).lookup name = some entry := by
  induction entries with
  | nil => simp [put]
  | cons head rest ih =>
    obtain ⟨other, old⟩ := head
    by_cases h : other = name
    · simp [put, h]
    · simp [put, h, List.lookup_cons, ih, beq_eq_false_iff_ne.2 (Ne.symm h)]

/-- An added entry is found under any spelling of its name. -/
theorem get?_add {r : Registry α} {name other : String} {entry : α}
    (h : Unicode.lowercase other = Unicode.lowercase name) :
    (r.add name entry).get? other = some entry := by
  simp [get?, add, h, lookup_put]

end Registry

end Ostinato
