/-!
# Names

Names are compared without regard to the case of ASCII letters. A simple name has the shape
letter-or-underscore followed by letters, digits and underscores, all of them ASCII.
-/

namespace Sql

/-- The text with its ASCII letters in lower case; every other character stays. -/
def foldCase (s : String) : String := String.ofList (s.toList.map Char.toLower)

/-- The text with its ASCII letters in upper case; every other character stays. -/
def raiseCase (s : String) : String := String.ofList (s.toList.map Char.toUpper)

/-- Two names are the same up to the case of ASCII letters. -/
def sameName (a b : String) : Bool := foldCase a == foldCase b

theorem sameName_iff {a b : String} : sameName a b = true ↔ foldCase a = foldCase b := by
  simp [sameName]

@[simp] theorem sameName_refl (a : String) : sameName a a = true := by simp [sameName]

theorem sameName_symm {a b : String} (h : sameName a b = true) : sameName b a = true := by
  rw [sameName_iff] at *; exact h.symm

theorem sameName_trans {a b c : String} (h : sameName a b = true) (h' : sameName b c = true) :
    sameName a c = true := by
  rw [sameName_iff] at *; exact h.trans h'

/-- The name is on the list, up to case. -/
def nameIn (name : String) (names : List String) : Bool := names.any (sameName name)

/-- A character that may start a simple name. -/
def isSimpleStart (c : Char) : Bool := c.isAlpha || c == '_'

/-- A character that may continue a simple name. -/
def isSimpleChar (c : Char) : Bool := c.isAlphanum || c == '_'

/-- The characters form a simple name. -/
def isSimple : List Char → Bool
  | [] => false
  | c :: cs => isSimpleStart c && cs.all isSimpleChar

/-- An ASCII letter or underscore, then ASCII letters, digits and underscores. -/
def isSimpleName (name : String) : Bool := isSimple name.toList

/-- Keep the first of the items that bear the same name. -/
def firstByName {α : Type} (name : α → String) : List α → List α
  | [] => []
  | x :: xs => x :: (firstByName name xs).filter fun y => !sameName (name x) (name y)

/-- Keep the first spelling of every name. -/
def distinctNames (names : List String) : List String := firstByName id names

/-- The part of a dotted name after its last dot. -/
def lastPart (name : String) : String :=
  String.ofList (name.toList.reverse.takeWhile (· ≠ '.')).reverse

end Sql
