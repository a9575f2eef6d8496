import Sql.Name
import Sql.Text.Blank

/-!
# Quoted names

A quoted name stands between an opening and a closing quote, and a closing quote inside it is
written twice. Three pairs of quotes are read: double quotes, back quotes and square brackets.
A dotted name is a sequence of parts, each bare or quoted; a dot between quotes belongs to its part.
-/

namespace Sql

/-- The character that closes a quoted name opened by this one. -/
def closingQuote? (c : Char) : Option Char :=
  if c = '\x22' then some '\x22'
  else if c = '\x60' then some '\x60'
  else if c = '[' then some ']'
  else none

theorem closingQuote?_eq_some {o q : Char} (h : closingQuote? o = some q) :
    (o = '\x22' ∧ q = '\x22') ∨ (o = '\x60' ∧ q = '\x60') ∨ (o = '[' ∧ q = ']') := by
  unfold closingQuote? at h
  split at h
  · next ho => exact Or.inl ⟨ho, (Option.some.inj h).symm⟩
  split at h
  · next ho => exact Or.inr (Or.inl ⟨ho, (Option.some.inj h).symm⟩)
  split at h
  · next ho => exact Or.inr (Or.inr ⟨ho, (Option.some.inj h).symm⟩)
  · cases h

/-- Write every occurrence of the closing quote twice, from the left and without overlap. The
number counts the characters of an occurrence that are still to be copied. -/
def doubled (close : List Char) : Nat → List Char → List Char
  | _, [] => []
  | n + 1, c :: cs => c :: doubled close n cs
  | 0, c :: cs =>
    if close.isPrefixOf (c :: cs) then close ++ c :: doubled close (close.length - 1) cs
    else c :: doubled close 0 cs

/-- The name between the two quotes, each closing quote inside it doubled. -/
def quoteName (name opening closing : String) : String :=
  let inner := if closing = "" then name else String.ofList (doubled closing.toList 0 name.toList)
  opening ++ inner ++ closing

/-- Replace every doubled quote by a single one, from the left and without overlap. -/
def undoubled (q : Char) : List Char → List Char
  | a :: b :: cs => if a = q ∧ b = q then q :: undoubled q cs else a :: undoubled q (b :: cs)
  | cs => cs

/-- The characters between the quotes, when the text starts with an opening quote and ends with
the quote that closes it. -/
def enclosed? : List Char → Option (Char × List Char)
  | [] => none
  | c :: cs =>
    match closingQuote? c with
    | none => none
    | some q => if cs.getLast? = some q then some (q, cs.dropLast) else none

/-- A name as written, without surrounding blanks and without its quotes. -/
def unquoteName (written : String) : String :=
  let text := (Text.trimBlank written).toList
  match enclosed? text with
  | some (q, inner) => String.ofList (undoubled q inner)
  | none => String.ofList text

/-- Put a character in front of the first part. -/
def consFirst (c : Char) : List (List Char) → List (List Char)
  | [] => [[c]]
  | part :: parts => (c :: part) :: parts

/-- Cut at the dots that stand outside quotes. The first argument is the quote that is open. -/
def dotParts : Option Char → List Char → List (List Char)
  | _, [] => [[]]
  | some q, c :: cs => consFirst c (dotParts (if c = q then none else some q) cs)
  | none, c :: cs =>
    if c = '.' then [] :: dotParts none cs else consFirst c (dotParts (closingQuote? c) cs)

/-- The parts of a dotted name, each without blanks and quotes; empty parts are left out. -/
def splitName (name : String) : List String :=
  ((dotParts none name.toList).map fun part => unquoteName (String.ofList part)).filter (· ≠ "")

/-- Parts joined by dots. -/
def dotted (parts : List String) : String := ".".intercalate parts

end Sql
