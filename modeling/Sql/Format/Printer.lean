import Sql.Format.Fragment

/-!
# The fragments of a tree

Every operand of an operator stands in parentheses when it binds less tightly than the operator,
or, on the right of an operator, when it binds equally: operators group to the left. A statement
inside a statement is one level deeper.

Joins are printed only after a first source, and a comma takes no constraint.
-/

namespace Sql

open Fragment

/-- An operand of an operator of the given strength. -/
def operand (strength : Nat) (onRight : Bool) (e : Expr) (fs : List Fragment) : List Fragment :=
  if e.strength < strength || (onRight && e.strength == strength) then inParens fs else fs

/-- A string in single quotes, each quote inside it doubled. -/
def quotedString (s : String) : String :=
  "'" ++ String.ofList (doubled ['\x27'] 0 s.toList) ++ "'"

/-- A constant. -/
def Literal.fragments : Literal → List Fragment
  | number t => [text t]
  | string s => [text (quotedString s)]
  | boolean true => [text "true"]
  | boolean false => [text "false"]
  | null => [keyword "null"]
  | typed type value => [keyword type, text (" " ++ quotedString value)]

/-- An operator between its operands. -/
def BinaryOp.fragments (op : BinaryOp) : List Fragment :=
  [text " ", if op.isWord then keyword op.symbol else text op.symbol, text " "]

/-- The sign of an operator, or NOT. -/
def UnaryOp.fragments : UnaryOp → List Fragment
  | not => [keyword "not", text " "]
  | minus => [sign "-"]
  | plus => [sign "+"]

/-- The strength that the operand of an operator must have. -/
def UnaryOp.strength : UnaryOp → Nat
  | not => strengthNot
  | _ => strengthSign

/-- A predicate word, negated or not. -/
def predicateWord (word negatedWord : String) (negated : Bool) : List Fragment :=
  [text " ", keyword (if negated then negatedWord else word)]

/-- ASC, DESC or nothing. -/
def directionFragments : Option SortDirection → List Fragment
  | some .asc => [text " ", keyword "asc"]
  | some .desc => [text " ", keyword "desc"]
  | none => []

/-- NULLS FIRST, NULLS LAST or nothing. -/
def nullsFragments : Option NullsOrder → List Fragment
  | some .first => [text " ", keyword "nulls first"]
  | some .last => [text " ", keyword "nulls last"]
  | none => []

/-- A clause that starts on a line of its own. -/
def clauseFragments (depth : Nat) (word : String) (fs : List Fragment) : List Fragment :=
  lineEnd depth :: keyword word :: text " " :: fs

/-- A clause with a list, left out when the list is empty. -/
def listClause (depth : Nat) (word : String) (parts : List (List Fragment)) : List Fragment :=
  if parts.isEmpty then [] else clauseFragments depth word (joined [text ", "] parts)

/-- A statement in parentheses, from its fragments one level deeper. -/
def block (depth : Nat) (fs : List Fragment) : List Fragment :=
  text "(" :: edge (depth + 1) :: fs ++ [edge depth, text ")"]

mutual

/-- An expression at a nesting depth. In a condition, the operators of its outermost conjunction
are places where a line may end. -/
def Expr.fragments (depth : Nat) (condition : Bool) : Expr → List Fragment
  | .column c => dottedName c.path c.name
  | .star (some q) => [name q, text ".*"]
  | .star none => [text "*"]
  | .literal l => l.fragments
  | .param p => [param p]
  | .call n args distinct filter window =>
    function n :: text "(" :: (if distinct then [keyword "distinct", text " "] else [])
      ++ joined [text ", "] (exprFragments depth args) ++ [text ")"]
      ++ optionFragments depth false
        [text " ", keyword "filter", text " (", keyword "where", text " "] [text ")"] filter
      ++ overFragments depth window
  -- the right operand of AND is never part of the chain: it stands in parentheses if it is an AND
  | .binary l op r =>
    operand op.strength false l (l.fragments depth (condition && op == .and))
      ++ (if condition && op == .and then [conjunction depth] else op.fragments)
      ++ operand op.strength true r (r.fragments depth false)
  | .unary op e => op.fragments ++ operand op.strength false e (e.fragments depth false)
  | .isNull e negated =>
    operand strengthComparison false e (e.fragments depth false)
      ++ predicateWord "is null" "is not null" negated
  | .between e low high negated =>
    operand strengthComparison false e (e.fragments depth false)
      ++ predicateWord "between" "not between" negated ++ [text " "]
      ++ operand (strengthComparison + 1) false low (low.fragments depth false)
      ++ [text " ", keyword "and", text " "]
      ++ operand (strengthComparison + 1) false high (high.fragments depth false)
  | .inList e items negated =>
    operand strengthComparison false e (e.fragments depth false)
      ++ predicateWord "in" "not in" negated
      ++ text " (" :: joined [text ", "] (exprFragments depth items) ++ [text ")"]
  | .inQuery e s negated =>
    operand strengthComparison false e (e.fragments depth false)
      ++ predicateWord "in" "not in" negated ++ text " " :: block depth (s.fragments (depth + 1))
  | .hasRows s => keyword "exists" :: text " " :: block depth (s.fragments (depth + 1))
  | .subquery s => block depth (s.fragments (depth + 1))
  | .case scrutinee branches fallback =>
    keyword "case" :: optionFragments depth false [text " "] [] scrutinee
      ++ branchFragments depth branches
      ++ optionFragments depth false [text " ", keyword "else", text " "] [] fallback
      ++ [text " ", keyword "end"]
  | .cast e type true =>
    operand strengthCast false e (e.fragments depth false) ++ [text ("::" ++ type)]
  | .cast e type false =>
    keyword "cast" :: text "(" :: e.fragments depth false
      ++ [text " ", keyword "as", text (" " ++ type ++ ")")]
  | .paren e => inParens (e.fragments depth false)

/-- An expression between fragments of its own; nothing when there is none. -/
def optionFragments (depth : Nat) (condition : Bool) (before after : List Fragment) :
    Option Expr → List Fragment
  | some e => before ++ e.fragments depth condition ++ after
  | none => []

/-- Expressions, each by itself. -/
def exprFragments (depth : Nat) : List Expr → List (List Fragment)
  | [] => []
  | e :: es => e.fragments depth false :: exprFragments depth es

/-- The branches of a CASE. -/
def branchFragments (depth : Nat) : List Branch → List Fragment
  | [] => []
  | ⟨c, r⟩ :: bs =>
    text " " :: keyword "when" :: text " " :: c.fragments depth false
      ++ text " " :: keyword "then" :: text " " :: r.fragments depth false
      ++ branchFragments depth bs

/-- Sort keys, each by itself. -/
def orderFragments (depth : Nat) : List OrderItem → List (List Fragment)
  | [] => []
  | ⟨e, d, n⟩ :: os =>
    (e.fragments depth false ++ directionFragments d ++ nullsFragments n)
      :: orderFragments depth os

/-- A window between its parentheses. -/
def Window.fragments (depth : Nat) : Window → List Fragment
  | ⟨partitionBy, orderBy⟩ =>
    joined [text " "]
      ((if partitionBy.isEmpty then [] else
          [keyword "partition by" :: text " "
            :: joined [text ", "] (exprFragments depth partitionBy)])
        ++ (if orderBy.isEmpty then [] else
          [keyword "order by" :: text " " :: joined [text ", "] (orderFragments depth orderBy)]))

/-- The window of a call, when it has one. -/
def overFragments (depth : Nat) : Option Window → List Fragment
  | some w => text " " :: keyword "over" :: text " (" :: w.fragments depth ++ [text ")"]
  | none => []

/-- Select items, each by itself. -/
def itemFragments (depth : Nat) : List SelectItem → List (List Fragment)
  | [] => []
  | ⟨e, a⟩ :: is => (e.fragments depth false ++ alias? a) :: itemFragments depth is

/-- A source with its alias. -/
def Source.fragments (depth : Nat) : Source → List Fragment
  | .table path n a => dottedName path n ++ alias? a
  | .subquery s a => block depth (s.fragments (depth + 1)) ++ alias? (some a)

/-- The first source of a select, when it has one. -/
def fromFragments (depth : Nat) : Option Source → List Fragment
  | some s => clauseFragments depth "from" (s.fragments depth)
  | none => []

/-- What a join is restricted by. -/
def JoinConstraint.fragments (depth : Nat) : JoinConstraint → List Fragment
  | .on e => text " " :: keyword "on" :: text " " :: e.fragments depth true
  | .shared columns => text " " :: keyword "using" :: text " (" :: names columns ++ [text ")"]
  | .none => []

/-- The joins after a first source. -/
def joinFragments (depth : Nat) : List Join → List Fragment
  | [] => []
  | ⟨kind, right, constraint⟩ :: js =>
    (if kind = .comma then text ", " :: right.fragments depth
      else clauseFragments depth kind.keyword (right.fragments depth)
        ++ constraint.fragments depth)
      ++ joinFragments depth js

/-- A select, clause by clause. -/
def Select.fragments (depth : Nat) : Select → List Fragment
  | ⟨distinct, items, source, joins, filter, groupBy, having, orderBy, limit, offset⟩ =>
    keyword "select" :: (if distinct then [text " ", keyword "distinct"] else [])
      ++ text " " :: joined [comma depth] (itemFragments depth items)
      ++ fromFragments depth source
      ++ (if source.isSome then joinFragments depth joins else [])
      ++ optionFragments depth true (clauseFragments depth "where" []) [] filter
      ++ listClause depth "group by" (exprFragments depth groupBy)
      ++ optionFragments depth true (clauseFragments depth "having" []) [] having
      ++ listClause depth "order by" (orderFragments depth orderBy)
      ++ optionFragments depth false (clauseFragments depth "limit" []) [] limit
      ++ optionFragments depth false (clauseFragments depth "offset" []) [] offset

/-- The definitions of a WITH clause, each by itself. -/
def cteFragments (depth : Nat) : List Cte → List (List Fragment)
  | [] => []
  | ⟨n, columns, s⟩ :: cs =>
    (name n :: (if columns.isEmpty then [] else text " (" :: names columns ++ [text ")"])
      ++ text " " :: keyword "as" :: text " " :: block depth (s.fragments (depth + 1)))
      :: cteFragments depth cs

/-- A body. -/
def Body.fragments (depth : Nat) : Body → List Fragment
  | .select q => q.fragments depth
  | .setOp l op r =>
    l.fragments depth ++ [lineEnd depth, keyword op.keyword, lineEnd depth] ++ r.fragments depth
  | .nested s => block depth (s.fragments (depth + 1))

/-- A statement at a nesting depth. -/
def Statement.fragments (depth : Nat) : Statement → List Fragment
  | ⟨withClause, body⟩ =>
    (match withClause with
      | some ⟨recursive, ctes⟩ =>
        keyword "with" :: (if recursive then [text " ", keyword "recursive"] else [])
          ++ text " " :: joined [text ",", lineEnd depth] (cteFragments depth ctes)
          ++ [lineEnd depth]
      | none => [])
      ++ body.fragments depth

end

end Sql
