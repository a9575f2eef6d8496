import Sql.Statement

/-!
# Equality of trees

Two trees are the same when they have the same shape and the same leaves. The only leaf that is
not compared literally is the value of a parameter: objects with the same members in another order
are the same value.
-/

namespace Sql

/-- Both are absent, or both are there and related. -/
def sameOption {α : Type} (r : α → α → Bool) : Option α → Option α → Bool
  | some a, some b => r a b
  | none, none => true
  | _, _ => false

/-- The same parameter, bound to the same value. -/
def Param.same (a b : Param) : Bool := a.name == b.name && sameOption Value.same a.value b.value

mutual

/-- The same expression. -/
def Expr.same : Expr → Expr → Bool
  | .column a, .column b => a == b
  | .star a, .star b => a == b
  | .literal a, .literal b => a == b
  | .param a, .param b => a.same b
  | .call n as d f o, .call n' as' d' f' o' =>
    n == n' && sameExprs as as' && d == d' && sameExpr? f f' && sameWindow? o o'
  | .binary l op r, .binary l' op' r' => op == op' && l.same l' && r.same r'
  | .unary op e, .unary op' e' => op == op' && e.same e'
  | .isNull e n, .isNull e' n' => e.same e' && n == n'
  | .between e l h n, .between e' l' h' n' => e.same e' && l.same l' && h.same h' && n == n'
  | .inList e es n, .inList e' es' n' => e.same e' && sameExprs es es' && n == n'
  | .inQuery e s n, .inQuery e' s' n' => e.same e' && s.same s' && n == n'
  | .hasRows s, .hasRows s' => s.same s'
  | .subquery s, .subquery s' => s.same s'
  | .case o bs f, .case o' bs' f' => sameExpr? o o' && sameBranches bs bs' && sameExpr? f f'
  | .cast e t s, .cast e' t' s' => e.same e' && t == t' && s == s'
  | .paren e, .paren e' => e.same e'
  | _, _ => false

/-- The same expressions in the same order. -/
def sameExprs : List Expr → List Expr → Bool
  | [], [] => true
  | a :: as, b :: bs => a.same b && sameExprs as bs
  | _, _ => false

/-- The same optional expression. -/
def sameExpr? : Option Expr → Option Expr → Bool
  | some a, some b => a.same b
  | none, none => true
  | _, _ => false

/-- The same branches in the same order. -/
def sameBranches : List Branch → List Branch → Bool
  | [], [] => true
  | ⟨c, r⟩ :: as, ⟨c', r'⟩ :: bs => c.same c' && r.same r' && sameBranches as bs
  | _, _ => false

/-- The same sort keys in the same order. -/
def sameOrder : List OrderItem → List OrderItem → Bool
  | [], [] => true
  | ⟨e, d, n⟩ :: as, ⟨e', d', n'⟩ :: bs => e.same e' && d == d' && n == n' && sameOrder as bs
  | _, _ => false

/-- The same optional window. -/
def sameWindow? : Option Window → Option Window → Bool
  | some ⟨p, o⟩, some ⟨p', o'⟩ => sameExprs p p' && sameOrder o o'
  | none, none => true
  | _, _ => false

/-- The same select items in the same order. -/
def sameItems : List SelectItem → List SelectItem → Bool
  | [], [] => true
  | ⟨e, a⟩ :: as, ⟨e', a'⟩ :: bs => e.same e' && a == a' && sameItems as bs
  | _, _ => false

/-- The same source. -/
def Source.same : Source → Source → Bool
  | .table p n a, .table p' n' a' => p == p' && n == n' && a == a'
  | .subquery s a, .subquery s' a' => s.same s' && a == a'
  | _, _ => false

/-- The same optional source. -/
def sameSource? : Option Source → Option Source → Bool
  | some a, some b => a.same b
  | none, none => true
  | _, _ => false

/-- The same constraint. -/
def JoinConstraint.same : JoinConstraint → JoinConstraint → Bool
  | .on e, .on e' => e.same e'
  | .shared cs, .shared cs' => cs == cs'
  | .none, .none => true
  | _, _ => false

/-- The same joins in the same order. -/
def sameJoins : List Join → List Join → Bool
  | [], [] => true
  | ⟨k, r, c⟩ :: as, ⟨k', r', c'⟩ :: bs => k == k' && r.same r' && c.same c' && sameJoins as bs
  | _, _ => false

/-- The same select, clause by clause. -/
def Select.same : Select → Select → Bool
  | ⟨d, is, s, js, f, g, h, o, l, x⟩, ⟨d', is', s', js', f', g', h', o', l', x'⟩ =>
    d == d' && sameItems is is' && sameSource? s s' && sameJoins js js' && sameExpr? f f'
      && sameExprs g g' && sameExpr? h h' && sameOrder o o' && sameExpr? l l' && sameExpr? x x'

/-- The same definitions in the same order. -/
def sameCtes : List Cte → List Cte → Bool
  | [], [] => true
  | ⟨n, cs, s⟩ :: as, ⟨n', cs', s'⟩ :: bs => n == n' && cs == cs' && s.same s' && sameCtes as bs
  | _, _ => false

/-- The same optional WITH clause. -/
def sameWith? : Option With → Option With → Bool
  | some ⟨r, cs⟩, some ⟨r', cs'⟩ => r == r' && sameCtes cs cs'
  | none, none => true
  | _, _ => false

/-- The same body. -/
def Body.same : Body → Body → Bool
  | .select q, .select q' => q.same q'
  | .setOp l op r, .setOp l' op' r' => l.same l' && op == op' && r.same r'
  | .nested s, .nested s' => s.same s'
  | _, _ => false

/-- The same statement. -/
def Statement.same : Statement → Statement → Bool
  | ⟨w, b⟩, ⟨w', b'⟩ => sameWith? w w' && b.same b'

end

end Sql
