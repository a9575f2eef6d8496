import Sql.Format.Printer
import Sql.Proofs.MappedParams
import Sql.Proofs.Pieces
import Sql.Proofs.PrintedParams

/-!
# The tree that printed text is read as

A tree that was built rather than read may print parentheses that it does not have: around every
operand that binds too weakly. `Expr.reread` puts these parentheses into the tree and takes the
values of the parameters out of it, since a text has none. `Expr.bare` takes all parentheses away.

* `Expr.fragments_reread` and its neighbours: both trees print the same text.
* `Expr.bare_reread` and its neighbours: they differ by parentheses and values only.
-/

namespace Sql

/-- The parameter without its value. -/
def Param.unbound (p : Param) : Param := { p with value := none }

/-- An operand in the parentheses that it is printed in, if any. -/
def guarded (strength : Nat) (onRight : Bool) (e : Expr) : Expr :=
  if e.strength < strength || (onRight && e.strength == strength) then .paren e else e

/-! ## Parentheses put in -/

mutual

/-- The expression that the text of an expression is read as. -/
def Expr.reread : Expr → Expr
  | .column c => .column c
  | .star q => .star q
  | .literal l => .literal l
  | .param p => .param p.unbound
  | .call n args d filter window =>
    .call n (rereadList args) d (reread? filter) (rereadWindow? window)
  | .binary l op r =>
    .binary (guarded op.strength false l.reread) op (guarded op.strength true r.reread)
  | .unary op e => .unary op (guarded op.strength false e.reread)
  | .isNull e n => .isNull (guarded strengthComparison false e.reread) n
  | .between e l h n =>
    .between (guarded strengthComparison false e.reread)
      (guarded (strengthComparison + 1) false l.reread)
      (guarded (strengthComparison + 1) false h.reread) n
  | .inList e items n => .inList (guarded strengthComparison false e.reread) (rereadList items) n
  | .inQuery e s n => .inQuery (guarded strengthComparison false e.reread) s.reread n
  | .hasRows s => .hasRows s.reread
  | .subquery s => .subquery s.reread
  | .case o bs e => .case (reread? o) (rereadBranches bs) (reread? e)
  | .cast e t true => .cast (guarded strengthCast false e.reread) t true
  | .cast e t false => .cast e.reread t false
  | .paren e => .paren e.reread

/-- The expressions that the texts of expressions are read as. -/
def rereadList : List Expr → List Expr
  | [] => []
  | e :: es => e.reread :: rereadList es

/-- The same for an optional expression. -/
def reread? : Option Expr → Option Expr
  | some e => some e.reread
  | none => none

/-- The same for the branches of a CASE. -/
def rereadBranches : List Branch → List Branch
  | [] => []
  | ⟨c, r⟩ :: bs => ⟨c.reread, r.reread⟩ :: rereadBranches bs

/-- The same for sort keys. -/
def rereadOrder : List OrderItem → List OrderItem
  | [] => []
  | ⟨e, d, n⟩ :: os => ⟨e.reread, d, n⟩ :: rereadOrder os

/-- The same for an optional window. -/
def rereadWindow? : Option Window → Option Window
  | some ⟨p, o⟩ => some ⟨rereadList p, rereadOrder o⟩
  | none => none

/-- The same for select items. -/
def rereadItems : List SelectItem → List SelectItem
  | [] => []
  | ⟨e, a⟩ :: is => ⟨e.reread, a⟩ :: rereadItems is

/-- The same for a source. -/
def Source.reread : Source → Source
  | .table p n a => .table p n a
  | .subquery s a => .subquery s.reread a

/-- The same for an optional source. -/
def rereadSource? : Option Source → Option Source
  | some t => some t.reread
  | none => none

/-- The same for a constraint. -/
def JoinConstraint.reread : JoinConstraint → JoinConstraint
  | .on e => .on e.reread
  | .shared cs => .shared cs
  | .none => .none

/-- The same for joins. -/
def rereadJoins : List Join → List Join
  | [] => []
  | ⟨k, r, c⟩ :: js => ⟨k, r.reread, c.reread⟩ :: rereadJoins js

/-- The same for a select. -/
def Select.reread : Select → Select
  | ⟨d, is, s, js, w, g, h, o, l, x⟩ =>
    ⟨d, rereadItems is, rereadSource? s, rereadJoins js, reread? w, rereadList g, reread? h,
      rereadOrder o, reread? l, reread? x⟩

/-- The same for definitions. -/
def rereadCtes : List Cte → List Cte
  | [] => []
  | ⟨n, cs, s⟩ :: rest => ⟨n, cs, s.reread⟩ :: rereadCtes rest

/-- The same for an optional WITH clause. -/
def rereadWith? : Option With → Option With
  | some ⟨r, cs⟩ => some ⟨r, rereadCtes cs⟩
  | none => none

/-- The same for a body. -/
def Body.reread : Body → Body
  | .select q => .select q.reread
  | .setOp l op r => .setOp l.reread op r.reread
  | .nested s => .nested s.reread

/-- The statement that the text of a statement is read as. -/
def Statement.reread : Statement → Statement
  | ⟨w, b⟩ => ⟨rereadWith? w, b.reread⟩

end

/-! ## Parentheses taken away -/

mutual

/-- The expression without any parentheses around expressions. -/
def Expr.bare : Expr → Expr
  | .column c => .column c
  | .star q => .star q
  | .literal l => .literal l
  | .param p => .param p
  | .call n args d filter window => .call n (bareList args) d (bare? filter) (bareWindow? window)
  | .binary l op r => .binary l.bare op r.bare
  | .unary op e => .unary op e.bare
  | .isNull e n => .isNull e.bare n
  | .between e l h n => .between e.bare l.bare h.bare n
  | .inList e items n => .inList e.bare (bareList items) n
  | .inQuery e s n => .inQuery e.bare s.bare n
  | .hasRows s => .hasRows s.bare
  | .subquery s => .subquery s.bare
  | .case o bs e => .case (bare? o) (bareBranches bs) (bare? e)
  | .cast e t short => .cast e.bare t short
  | .paren e => e.bare

/-- The expressions without parentheses. -/
def bareList : List Expr → List Expr
  | [] => []
  | e :: es => e.bare :: bareList es

/-- An optional expression without parentheses. -/
def bare? : Option Expr → Option Expr
  | some e => some e.bare
  | none => none

/-- The branches of a CASE without parentheses. -/
def bareBranches : List Branch → List Branch
  | [] => []
  | ⟨c, r⟩ :: bs => ⟨c.bare, r.bare⟩ :: bareBranches bs

/-- Sort keys without parentheses. -/
def bareOrder : List OrderItem → List OrderItem
  | [] => []
  | ⟨e, d, n⟩ :: os => ⟨e.bare, d, n⟩ :: bareOrder os

/-- An optional window without parentheses. -/
def bareWindow? : Option Window → Option Window
  | some ⟨p, o⟩ => some ⟨bareList p, bareOrder o⟩
  | none => none

/-- Select items without parentheses. -/
def bareItems : List SelectItem → List SelectItem
  | [] => []
  | ⟨e, a⟩ :: is => ⟨e.bare, a⟩ :: bareItems is

/-- A source without parentheses around expressions. -/
def Source.bare : Source → Source
  | .table p n a => .table p n a
  | .subquery s a => .subquery s.bare a

/-- An optional source without parentheses around expressions. -/
def bareSource? : Option Source → Option Source
  | some t => some t.bare
  | none => none

/-- A constraint without parentheses. -/
def JoinConstraint.bare : JoinConstraint → JoinConstraint
  | .on e => .on e.bare
  | .shared cs => .shared cs
  | .none => .none

/-- Joins without parentheses around expressions. -/
def bareJoins : List Join → List Join
  | [] => []
  | ⟨k, r, c⟩ :: js => ⟨k, r.bare, c.bare⟩ :: bareJoins js

/-- A select without parentheses around expressions. -/
def Select.bare : Select → Select
  | ⟨d, is, s, js, w, g, h, o, l, x⟩ =>
    ⟨d, bareItems is, bareSource? s, bareJoins js, bare? w, bareList g, bare? h, bareOrder o,
      bare? l, bare? x⟩

/-- Definitions without parentheses around expressions. -/
def bareCtes : List Cte → List Cte
  | [] => []
  | ⟨n, cs, s⟩ :: rest => ⟨n, cs, s.bare⟩ :: bareCtes rest

/-- An optional WITH clause without parentheses around expressions. -/
def bareWith? : Option With → Option With
  | some ⟨r, cs⟩ => some ⟨r, bareCtes cs⟩
  | none => none

/-- A body without parentheses around expressions; those around operands of set operations stay. -/
def Body.bare : Body → Body
  | .select q => .select q.bare
  | .setOp l op r => .setOp l.bare op r.bare
  | .nested s => .nested s.bare

/-- A statement without parentheses around expressions. -/
def Statement.bare : Statement → Statement
  | ⟨w, b⟩ => ⟨bareWith? w, b.bare⟩

end

/-! ## Only parentheses and values differ -/

@[simp] theorem bare_guarded (strength : Nat) (onRight : Bool) (e : Expr) :
    (guarded strength onRight e).bare = e.bare := by
  unfold guarded
  split
  · rw [Expr.bare]
  · rfl

mutual

/-- **What is read differs from what was printed by parentheses and values only.** -/
theorem Expr.bare_reread : (e : Expr) → e.reread.bare = (e.mapParams Param.unbound).bare
  | .column _ | .star _ | .literal _ | .param _ => by
    simp [Expr.reread, Expr.mapParams, Expr.bare]
  | .call n args d filter window => by
    simp [Expr.reread, Expr.mapParams, Expr.bare, bareList_reread args, bare?_reread filter,
      bareWindow?_reread window]
  | .binary l op r => by
    simp [Expr.reread, Expr.mapParams, Expr.bare, Expr.bare_reread l, Expr.bare_reread r]
  | .unary op e => by simp [Expr.reread, Expr.mapParams, Expr.bare, Expr.bare_reread e]
  | .isNull e n => by simp [Expr.reread, Expr.mapParams, Expr.bare, Expr.bare_reread e]
  | .between e l h n => by
    simp [Expr.reread, Expr.mapParams, Expr.bare, Expr.bare_reread e, Expr.bare_reread l,
      Expr.bare_reread h]
  | .inList e items n => by
    simp [Expr.reread, Expr.mapParams, Expr.bare, Expr.bare_reread e, bareList_reread items]
  | .inQuery e s n => by
    simp [Expr.reread, Expr.mapParams, Expr.bare, Expr.bare_reread e, Statement.bare_reread s]
  | .hasRows s => by simp [Expr.reread, Expr.mapParams, Expr.bare, Statement.bare_reread s]
  | .subquery s => by simp [Expr.reread, Expr.mapParams, Expr.bare, Statement.bare_reread s]
  | .case o bs e => by
    simp [Expr.reread, Expr.mapParams, Expr.bare, bare?_reread o, bareBranches_reread bs,
      bare?_reread e]
  | .cast e t true => by simp [Expr.reread, Expr.mapParams, Expr.bare, Expr.bare_reread e]
  | .cast e t false => by simp [Expr.reread, Expr.mapParams, Expr.bare, Expr.bare_reread e]
  | .paren e => by simp [Expr.reread, Expr.mapParams, Expr.bare, Expr.bare_reread e]

theorem bareList_reread : (es : List Expr) →
    bareList (rereadList es) = bareList (mapParamsList Param.unbound es)
  | [] => rfl
  | e :: es => by
    simp [rereadList, mapParamsList, bareList, Expr.bare_reread e, bareList_reread es]

theorem bare?_reread : (o : Option Expr) → bare? (reread? o) = bare? (mapParams? Param.unbound o)
  | some e => by simp [reread?, mapParams?, bare?, Expr.bare_reread e]
  | none => rfl

theorem bareBranches_reread : (bs : List Branch) →
    bareBranches (rereadBranches bs) = bareBranches (mapParamsBranches Param.unbound bs)
  | [] => rfl
  | ⟨c, r⟩ :: bs => by
    simp [rereadBranches, mapParamsBranches, bareBranches, Expr.bare_reread c, Expr.bare_reread r,
      bareBranches_reread bs]

theorem bareOrder_reread : (os : List OrderItem) →
    bareOrder (rereadOrder os) = bareOrder (mapParamsOrder Param.unbound os)
  | [] => rfl
  | ⟨e, d, n⟩ :: os => by
    simp [rereadOrder, mapParamsOrder, bareOrder, Expr.bare_reread e, bareOrder_reread os]

theorem bareWindow?_reread : (w : Option Window) →
    bareWindow? (rereadWindow? w) = bareWindow? (mapParamsWindow? Param.unbound w)
  | some ⟨p, o⟩ => by
    simp [rereadWindow?, mapParamsWindow?, bareWindow?, bareList_reread p, bareOrder_reread o]
  | none => rfl

theorem bareItems_reread : (is : List SelectItem) →
    bareItems (rereadItems is) = bareItems (mapParamsItems Param.unbound is)
  | [] => rfl
  | ⟨e, a⟩ :: is => by
    simp [rereadItems, mapParamsItems, bareItems, Expr.bare_reread e, bareItems_reread is]

theorem Source.bare_reread : (t : Source) → t.reread.bare = (t.mapParams Param.unbound).bare
  | .table p n a => by simp [Source.reread, Source.mapParams, Source.bare]
  | .subquery s a => by
    simp [Source.reread, Source.mapParams, Source.bare, Statement.bare_reread s]

theorem bareSource?_reread : (t : Option Source) →
    bareSource? (rereadSource? t) = bareSource? (mapParamsSource? Param.unbound t)
  | some t => by simp [rereadSource?, mapParamsSource?, bareSource?, Source.bare_reread t]
  | none => rfl

theorem JoinConstraint.bare_reread : (c : JoinConstraint) →
    c.reread.bare = (c.mapParams Param.unbound).bare
  | .on e => by
    simp [JoinConstraint.reread, JoinConstraint.mapParams, JoinConstraint.bare, Expr.bare_reread e]
  | .shared _ | .none => by
    simp [JoinConstraint.reread, JoinConstraint.mapParams, JoinConstraint.bare]

theorem bareJoins_reread : (js : List Join) →
    bareJoins (rereadJoins js) = bareJoins (mapParamsJoins Param.unbound js)
  | [] => rfl
  | ⟨k, r, c⟩ :: js => by
    simp [rereadJoins, mapParamsJoins, bareJoins, Source.bare_reread r,
      JoinConstraint.bare_reread c, bareJoins_reread js]

theorem Select.bare_reread : (q : Select) → q.reread.bare = (q.mapParams Param.unbound).bare
  | ⟨d, is, s, js, w, g, h, o, l, x⟩ => by
    simp [Select.reread, Select.mapParams, Select.bare, bareItems_reread is,
      bareSource?_reread s, bareJoins_reread js, bare?_reread w, bareList_reread g,
      bare?_reread h, bareOrder_reread o, bare?_reread l, bare?_reread x]

theorem bareCtes_reread : (cs : List Cte) →
    bareCtes (rereadCtes cs) = bareCtes (mapParamsCtes Param.unbound cs)
  | [] => rfl
  | ⟨n, columns, s⟩ :: cs => by
    simp [rereadCtes, mapParamsCtes, bareCtes, Statement.bare_reread s, bareCtes_reread cs]

theorem bareWith?_reread : (w : Option With) →
    bareWith? (rereadWith? w) = bareWith? (mapParamsWith? Param.unbound w)
  | some ⟨r, cs⟩ => by simp [rereadWith?, mapParamsWith?, bareWith?, bareCtes_reread cs]
  | none => rfl

theorem Body.bare_reread : (b : Body) → b.reread.bare = (b.mapParams Param.unbound).bare
  | .select q => by simp [Body.reread, Body.mapParams, Body.bare, Select.bare_reread q]
  | .setOp l op r => by
    simp [Body.reread, Body.mapParams, Body.bare, Body.bare_reread l, Body.bare_reread r]
  | .nested s => by simp [Body.reread, Body.mapParams, Body.bare, Statement.bare_reread s]

theorem Statement.bare_reread : (s : Statement) →
    s.reread.bare = (s.mapParams Param.unbound).bare
  | ⟨w, b⟩ => by
    simp [Statement.reread, Statement.mapParams, Statement.bare, bareWith?_reread w,
      Body.bare_reread b]

end

/-! ## The text is the same -/

theorem Expr.strength_reread (e : Expr) : e.reread.strength = e.strength := by
  cases e with
  | cast e type short => cases short <;> simp [reread, strength]
  | unary op e => cases op <;> simp [reread, strength]
  | _ => simp [reread, strength]

namespace Fragment

/-- A parameter without its value; every other fragment as it is. -/
def unbound : Fragment → Fragment
  | param p => param p.unbound
  | f => f

theorem map_unbound_joined (separator : List Fragment) (parts : List (List Fragment)) :
    (joined separator parts).map unbound
      = joined (separator.map unbound) (parts.map fun fs => fs.map unbound) := by
  unfold joined
  induction parts with
  | nil => rfl
  | cons fs parts ih =>
    cases parts with
    | nil => simp
    | cons gs parts => simp_all [List.intercalate_cons_cons]

@[simp] theorem map_unbound_joined_text (s : String) (parts : List (List Fragment)) :
    (joined [text s] parts).map unbound = joined [text s] (parts.map fun fs => fs.map unbound) :=
  map_unbound_joined _ _

@[simp] theorem map_unbound_inParens (fs : List Fragment) :
    (inParens fs).map unbound = inParens (fs.map unbound) := by
  simp [inParens, unbound]

@[simp] theorem map_unbound_clauseFragments (depth : Nat) (word : String) (fs : List Fragment) :
    (clauseFragments depth word fs).map unbound = clauseFragments depth word (fs.map unbound) :=
  rfl

theorem map_unbound_listClause (depth : Nat) (word : String) (parts : List (List Fragment)) :
    (listClause depth word parts).map unbound
      = listClause depth word (parts.map fun fs => fs.map unbound) := by
  cases parts with
  | nil => rfl
  | cons fs parts => simp [listClause]

@[simp] theorem map_unbound_block (depth : Nat) (fs : List Fragment) :
    (block depth fs).map unbound = block depth (fs.map unbound) := by
  simp [block, unbound]

/-- Fragments without parameters stay. -/
theorem map_unbound_of_params {fs : List Fragment} (h : params fs = []) :
    fs.map unbound = fs := by
  induction fs with
  | nil => rfl
  | cons f fs ih =>
    cases f with
    | param p => simp at h
    | _ =>
      simp only [List.map_cons, unbound]
      rw [ih (by simpa using h)]

/-- Values do not show in a text. -/
theorem chars_map_unbound (config : DialectConfig) (fs : List Fragment) (rest : List Char) :
    chars config (fs.map unbound) rest = chars config fs rest := by
  induction fs with
  | nil => rfl
  | cons f fs ih =>
    rw [List.map_cons, chars_cons, chars_cons, ih]
    cases f <;> rfl

end Fragment

open Fragment

@[simp] theorem map_unbound_predicateWord (word negatedWord : String) (negated : Bool) :
    (predicateWord word negatedWord negated).map unbound
      = predicateWord word negatedWord negated :=
  map_unbound_of_params (params_predicateWord word negatedWord negated)

/-- Only the outermost conjunction of a condition is printed in a way of its own. -/
theorem Expr.fragments_of_weak {e : Expr} (h : e.strength < BinaryOp.and.strength) (depth : Nat)
    (condition : Bool) : e.fragments depth condition = e.fragments depth false := by
  cases e with
  | binary l op r =>
    have hop : (op == .and) = false := by
      cases op <;> first | rfl | simp [strength, BinaryOp.strength] at h
    rw [fragments, fragments, hop, Bool.and_false, Bool.and_false]
  | unary op e => cases op <;> simp [strength, BinaryOp.strength, strengthNot, strengthSign] at h
  | cast e type short => cases short <;> rw [fragments, fragments]
  | star q => cases q <;> rw [fragments, fragments]
  | _ => rw [fragments, fragments]

/-- An operand is printed in the parentheses that it has been given. -/
theorem operand_guarded {strength : Nat} (hstrength : strength < strengthAtom) (onRight : Bool)
    {e : Expr} {depth : Nat} {condition : Bool}
    (h : e.strength < strength ∨ onRight = true ∧ e.strength = strength →
      e.fragments depth condition = e.fragments depth false) :
    operand strength onRight (guarded strength onRight e)
        ((guarded strength onRight e).fragments depth condition)
      = operand strength onRight e (e.fragments depth condition) := by
  unfold guarded operand
  by_cases hweak : (decide (e.strength < strength) || (onRight && e.strength == strength)) = true
  · have hparen : (Expr.paren e).strength = strengthAtom := rfl
    have hatom : (decide (strengthAtom < strength)
        || (onRight && strengthAtom == strength)) = false := by
      have hne : strengthAtom ≠ strength := by omega
      simp [hne]
      omega
    rw [if_pos hweak, if_pos hweak, hparen, if_neg (by rw [hatom]; decide), Expr.fragments, h]
    simpa using hweak
  · rw [if_neg hweak, if_neg hweak]

theorem map_unbound_operand (strength : Nat) (onRight : Bool) (e : Expr) (fs : List Fragment) :
    (operand strength onRight e fs).map unbound = operand strength onRight e (fs.map unbound) := by
  unfold operand
  split
  · exact map_unbound_inParens fs
  · rfl

/-- An operand prints the same when it is reread. -/
theorem operand_reread {strength : Nat} (hstrength : strength < strengthAtom) (onRight : Bool)
    {e : Expr} {depth : Nat} {condition : Bool}
    (hcondition : condition = true → strength ≤ BinaryOp.and.strength ∧ onRight = false)
    (h : e.reread.fragments depth condition = (e.fragments depth condition).map unbound) :
    operand strength onRight (guarded strength onRight e.reread)
        ((guarded strength onRight e.reread).fragments depth condition)
      = (operand strength onRight e (e.fragments depth condition)).map unbound := by
  rw [operand_guarded hstrength, h, map_unbound_operand]
  · unfold operand
    rw [Expr.strength_reread]
  · intro hweak
    cases condition with
    | false => rfl
    | true =>
      obtain ⟨hle, rfl⟩ := hcondition rfl
      refine Expr.fragments_of_weak ?_ depth true
      rcases hweak with hlt | ⟨hright, -⟩
      · omega
      · exact absurd hright (by decide)

mutual

/-- **A tree and the one that its text is read as print the same**, values left out. -/
theorem Expr.fragments_reread (depth : Nat) (condition : Bool) : (e : Expr) →
    e.reread.fragments depth condition = (e.fragments depth condition).map unbound
  | .column c => by
    rw [Expr.reread, Expr.fragments, map_unbound_of_params (by simp)]
  | .star q => by
    cases q <;> simp [Expr.reread, Expr.fragments, unbound]
  | .literal l => by
    rw [Expr.reread, Expr.fragments, map_unbound_of_params (by simp)]
  | .param p => by simp [Expr.reread, Expr.fragments, unbound]
  | .call n args d filter window => by
    rw [Expr.reread, Expr.fragments, Expr.fragments, exprFragments_reread depth args,
      optionFragments_reread depth false (by simp) (by simp) filter,
      overFragments_reread depth window]
    cases d <;> simp [unbound]
  | .binary l op r => by
    have hatom : op.strength < strengthAtom := by cases op <;> decide
    rw [Expr.reread, Expr.fragments, Expr.fragments,
      operand_reread hatom false (by cases op <;> simp [BinaryOp.strength])
        (Expr.fragments_reread depth _ l),
      operand_reread hatom true (by simp) (Expr.fragments_reread depth false r)]
    simp only [List.map_append]
    congr 2
    split
    · rfl
    · exact (map_unbound_of_params (by simp)).symm
  | .unary op e => by
    have hatom : op.strength < strengthAtom := by cases op <;> decide
    rw [Expr.reread, Expr.fragments, Expr.fragments,
      operand_reread hatom false (by simp) (Expr.fragments_reread depth false e)]
    simp [map_unbound_of_params]
  | .isNull e n => by
    rw [Expr.reread, Expr.fragments, Expr.fragments,
      operand_reread (by decide) false (by simp) (Expr.fragments_reread depth false e)]
    simp
  | .between e l h n => by
    rw [Expr.reread, Expr.fragments, Expr.fragments,
      operand_reread (by decide) false (by simp) (Expr.fragments_reread depth false e),
      operand_reread (by decide) false (by simp) (Expr.fragments_reread depth false l),
      operand_reread (by decide) false (by simp) (Expr.fragments_reread depth false h)]
    simp [unbound]
  | .inList e items n => by
    rw [Expr.reread, Expr.fragments, Expr.fragments,
      operand_reread (by decide) false (by simp) (Expr.fragments_reread depth false e),
      exprFragments_reread depth items]
    simp [unbound]
  | .inQuery e s n => by
    rw [Expr.reread, Expr.fragments, Expr.fragments,
      operand_reread (by decide) false (by simp) (Expr.fragments_reread depth false e),
      Statement.fragments_reread (depth + 1) s]
    simp [unbound]
  | .hasRows s => by
    rw [Expr.reread, Expr.fragments, Expr.fragments, Statement.fragments_reread (depth + 1) s]
    simp [unbound]
  | .subquery s => by
    rw [Expr.reread, Expr.fragments, Expr.fragments, Statement.fragments_reread (depth + 1) s]
    simp
  | .case o bs e => by
    rw [Expr.reread, Expr.fragments, Expr.fragments,
      optionFragments_reread depth false (by simp) (by simp) o,
      branchFragments_reread depth bs, optionFragments_reread depth false (by simp) (by simp) e]
    simp [unbound]
  | .cast e t true => by
    rw [Expr.reread, Expr.fragments, Expr.fragments,
      operand_reread (by decide) false (by simp) (Expr.fragments_reread depth false e)]
    simp [unbound]
  | .cast e t false => by
    rw [Expr.reread, Expr.fragments, Expr.fragments, Expr.fragments_reread depth false e]
    simp [unbound]
  | .paren e => by
    rw [Expr.reread, Expr.fragments, Expr.fragments, Expr.fragments_reread depth false e,
      map_unbound_inParens]

theorem optionFragments_reread (depth : Nat) (condition : Bool) {before after : List Fragment}
    (hbefore : params before = []) (hafter : params after = []) : (o : Option Expr) →
    optionFragments depth condition before after (reread? o)
      = (optionFragments depth condition before after o).map unbound
  | some e => by
    rw [reread?, optionFragments, optionFragments, Expr.fragments_reread depth condition e]
    simp [map_unbound_of_params hbefore, map_unbound_of_params hafter]
  | none => rfl

theorem exprFragments_reread (depth : Nat) : (es : List Expr) →
    exprFragments depth (rereadList es) = (exprFragments depth es).map fun fs => fs.map unbound
  | [] => rfl
  | e :: es => by
    rw [rereadList, exprFragments, exprFragments, Expr.fragments_reread depth false e,
      exprFragments_reread depth es, List.map_cons]

theorem branchFragments_reread (depth : Nat) : (bs : List Branch) →
    branchFragments depth (rereadBranches bs) = (branchFragments depth bs).map unbound
  | [] => rfl
  | ⟨c, r⟩ :: bs => by
    rw [rereadBranches, branchFragments, branchFragments, Expr.fragments_reread depth false c,
      Expr.fragments_reread depth false r, branchFragments_reread depth bs]
    simp [unbound]

theorem orderFragments_reread (depth : Nat) : (os : List OrderItem) →
    orderFragments depth (rereadOrder os) = (orderFragments depth os).map fun fs => fs.map unbound
  | [] => rfl
  | ⟨e, d, n⟩ :: os => by
    rw [rereadOrder, orderFragments, orderFragments, Expr.fragments_reread depth false e,
      orderFragments_reread depth os]
    simp [map_unbound_of_params]

theorem overFragments_reread (depth : Nat) : (w : Option Window) →
    overFragments depth (rereadWindow? w) = (overFragments depth w).map unbound
  | some ⟨p, o⟩ => by
    rw [rereadWindow?, overFragments, overFragments, Window.fragments, Window.fragments,
      exprFragments_reread depth p, orderFragments_reread depth o]
    have hp : (rereadList p).isEmpty = p.isEmpty := by cases p <;> simp [rereadList]
    have ho : (rereadOrder o).isEmpty = o.isEmpty := by
      rcases o with _ | ⟨⟨e, d, n⟩, o⟩ <;> simp [rereadOrder]
    rw [hp, ho]
    cases p.isEmpty <;> cases o.isEmpty <;> simp [unbound]
  | none => rfl

theorem itemFragments_reread (depth : Nat) : (is : List SelectItem) →
    itemFragments depth (rereadItems is) = (itemFragments depth is).map fun fs => fs.map unbound
  | [] => rfl
  | ⟨e, a⟩ :: is => by
    rw [rereadItems, itemFragments, itemFragments, Expr.fragments_reread depth false e,
      itemFragments_reread depth is]
    simp [map_unbound_of_params]

theorem Source.fragments_reread (depth : Nat) : (t : Source) →
    t.reread.fragments depth = (t.fragments depth).map unbound
  | .table p n a => by
    rw [Source.reread, Source.fragments, map_unbound_of_params (by simp)]
  | .subquery s a => by
    rw [Source.reread, Source.fragments, Source.fragments,
      Statement.fragments_reread (depth + 1) s]
    simp [map_unbound_of_params]

theorem fromFragments_reread (depth : Nat) : (t : Option Source) →
    fromFragments depth (rereadSource? t) = (fromFragments depth t).map unbound
  | some t => by
    rw [rereadSource?, fromFragments, fromFragments, Source.fragments_reread depth t]
    simp
  | none => rfl

theorem JoinConstraint.fragments_reread (depth : Nat) : (c : JoinConstraint) →
    c.reread.fragments depth = (c.fragments depth).map unbound
  | .on e => by
    rw [JoinConstraint.reread, JoinConstraint.fragments, JoinConstraint.fragments,
      Expr.fragments_reread depth true e]
    simp [unbound]
  | .shared cs => by
    rw [JoinConstraint.reread, JoinConstraint.fragments, map_unbound_of_params (by simp)]
  | .none => by
    rw [JoinConstraint.reread, JoinConstraint.fragments]
    rfl

theorem joinFragments_reread (depth : Nat) : (js : List Join) →
    joinFragments depth (rereadJoins js) = (joinFragments depth js).map unbound
  | [] => rfl
  | ⟨k, r, c⟩ :: js => by
    rw [rereadJoins, joinFragments, joinFragments, Source.fragments_reread depth r,
      JoinConstraint.fragments_reread depth c, joinFragments_reread depth js]
    split <;> simp [unbound]

theorem Select.fragments_reread (depth : Nat) : (q : Select) →
    q.reread.fragments depth = (q.fragments depth).map unbound
  | ⟨d, is, s, js, w, g, h, o, l, x⟩ => by
    have hsource : (rereadSource? s).isSome = s.isSome := by cases s <;> rfl
    rw [Select.reread, Select.fragments, Select.fragments, itemFragments_reread depth is,
      fromFragments_reread depth s, hsource, joinFragments_reread depth js,
      optionFragments_reread depth true (by simp) (by simp) w, exprFragments_reread depth g,
      optionFragments_reread depth true (by simp) (by simp) h, orderFragments_reread depth o,
      optionFragments_reread depth false (by simp) (by simp) l,
      optionFragments_reread depth false (by simp) (by simp) x]
    cases d <;> cases s <;> simp [unbound, map_unbound_listClause, map_unbound_joined]

theorem cteFragments_reread (depth : Nat) : (cs : List Cte) →
    cteFragments depth (rereadCtes cs) = (cteFragments depth cs).map fun fs => fs.map unbound
  | [] => rfl
  | ⟨n, columns, s⟩ :: cs => by
    rw [rereadCtes, cteFragments, cteFragments, Statement.fragments_reread (depth + 1) s,
      cteFragments_reread depth cs]
    cases columns <;> simp [unbound, map_unbound_of_params]

theorem Body.fragments_reread (depth : Nat) : (b : Body) →
    b.reread.fragments depth = (b.fragments depth).map unbound
  | .select q => by
    rw [Body.reread, Body.fragments, Body.fragments, Select.fragments_reread depth q]
  | .setOp l op r => by
    rw [Body.reread, Body.fragments, Body.fragments, Body.fragments_reread depth l,
      Body.fragments_reread depth r]
    simp [unbound]
  | .nested s => by
    rw [Body.reread, Body.fragments, Body.fragments, Statement.fragments_reread (depth + 1) s,
      map_unbound_block]

theorem Statement.fragments_reread (depth : Nat) : (s : Statement) →
    s.reread.fragments depth = (s.fragments depth).map unbound
  | ⟨some ⟨r, cs⟩, b⟩ => by
    rw [Statement.reread, rereadWith?, Statement.fragments, Statement.fragments,
      cteFragments_reread depth cs, Body.fragments_reread depth b]
    cases r <;> simp [unbound, map_unbound_joined]
  | ⟨none, b⟩ => by
    rw [Statement.reread, rereadWith?, Statement.fragments, Statement.fragments,
      Body.fragments_reread depth b]
    rfl

end

end Sql
