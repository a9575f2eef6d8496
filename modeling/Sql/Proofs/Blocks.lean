import Sql.Format.Printer

/-!
# Edges of blocks

A place where a line may end at the inner edge of a parenthesis is printed only there: behind the
parenthesis that opens a nested statement and before the one that closes it (`Blocks`). The
fragments of every tree are of this kind (`Statement.blocks_fragments`), well formed or not.
-/

namespace Sql

open Fragment

/-- The inner edge of a parenthesis. -/
def Fragment.isEdge : Fragment → Bool
  | edge _ => true
  | _ => false

/-- Edges come in pairs, on the inner sides of a pair of parentheses. -/
inductive Blocks : List Fragment → Prop
  | nil : Blocks []
  | cons {f : Fragment} {fs : List Fragment} : f.isEdge = false → Blocks fs → Blocks (f :: fs)
  | block {fs gs : List Fragment} (depth : Nat) :
      Blocks fs → Blocks gs → Blocks (block depth fs ++ gs)

namespace Blocks

variable {fs gs : List Fragment}

/-- Nothing is asked of fragments that are no edges. -/
theorem plain (h : fs.all (fun f => !f.isEdge) = true) : Blocks fs := by
  induction fs with
  | nil => exact .nil
  | cons f fs ih =>
    rw [List.all_cons, Bool.and_eq_true, Bool.not_eq_true'] at h
    exact .cons h.1 (ih h.2)

theorem append (hf : Blocks fs) (hg : Blocks gs) : Blocks (fs ++ gs) := by
  induction hf with
  | nil => exact hg
  | cons hedge _ ih => exact .cons hedge ih
  | block depth hinner _ _ ih =>
    rw [List.append_assoc]
    exact .block depth hinner ih

theorem nested (h : Blocks fs) (depth : Nat) : Blocks (Sql.block depth fs) := by
  simpa using Blocks.block depth h .nil

theorem inParens (h : Blocks fs) : Blocks (inParens fs) := append (.cons rfl h) (plain rfl)

theorem joined {separator : List Fragment} (hs : Blocks separator) {parts : List (List Fragment)}
    (hparts : ∀ fs ∈ parts, Blocks fs) : Blocks (joined separator parts) := by
  unfold Fragment.joined
  induction parts with
  | nil => exact .nil
  | cons fs parts ih =>
    rw [List.forall_mem_cons] at hparts
    cases parts with
    | nil => simpa using hparts.1
    | cons gs parts =>
      rw [List.intercalate_cons_cons]
      exact (hparts.1.append hs).append (ih hparts.2)

theorem operand (h : Blocks fs) (strength : Nat) (onRight : Bool) (e : Expr) :
    Blocks (operand strength onRight e fs) := by
  unfold Sql.operand
  split
  · exact h.inParens
  · exact h

theorem clause (h : Blocks fs) (depth : Nat) (word : String) :
    Blocks (clauseFragments depth word fs) :=
  append (plain rfl : Blocks [lineEnd depth, keyword word, text " "]) h

theorem listClause (depth : Nat) (word : String) {parts : List (List Fragment)}
    (h : ∀ fs ∈ parts, Blocks fs) : Blocks (listClause depth word parts) := by
  unfold Sql.listClause
  split
  · exact .nil
  · exact (joined (plain rfl) h).clause depth word

theorem names (ns : List String) : Blocks (names ns) :=
  joined (plain rfl) (List.forall_mem_map.mpr fun _ _ => plain rfl)

theorem dottedName (path : List String) (n : String) : Blocks (dottedName path n) :=
  joined (plain rfl) (List.forall_mem_map.mpr fun _ _ => plain rfl)

theorem alias? (a : Option String) : Blocks (alias? a) := by
  cases a <;> exact plain rfl

theorem literal (l : Literal) : Blocks l.fragments := by
  cases l with
  | boolean b => cases b <;> exact plain rfl
  | _ => exact plain rfl

theorem binaryOp (op : BinaryOp) : Blocks op.fragments := by
  cases op <;> exact plain rfl

theorem unaryOp (op : UnaryOp) : Blocks op.fragments := by
  cases op <;> exact plain rfl

theorem directionFragments (d : Option SortDirection) : Blocks (directionFragments d) := by
  rcases d with _ | _ | _ <;> exact plain rfl

theorem nullsFragments (n : Option NullsOrder) : Blocks (nullsFragments n) := by
  rcases n with _ | _ | _ <;> exact plain rfl

/-- Items with commas between them. -/
theorem commaList {parts : List (List Fragment)} (h : ∀ fs ∈ parts, Blocks fs) :
    Blocks (Fragment.joined [text ", "] parts) :=
  joined (plain rfl) h

end Blocks

/-! ## Every tree -/

mutual

theorem Expr.blocks_fragments (depth : Nat) (condition : Bool) :
    (e : Expr) → Blocks (e.fragments depth condition)
  | .column c => by
    rw [Expr.fragments]
    exact .dottedName c.path c.name
  | .star q => by cases q <;> exact .plain rfl
  | .literal l => by
    rw [Expr.fragments]
    exact .literal l
  | .param p => by
    rw [Expr.fragments]
    exact .plain rfl
  | .call n args distinct filter window => by
    have hhead : Blocks (function n :: text "("
        :: if distinct then [keyword "distinct", text " "] else []) := by
      cases distinct <;> exact .plain rfl
    have hargs := Blocks.commaList (blocks_exprFragments depth args)
    have hbefore : Blocks [text " ", keyword "filter", text " (", keyword "where", text " "] :=
      .plain rfl
    have hafter : Blocks [text ")"] := .plain rfl
    have hfilter := blocks_optionFragments depth false hbefore hafter filter
    rw [Expr.fragments]
    exact (((hhead.append hargs).append (.plain rfl)).append hfilter).append
      (blocks_overFragments depth window)
  | .binary l op r => by
    have hop : Blocks (if condition && op == .and then [conjunction depth] else op.fragments) := by
      split
      · exact .plain rfl
      · exact .binaryOp op
    have hl := l.blocks_fragments depth (condition && op == .and)
    have hr := r.blocks_fragments depth false
    rw [Expr.fragments]
    exact ((hl.operand op.strength false l).append hop).append (hr.operand op.strength true r)
  | .unary op e => by
    rw [Expr.fragments]
    exact (Blocks.unaryOp op).append ((e.blocks_fragments depth false).operand op.strength false e)
  | .isNull e negated => by
    rw [Expr.fragments]
    exact ((e.blocks_fragments depth false).operand strengthComparison false e).append (.plain rfl)
  | .between e low high negated => by
    have he := (e.blocks_fragments depth false).operand strengthComparison false e
    have hlow := (low.blocks_fragments depth false).operand (strengthComparison + 1) false low
    have hhigh := (high.blocks_fragments depth false).operand (strengthComparison + 1) false high
    rw [Expr.fragments]
    exact ((((he.append (.plain rfl)).append (.plain rfl)).append hlow).append (.plain rfl)).append
      hhigh
  | .inList e items negated => by
    have he := (e.blocks_fragments depth false).operand strengthComparison false e
    have hitems := Blocks.commaList (blocks_exprFragments depth items)
    rw [Expr.fragments]
    exact ((he.append (.plain rfl)).append (.cons rfl hitems)).append (.plain rfl)
  | .inQuery e s negated => by
    have he := (e.blocks_fragments depth false).operand strengthComparison false e
    have hs := (s.blocks_fragments (depth + 1)).nested depth
    rw [Expr.fragments]
    exact (he.append (.plain rfl)).append (.cons rfl hs)
  | .hasRows s => by
    rw [Expr.fragments]
    exact .cons rfl (.cons rfl ((s.blocks_fragments (depth + 1)).nested depth))
  | .subquery s => by
    rw [Expr.fragments]
    exact (s.blocks_fragments (depth + 1)).nested depth
  | .case scrutinee branches fallback => by
    have hspace : Blocks [text " "] := .plain rfl
    have helse : Blocks [text " ", keyword "else", text " "] := .plain rfl
    have hs := blocks_optionFragments depth false hspace .nil scrutinee
    have hf := blocks_optionFragments depth false helse .nil fallback
    rw [Expr.fragments]
    exact (((Blocks.cons rfl hs).append (blocks_branchFragments depth branches)).append hf).append
      (.plain rfl)
  | .cast e type true => by
    rw [Expr.fragments]
    exact ((e.blocks_fragments depth false).operand strengthCast false e).append (.plain rfl)
  | .cast e type false => by
    rw [Expr.fragments]
    exact (Blocks.cons rfl (.cons rfl (e.blocks_fragments depth false))).append (.plain rfl)
  | .paren e => by
    rw [Expr.fragments]
    exact (e.blocks_fragments depth false).inParens

theorem blocks_optionFragments (depth : Nat) (condition : Bool) {before after : List Fragment}
    (hb : Blocks before) (ha : Blocks after) :
    (e : Option Expr) → Blocks (optionFragments depth condition before after e)
  | some e => by
    rw [optionFragments]
    exact (hb.append (e.blocks_fragments depth condition)).append ha
  | none => by
    rw [optionFragments]
    exact .nil

theorem blocks_exprFragments (depth : Nat) :
    (es : List Expr) → ∀ fs ∈ exprFragments depth es, Blocks fs
  | [] => by simp [exprFragments]
  | e :: es => by
    rw [exprFragments, List.forall_mem_cons]
    exact ⟨e.blocks_fragments depth false, blocks_exprFragments depth es⟩

theorem blocks_branchFragments (depth : Nat) :
    (bs : List Branch) → Blocks (branchFragments depth bs)
  | [] => by
    rw [branchFragments]
    exact .nil
  | ⟨c, r⟩ :: bs => by
    have hc := c.blocks_fragments depth false
    have hr := r.blocks_fragments depth false
    rw [branchFragments]
    exact ((Blocks.cons rfl (.cons rfl (.cons rfl hc))).append
      (.cons rfl (.cons rfl (.cons rfl hr)))).append (blocks_branchFragments depth bs)

theorem blocks_orderFragments (depth : Nat) :
    (os : List OrderItem) → ∀ fs ∈ orderFragments depth os, Blocks fs
  | [] => by simp [orderFragments]
  | ⟨e, d, n⟩ :: os => by
    rw [orderFragments, List.forall_mem_cons]
    exact ⟨((e.blocks_fragments depth false).append (.directionFragments d)).append
      (.nullsFragments n), blocks_orderFragments depth os⟩

theorem Window.blocks_fragments (depth : Nat) : (w : Window) → Blocks (w.fragments depth)
  | ⟨partitionBy, orderBy⟩ => by
    have hp := Blocks.commaList (blocks_exprFragments depth partitionBy)
    have ho := Blocks.commaList (blocks_orderFragments depth orderBy)
    rw [Window.fragments]
    refine Blocks.joined (.plain rfl) (List.forall_mem_append.mpr ⟨?_, ?_⟩)
    · split
      · simp
      · exact List.forall_mem_singleton.mpr (.cons rfl (.cons rfl hp))
    · split
      · simp
      · exact List.forall_mem_singleton.mpr (.cons rfl (.cons rfl ho))

theorem blocks_overFragments (depth : Nat) :
    (w : Option Window) → Blocks (overFragments depth w)
  | some w => by
    rw [overFragments]
    exact (Blocks.cons rfl (.cons rfl (.cons rfl (w.blocks_fragments depth)))).append (.plain rfl)
  | none => by
    rw [overFragments]
    exact .nil

theorem blocks_itemFragments (depth : Nat) :
    (is : List SelectItem) → ∀ fs ∈ itemFragments depth is, Blocks fs
  | [] => by simp [itemFragments]
  | ⟨e, a⟩ :: is => by
    rw [itemFragments, List.forall_mem_cons]
    exact ⟨(e.blocks_fragments depth false).append (.alias? a), blocks_itemFragments depth is⟩

theorem Source.blocks_fragments (depth : Nat) : (t : Source) → Blocks (t.fragments depth)
  | .table path n a => by
    rw [Source.fragments]
    exact (Blocks.dottedName path n).append (.alias? a)
  | .subquery s a => by
    rw [Source.fragments]
    exact ((s.blocks_fragments (depth + 1)).nested depth).append (.alias? (some a))

theorem blocks_fromFragments (depth : Nat) :
    (t : Option Source) → Blocks (fromFragments depth t)
  | some t => by
    rw [fromFragments]
    exact (t.blocks_fragments depth).clause depth "from"
  | none => by
    rw [fromFragments]
    exact .nil

theorem JoinConstraint.blocks_fragments (depth : Nat) :
    (c : JoinConstraint) → Blocks (c.fragments depth)
  | .on e => by
    rw [JoinConstraint.fragments]
    exact .cons rfl (.cons rfl (.cons rfl (e.blocks_fragments depth true)))
  | .shared columns => by
    rw [JoinConstraint.fragments]
    exact (Blocks.cons rfl (.cons rfl (.cons rfl (.names columns)))).append (.plain rfl)
  | .none => by
    rw [JoinConstraint.fragments]
    exact .nil

theorem blocks_joinFragments (depth : Nat) : (js : List Join) → Blocks (joinFragments depth js)
  | [] => by
    rw [joinFragments]
    exact .nil
  | ⟨kind, right, constraint⟩ :: js => by
    have hr := right.blocks_fragments depth
    rw [joinFragments]
    refine Blocks.append ?_ (blocks_joinFragments depth js)
    split
    · exact .cons rfl hr
    · exact (hr.clause depth kind.keyword).append (constraint.blocks_fragments depth)

theorem Select.blocks_fragments (depth : Nat) : (q : Select) → Blocks (q.fragments depth)
  | ⟨distinct, items, source, joins, filter, groupBy, having, orderBy, limit, offset⟩ => by
    have hhead : Blocks (keyword "select"
        :: if distinct then [text " ", keyword "distinct"] else []) := by
      cases distinct <;> exact .plain rfl
    have hi : Blocks (text " " :: joined [comma depth] (itemFragments depth items)) :=
      .cons rfl (.joined (.plain rfl) (blocks_itemFragments depth items))
    have hj : Blocks (if source.isSome then joinFragments depth joins else []) := by
      split
      · exact blocks_joinFragments depth joins
      · exact .nil
    have hclause : ∀ word, Blocks (clauseFragments depth word []) :=
      fun word => Blocks.nil.clause depth word
    have hw := blocks_optionFragments depth true (hclause "where") .nil filter
    have hg := Blocks.listClause depth "group by" (blocks_exprFragments depth groupBy)
    have hh := blocks_optionFragments depth true (hclause "having") .nil having
    have ho := Blocks.listClause depth "order by" (blocks_orderFragments depth orderBy)
    have hl := blocks_optionFragments depth false (hclause "limit") .nil limit
    have hf := blocks_optionFragments depth false (hclause "offset") .nil offset
    rw [Select.fragments]
    exact ((((((((hhead.append hi).append (blocks_fromFragments depth source)).append hj).append
      hw).append hg).append hh).append ho).append hl).append hf

theorem blocks_cteFragments (depth : Nat) :
    (cs : List Cte) → ∀ fs ∈ cteFragments depth cs, Blocks fs
  | [] => by simp [cteFragments]
  | ⟨n, columns, s⟩ :: cs => by
    have hcolumns : Blocks (if columns.isEmpty then [] else text " (" :: names columns
        ++ [text ")"]) := by
      split
      · exact .nil
      · exact (Blocks.cons rfl (.names columns)).append (.plain rfl)
    have hs := (s.blocks_fragments (depth + 1)).nested depth
    rw [cteFragments, List.forall_mem_cons]
    exact ⟨(Blocks.cons rfl hcolumns).append (.cons rfl (.cons rfl (.cons rfl hs))),
      blocks_cteFragments depth cs⟩

theorem Body.blocks_fragments (depth : Nat) : (b : Body) → Blocks (b.fragments depth)
  | .select q => by
    rw [Body.fragments]
    exact q.blocks_fragments depth
  | .setOp l op r => by
    rw [Body.fragments]
    exact ((l.blocks_fragments depth).append (.plain rfl)).append (r.blocks_fragments depth)
  | .nested s => by
    rw [Body.fragments]
    exact (s.blocks_fragments (depth + 1)).nested depth

/-- **Every tree prints its edges inside parentheses.** -/
theorem Statement.blocks_fragments (depth : Nat) : (s : Statement) → Blocks (s.fragments depth)
  | ⟨none, body⟩ => by
    rw [Statement.fragments]
    exact body.blocks_fragments depth
  | ⟨some ⟨recursive, ctes⟩, body⟩ => by
    have hhead : Blocks (keyword "with"
        :: if recursive then [text " ", keyword "recursive"] else []) := by
      cases recursive <;> exact .plain rfl
    have hctes : Blocks (joined [text ",", lineEnd depth] (cteFragments depth ctes)) :=
      .joined (.plain rfl) (blocks_cteFragments depth ctes)
    rw [Statement.fragments]
    exact ((hhead.append (.cons rfl hctes)).append (.plain rfl)).append
      (body.blocks_fragments depth)

end

end Sql
