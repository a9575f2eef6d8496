import Mathlib.Data.List.Nodup
import Sql.Proofs.Places
import Sql.Statement.Walk

/-!
# Places of a whole tree

Paths into a tree that enter expressions too. A step goes to a part that a field of a node holds, so
what stands where does not depend on the lists that walks go by (`Expr.children`, `Select.exprs`,
`Select.sources`); that these lists leave no field out and repeat none is proved
(`TreePart.lists_below`).

* `Lists`: a list that has what a function yields, once for each index.
* `TreePart.all`: a part of a tree and everything below it.
* `TreePart.exists_places`: each of them stands at a place of its own, and all places are among
  these, each before those below it.
-/

namespace Sql

variable {ι κ α β : Type}

/-! ## Lists of values -/

/-- The list has the values of the function at the indices that satisfy `D`, one for each index. -/
def Lists (D : ι → Prop) (g : ι → Option α) (xs : List α) : Prop :=
  ∃ is : List ι, is.Nodup ∧ (∀ i, i ∈ is ↔ D i ∧ g i ≠ none) ∧ is.map g = xs.map some

section

variable {D D' : ι → Prop} {g : ι → Option α} {xs ys : List α}

theorem Lists.congr (h : Lists D g xs) (hD : ∀ i, g i ≠ none → (D i ↔ D' i)) : Lists D' g xs := by
  obtain ⟨is, hnodup, hmem, hmap⟩ := h
  refine ⟨is, hnodup, fun i => (hmem i).trans ?_, hmap⟩
  exact and_congr_left (hD i)

theorem Lists.all (h : Lists D g xs) (hD : ∀ i, g i ≠ none → D i) : Lists (fun _ => True) g xs :=
  h.congr fun i hi => ⟨fun _ => trivial, fun _ => hD i hi⟩

theorem lists_nil (h : ∀ i, ¬ D i) : Lists D g [] :=
  ⟨[], List.nodup_nil, fun i => by simp [h i], rfl⟩

theorem lists_option {i : ι} {o : Option α} (h : g i = o) : Lists (· = i) g o.toList := by
  subst h
  cases hg : g i with
  | none =>
    refine ⟨[], List.nodup_nil, fun j => ?_, rfl⟩
    simpa using fun hj : j = i => hj ▸ hg
  | some a =>
    refine ⟨[i], List.nodup_singleton i, fun j => ?_, by simp [hg]⟩
    simpa using fun hj : j = i => by simp [hj, hg]

theorem Lists.append (h : Lists D g xs) (h' : Lists D' g ys) (hdisjoint : ∀ i, D i → ¬ D' i) :
    Lists (fun i => D i ∨ D' i) g (xs ++ ys) := by
  obtain ⟨is, hnodup, hmem, hmap⟩ := h
  obtain ⟨js, hnodup', hmem', hmap'⟩ := h'
  refine ⟨is ++ js, List.nodup_append.mpr ⟨hnodup, hnodup', ?_⟩, fun i => ?_, ?_⟩
  · rintro i hi _ hj rfl
    exact hdisjoint i ((hmem i).mp hi).1 ((hmem' i).mp hj).1
  · rw [List.mem_append, hmem, hmem', or_and_right]
  · rw [List.map_append, List.map_append, hmap, hmap']

/-- What the elements of a list contribute, when each of them has indices of its own. -/
theorem lists_flatMap {zs : List β} {D : Nat → ι → Prop} {f : β → List α}
    (h : ∀ k z, zs[k]? = some z → Lists (D k) g (f z))
    (hdisjoint : ∀ j k i, D j i → D k i → j = k) :
    Lists (fun i => ∃ k < zs.length, D k i) g (zs.flatMap f) := by
  induction zs generalizing D with
  | nil => exact lists_nil fun _ ⟨_, hk, _⟩ => absurd hk (Nat.not_lt_zero _)
  | cons z zs ih =>
    have hrest : Lists (fun i => ∃ k < zs.length, D (k + 1) i) g (zs.flatMap f) :=
      ih (fun k z' hz' => h (k + 1) z' hz') fun j k i hj hk =>
        Nat.succ.inj (hdisjoint (j + 1) (k + 1) i hj hk)
    refine ((h 0 z rfl).append hrest ?_).congr fun i _ => ⟨?_, ?_⟩
    · rintro i hi ⟨k, -, hk⟩
      exact absurd (hdisjoint 0 (k + 1) i hi hk) (Nat.succ_ne_zero k).symm
    · rintro (hi | ⟨k, hlt, hk⟩)
      · exact ⟨0, Nat.succ_pos _, hi⟩
      · exact ⟨k + 1, Nat.succ_lt_succ hlt, hk⟩
    · rintro ⟨k, hlt, hk⟩
      cases k with
      | zero => exact .inl hk
      | succ k => exact .inr ⟨k, Nat.lt_of_succ_lt_succ hlt, hk⟩

/-- What the elements of a list hold, each at the index that its number gives. -/
theorem lists_filterMap {zs : List β} {c : Nat → ι} {f : β → Option α}
    (hc : ∀ j k, c j = c k → j = k) (h : ∀ k, g (c k) = zs[k]?.bind f) :
    Lists (fun i => ∃ k, i = c k) g (zs.filterMap f) := by
  rw [List.filterMap_eq_flatMap_toList]
  have hlists : Lists (fun i => ∃ k < zs.length, i = c k) g (zs.flatMap fun z => (f z).toList) :=
    lists_flatMap (fun k z hz => lists_option (by rw [h, hz, Option.bind_some]))
      fun j k i hj hk => hc j k (hj.symm.trans hk)
  refine hlists.congr fun i hi => ⟨fun ⟨k, _, hk⟩ => ⟨k, hk⟩, ?_⟩
  rintro ⟨k, rfl⟩
  refine ⟨k, ?_, rfl⟩
  -- a number behind the end has no value
  by_contra hk
  rw [h, List.getElem?_eq_none (Nat.not_lt.mp hk)] at hi
  exact hi rfl

theorem lists_map {zs : List β} {c : Nat → ι} {f : β → α} (hc : ∀ j k, c j = c k → j = k)
    (h : ∀ k, g (c k) = zs[k]?.map f) : Lists (fun i => ∃ k, i = c k) g (zs.map f) := by
  rw [← List.filterMap_eq_map]
  refine lists_filterMap hc fun k => ?_
  rw [h]
  cases zs[k]? <;> rfl

theorem lists_getElem? {c : Nat → ι} (hc : ∀ j k, c j = c k → j = k) (h : ∀ k, g (c k) = xs[k]?) :
    Lists (fun i => ∃ k, i = c k) g xs := by
  have hlists := @lists_map ι α α g xs c id hc fun k => by rw [h, Option.map_id_apply]
  rwa [List.map_id] at hlists

/-- The values as values of another kind, at indices of another kind. -/
theorem Lists.map {g' : κ → Option β} {c : ι → κ} {f : α → β} (h : Lists D g xs)
    (hc : ∀ i j, c i = c j → i = j) (hg : ∀ i, g' (c i) = (g i).map f) :
    Lists (fun k => ∃ i, D i ∧ k = c i) g' (xs.map f) := by
  obtain ⟨is, hnodup, hmem, hmap⟩ := h
  refine ⟨is.map c, hnodup.map (fun _ _ => hc _ _), fun k => ?_, ?_⟩
  · rw [List.mem_map]
    constructor
    · rintro ⟨i, hi, rfl⟩
      obtain ⟨hD, hne⟩ := (hmem i).mp hi
      exact ⟨⟨i, hD, rfl⟩, by simpa [hg] using hne⟩
    · rintro ⟨⟨i, hD, rfl⟩, hne⟩
      exact ⟨i, (hmem i).mpr ⟨hD, by simpa [hg] using hne⟩, rfl⟩
  · have hcomp : g' ∘ c = Option.map f ∘ g := funext hg
    rw [List.map_map, hcomp, ← List.map_map, hmap, List.map_map, List.map_map]
    rfl

end

/-! ## Fields that hold expressions -/

/-- Where a select holds an expression. -/
inductive Select.Field
  | item (i : Nat) | condition (i : Nat) | filter | groupBy (i : Nat) | having | orderBy (i : Nat)
  | limit | offset

/-- The expression that a select holds there. -/
def Select.exprAt? (q : Select) : Select.Field → Option Expr
  | .item i => q.items[i]?.map SelectItem.expr
  | .condition i => q.joins[i]?.bind fun j => j.constraint.condition?
  | .filter => q.filter
  | .groupBy i => q.groupBy[i]?
  | .having => q.having
  | .orderBy i => q.orderBy[i]?.map OrderItem.expr
  | .limit => q.limit
  | .offset => q.offset

/-- Where an expression holds an expression. -/
inductive Expr.Field
  | arg (i : Nat) | filter | partitionBy (i : Nat) | orderBy (i : Nat)
  | left | right | operand | low | high | item (i : Nat)
  | scrutinee | condition (i : Nat) | result (i : Nat) | fallback

/-- The expression that an expression holds there. -/
def Expr.exprAt? : Expr → Expr.Field → Option Expr
  | .call _ args _ _ _, .arg i => args[i]?
  | .call _ _ _ filter _, .filter => filter
  | .call _ _ _ _ window, .partitionBy i => window.bind fun w => w.partitionBy[i]?
  | .call _ _ _ _ window, .orderBy i => window.bind fun w => w.orderBy[i]?.map OrderItem.expr
  | .binary l _ _, .left => some l
  | .binary _ _ r, .right => some r
  | .unary _ e, .operand | .isNull e _, .operand | .between e _ _ _, .operand
  | .inList e _ _, .operand | .inQuery e _ _, .operand | .cast e _ _, .operand
  | .paren e, .operand => some e
  | .between _ low _ _, .low => some low
  | .between _ _ high _, .high => some high
  | .inList _ items _, .item i => items[i]?
  | .case scrutinee _ _, .scrutinee => scrutinee
  | .case _ branches _, .condition i => branches[i]?.map Branch.condition
  | .case _ branches _, .result i => branches[i]?.map Branch.result
  | .case _ _ fallback, .fallback => fallback
  | _, _ => none

/-- `Select.exprs` has the expression of every field. -/
theorem Select.lists_exprs (q : Select) : Lists (fun _ => True) q.exprAt? q.exprs := by
  have hitems : Lists (fun i => ∃ k, i = .item k) q.exprAt? (q.items.map SelectItem.expr) :=
    lists_map (by simp) fun _ => rfl
  have hconditions : Lists (fun i => ∃ k, i = .condition k) q.exprAt?
      (q.joins.filterMap fun j => j.constraint.condition?) :=
    lists_filterMap (by simp) fun _ => rfl
  have hfilter : Lists (· = .filter) q.exprAt? q.filter.toList := lists_option rfl
  have hgroupBy : Lists (fun i => ∃ k, i = .groupBy k) q.exprAt? q.groupBy :=
    lists_getElem? (by simp) fun _ => rfl
  have hhaving : Lists (· = .having) q.exprAt? q.having.toList := lists_option rfl
  have horderBy : Lists (fun i => ∃ k, i = .orderBy k) q.exprAt? (q.orderBy.map OrderItem.expr) :=
    lists_map (by simp) fun _ => rfl
  have hlimit : Lists (· = .limit) q.exprAt? q.limit.toList := lists_option rfl
  have hoffset : Lists (· = .offset) q.exprAt? q.offset.toList := lists_option rfl
  -- the fields are of different kinds, and there are no others
  refine Lists.all (((((((hitems.append hconditions ?_).append hfilter ?_).append hgroupBy
    ?_).append hhaving ?_).append horderBy ?_).append hlimit ?_).append hoffset ?_) fun i _ => ?_
  case refine_8 => cases i <;> simp
  all_goals intro i hi hi'; cases i <;> simp at hi hi'

theorem Expr.lists_window (window : Option Window) {g : Expr.Field → Option Expr}
    (hpartition : ∀ i, g (.partitionBy i) = window.bind fun w => w.partitionBy[i]?)
    (horder : ∀ i, g (.orderBy i) = window.bind fun w => w.orderBy[i]?.map OrderItem.expr) :
    Lists (fun i => (∃ k, i = .partitionBy k) ∨ ∃ k, i = .orderBy k) g
      (window.toList.flatMap Window.exprs) := by
  cases window with
  | none =>
    refine (lists_nil (D := fun _ => False) fun _ => id).congr fun i hi => ⟨False.elim, ?_⟩
    rintro (⟨k, rfl⟩ | ⟨k, rfl⟩)
    · exact hi (hpartition k)
    · exact hi (horder k)
  | some w =>
    have hpartitionBy : Lists (fun i => ∃ k, i = .partitionBy k) g w.partitionBy :=
      lists_getElem? (by simp) hpartition
    have horderBy : Lists (fun i => ∃ k, i = .orderBy k) g (w.orderBy.map OrderItem.expr) :=
      lists_map (by simp) horder
    rw [Option.toList_some, List.flatMap_singleton, Window.exprs]
    exact hpartitionBy.append horderBy (by rintro _ ⟨k, rfl⟩ ⟨k', h⟩; cases h)

theorem Expr.lists_branches (branches : List Branch) {g : Expr.Field → Option Expr}
    (hcondition : ∀ i, g (.condition i) = branches[i]?.map Branch.condition)
    (hresult : ∀ i, g (.result i) = branches[i]?.map Branch.result) :
    Lists (fun i => ∃ k < branches.length, i = .condition k ∨ i = .result k) g
      (branches.flatMap fun b => [b.condition, b.result]) := by
  refine lists_flatMap (fun k b hb => ?_) ?_
  · have hc : Lists (· = .condition k) g (some b.condition).toList :=
      lists_option (by rw [hcondition, hb, Option.map_some])
    have hr : Lists (· = .result k) g (some b.result).toList :=
      lists_option (by rw [hresult, hb, Option.map_some])
    exact hc.append hr (by rintro _ rfl h; cases h)
  · rintro j k i (rfl | rfl) (h | h) <;> cases h <;> rfl

/-- `Expr.children` has the expression of every field. -/
theorem Expr.lists_children (e : Expr) : Lists (fun _ => True) e.exprAt? e.children := by
  cases e with
  | call n args distinct filter window =>
    have hargs : Lists (fun i => ∃ k, i = .arg k) (call n args distinct filter window).exprAt?
        args := lists_getElem? (by simp) fun _ => rfl
    have hfilter : Lists (· = .filter) (call n args distinct filter window).exprAt? filter.toList :=
      lists_option rfl
    have hwindow := lists_window window (g := (call n args distinct filter window).exprAt?)
      (fun _ => rfl) fun _ => rfl
    refine ((hargs.append hfilter ?_).append hwindow ?_).all fun i hi => ?_
    case refine_3 => cases i <;> simp_all [exprAt?]
    all_goals intro i hi hi'; cases i <;> simp at hi hi'
  | case scrutinee branches fallback =>
    -- conditions and results alternate, as the branches do
    have hscrutinee : Lists (· = .scrutinee) (case scrutinee branches fallback).exprAt?
        scrutinee.toList := lists_option rfl
    have hbranches := lists_branches branches (g := (case scrutinee branches fallback).exprAt?)
      (fun _ => rfl) fun _ => rfl
    have hfallback : Lists (· = .fallback) (case scrutinee branches fallback).exprAt?
        fallback.toList := lists_option rfl
    refine ((hscrutinee.append hbranches ?_).append hfallback ?_).all fun i hi => ?_
    case refine_3 => cases i <;> simp_all [exprAt?]
    all_goals intro i hi hi'; cases i <;> simp at hi hi'
  | inList e items negated =>
    have hoperand : Lists (· = .operand) (inList e items negated).exprAt? (some e).toList :=
      lists_option rfl
    have hitems : Lists (fun i => ∃ k, i = .item k) (inList e items negated).exprAt? items :=
      lists_getElem? (by simp) fun _ => rfl
    refine (hoperand.append hitems (by rintro _ rfl ⟨k, h⟩; cases h)).all fun i hi => ?_
    cases i <;> simp_all [exprAt?]
  | between e low high negated =>
    have hoperand : Lists (· = .operand) (between e low high negated).exprAt? (some e).toList :=
      lists_option rfl
    have hlow : Lists (· = .low) (between e low high negated).exprAt? (some low).toList :=
      lists_option rfl
    have hhigh : Lists (· = .high) (between e low high negated).exprAt? (some high).toList :=
      lists_option rfl
    refine ((hoperand.append hlow ?_).append hhigh ?_).all fun i hi => ?_
    case refine_3 => cases i <;> simp_all [exprAt?]
    all_goals intro i hi hi'; cases i <;> simp at hi hi'
  | binary l op r =>
    have hleft : Lists (· = .left) (binary l op r).exprAt? (some l).toList := lists_option rfl
    have hright : Lists (· = .right) (binary l op r).exprAt? (some r).toList := lists_option rfl
    refine (hleft.append hright (by rintro _ rfl h; cases h)).all fun i hi => ?_
    cases i <;> simp_all [exprAt?]
  | unary _ e | isNull e _ | inQuery e _ _ | cast e _ _ | paren e =>
    refine (lists_option (i := .operand) (o := some e) rfl).all fun i hi => ?_
    cases i <;> simp_all [exprAt?]
  | _ =>
    refine (lists_nil (D := fun _ => False) fun _ => id).all fun i hi => ?_
    cases i <;> simp [exprAt?] at hi

/-! ## Parts of a whole tree -/

/-- A part of a whole tree: a statement, a body or an expression. -/
abbrev TreePart := Part ⊕ Expr

/-- One step from a part of a whole tree to a part directly below it. -/
inductive TreeStep
  /-- To a statement or a body that is not inside an expression. -/
  | part (step : Step)
  /-- From a select to an expression of it. -/
  | clause (field : Select.Field)
  /-- From an expression to an expression. -/
  | expr (field : Expr.Field)
  /-- From an expression to its statement. -/
  | query

/-- The steps from a part of a whole tree to a part of it. -/
abbrev TreePath := List TreeStep

namespace TreePart

/-- The part that one step leads to. -/
def next : TreePart → TreeStep → Option TreePart
  | .inl n, .part step => (n.next step).map .inl
  | .inl (.inr (.select q)), .clause field => (q.exprAt? field).map .inr
  | .inr e, .expr field => (e.exprAt? field).map .inr
  | .inr e, .query => e.statement?.map fun s => .inl (.inl s)
  | _, _ => none

/-- The part that a path leads to. -/
def follow : TreePath → TreePart → Option TreePart
  | [], n => some n
  | step :: path, n => (n.next step).bind (follow path)

/-- The expression that a part is. -/
def expr? : TreePart → Option Expr := Sum.getRight?

/-- The select that a part is. -/
def select? : TreePart → Option Select
  | .inl (.inr (.select q)) => some q
  | _ => none

/-- The parts directly below a part: statements first, then expressions. -/
def below : TreePart → List TreePart
  | .inl (.inl s) => s.ctes.map (fun c => .inl (.inl c.statement)) ++ [.inl (.inr s.body)]
  | .inl (.inr (.select q)) =>
    q.sources.filterMap (fun t => t.statement?.map fun s => .inl (.inl s)) ++ q.exprs.map .inr
  | .inl (.inr (.setOp l _ r)) => [.inl (.inr l), .inl (.inr r)]
  | .inl (.inr (.nested s)) => [.inl (.inl s)]
  | .inr e => e.statement?.toList.map (fun s => .inl (.inl s)) ++ e.children.map .inr

/-- **Nothing that a field holds is left out below a part,** and nothing stands there twice. -/
theorem lists_below (n : TreePart) : Lists (fun _ => True) n.next n.below := by
  obtain (s | q | ⟨l, op, r⟩ | s) | e := n
  · have hctes : Lists (fun i => ∃ k, i = .part (.cte k)) (next (.inl (.inl s)))
        (s.ctes.map fun c => .inl (.inl c.statement)) := by
      refine lists_map (by simp) fun k => ?_
      simp [next, Part.next, Function.comp_def]
    have hbody : Lists (· = .part .body) (next (.inl (.inl s)))
        (some (.inl (.inr s.body))).toList := lists_option rfl
    refine (hctes.append hbody (by rintro _ ⟨k, rfl⟩ h; cases h)).all fun i hi => ?_
    rcases i with ⟨_ | _⟩ | _ | _ | _ <;> simp_all [next, Part.next]
  · have hsources : Lists (fun i => ∃ k, i = .part (.source k)) (next (.inl (.inr (.select q))))
        (q.sources.filterMap fun t => t.statement?.map fun s => .inl (.inl s)) := by
      refine lists_filterMap (by simp) fun k => ?_
      cases h : q.sources[k]? <;> simp [next, Part.next, h, Function.comp_def]
    have hexprs : Lists (fun i => ∃ field, True ∧ i = .clause field)
        (next (.inl (.inr (.select q)))) (q.exprs.map .inr) :=
      q.lists_exprs.map (by simp) fun _ => rfl
    refine (hsources.append hexprs (by rintro _ ⟨k, rfl⟩ ⟨_, _, h⟩; cases h)).all fun i hi => ?_
    rcases i with ⟨_ | _⟩ | _ | _ | _ <;> simp_all [next, Part.next]
  · have hleft : Lists (· = .part .left) (next (.inl (.inr (.setOp l op r))))
        (some (.inl (.inr l))).toList := lists_option rfl
    have hright : Lists (· = .part .right) (next (.inl (.inr (.setOp l op r))))
        (some (.inl (.inr r))).toList := lists_option rfl
    refine (hleft.append hright (by rintro _ rfl h; cases h)).all fun i hi => ?_
    rcases i with ⟨_ | _⟩ | _ | _ | _ <;> simp_all [next, Part.next]
  · have hoperand : Lists (· = .part .operand) (next (.inl (.inr (.nested s))))
        (some (.inl (.inl s))).toList := lists_option rfl
    refine hoperand.all fun i hi => ?_
    rcases i with ⟨_ | _⟩ | _ | _ | _ <;> simp_all [next, Part.next]
  · have hstatement : Lists (· = .query) (next (.inr e))
        (e.statement?.toList.map fun s => .inl (.inl s)) := by
      have hlists := @lists_option _ _ (next (.inr e)) .query _ rfl
      cases h : e.statement? <;> simpa [next, h] using hlists
    have hchildren : Lists (fun i => ∃ field, True ∧ i = .expr field) (next (.inr e))
        (e.children.map .inr) := e.lists_children.map (by simp) fun _ => rfl
    refine (hstatement.append hchildren (by rintro _ rfl ⟨_, _, h⟩; cases h)).all fun i hi => ?_
    rcases i with ⟨_ | _⟩ | _ | _ | _ <;> simp_all [next]

/-- A bound on what stands below a part. -/
noncomputable def size : TreePart → Nat
  | .inl (.inl s) => sizeOf s
  | .inl (.inr b) => sizeOf b
  | .inr e => sizeOf e

theorem size_lt_of_mem_below {n m : TreePart} (h : m ∈ n.below) : m.size < n.size := by
  obtain (s | q | ⟨l, op, r⟩ | s) | e := n
  · simp only [below, List.mem_append, List.mem_map, List.mem_singleton] at h
    rcases h with ⟨c, hc, rfl⟩ | rfl
    · exact Statement.sizeOf_lt_of_mem_ctes hc
    · exact s.sizeOf_body_lt
  · simp only [below, List.mem_append, List.mem_map, List.mem_filterMap,
      Option.map_eq_some_iff] at h
    rcases h with ⟨t, ht, s, hs, rfl⟩ | ⟨e, he, rfl⟩
    · have hsource := Select.sizeOf_lt_of_mem_sources ht
      have hstatement := Source.sizeOf_lt_of_statement? hs
      simp only [size, Body.select.sizeOf_spec]
      omega
    · have hexpr := Select.sizeOf_lt_of_mem_exprs he
      simp only [size, Body.select.sizeOf_spec]
      omega
  · simp only [below, List.mem_cons, List.not_mem_nil, or_false] at h
    rcases h with rfl | rfl <;> simp +arith [size]
  · obtain rfl := List.mem_singleton.mp h
    simp +arith [size]
  · simp only [below, List.mem_append, List.mem_map, Option.mem_toList] at h
    rcases h with ⟨s, hs, rfl⟩ | ⟨c, hc, rfl⟩
    · exact Expr.sizeOf_lt_of_statement? hs
    · exact Expr.sizeOf_lt_of_mem_children hc

/-- A part and everything below it, each part before those below it. -/
def all (n : TreePart) : List TreePart := n :: n.below.attach.flatMap fun m => m.1.all
termination_by n.size
decreasing_by exact size_lt_of_mem_below m.2

theorem all_eq (n : TreePart) : n.all = n :: n.below.flatMap all := by
  rw [all, List.flatMap_subtype (g := all) (fun _ _ => rfl), List.unattach_attach]

/-- What goes down from every part to the parts below it goes through the whole tree. -/
theorem induct {P : TreePart → Prop} (step : ∀ n, (∀ m ∈ n.below, P m) → P n) (n : TreePart) :
    P n :=
  step n fun m _ => induct step m
termination_by n.size
decreasing_by exact size_lt_of_mem_below ‹_›

/-! ## Places -/

/-- The places of the parts: all of them and no other, each before those below it. So each of them
is there once. -/
structure Enumerates (n : TreePart) (places : List TreePath) : Prop where
  complete : ∀ p, p ∈ places ↔ n.follow p ≠ none
  order : places.Pairwise fun p p' => ¬ p' <+: p

/-- The places below a part, from those of the parts that its steps lead to. -/
theorem exists_places_below {n : TreePart} {steps : List TreeStep} {ms : List TreePart}
    (hnodup : steps.Nodup) (hsteps : steps.map n.next = ms.map some)
    (h : ∀ m ∈ ms, ∃ places, m.Enumerates places ∧ places.map (m.follow ·) = m.all.map some) :
    ∃ places : List TreePath,
      (∀ p, p ∈ places ↔ n.follow p ≠ none ∧ ∃ step ∈ steps, ∃ rest, p = step :: rest)
        ∧ places.Pairwise (fun p p' => ¬ p' <+: p)
        ∧ places.map (n.follow ·) = (ms.flatMap all).map some := by
  induction steps generalizing ms with
  | nil =>
    obtain rfl := List.map_eq_nil_iff.mp hsteps.symm
    exact ⟨[], by simp, List.Pairwise.nil, rfl⟩
  | cons step steps ih =>
    obtain ⟨m, ms, rfl, hm, hms⟩ := List.map_eq_cons_iff.mp hsteps.symm
    obtain ⟨hstep, hnodup⟩ := List.nodup_cons.mp hnodup
    rw [List.forall_mem_cons] at h
    obtain ⟨⟨front, hfront, hmap⟩, hrest⟩ := h
    obtain ⟨behind, hcomplete, horder, hmap'⟩ := ih hnodup hms.symm hrest
    have hfollow : ∀ p, n.follow (step :: p) = m.follow p := by
      intro p
      rw [follow, ← hm, Option.bind_some]
    -- paths of different parts differ in their first step, as no step is repeated
    refine ⟨front.map (step :: ·) ++ behind, fun p => ?_, ?_, ?_⟩
    · rw [List.mem_append, List.mem_map, hcomplete]
      constructor
      · rintro (⟨q, hq, rfl⟩ | ⟨hne, step', hmem, hp⟩)
        · exact ⟨hfollow q ▸ (hfront.complete q).mp hq, step, List.mem_cons_self, q, rfl⟩
        · exact ⟨hne, step', List.mem_cons_of_mem _ hmem, hp⟩
      · rintro ⟨hne, step', hmem, rest, rfl⟩
        rcases List.mem_cons.mp hmem with rfl | hmem
        · exact .inl ⟨rest, (hfront.complete rest).mpr (hfollow rest ▸ hne), rfl⟩
        · exact .inr ⟨hne, step', hmem, rest, rfl⟩
    · refine List.pairwise_append.mpr ⟨List.pairwise_map.mpr ?_, horder, ?_⟩
      · exact hfront.order.imp fun h hprefix => h (List.cons_prefix_cons.mp hprefix).2
      · intro p hp p' hp' hprefix
        obtain ⟨q, -, rfl⟩ := List.mem_map.mp hp
        obtain ⟨-, step', hmem, rest, rfl⟩ := (hcomplete p').mp hp'
        exact hstep ((List.cons_prefix_cons.mp hprefix).1 ▸ hmem)
    · rw [List.map_append, List.map_map, List.flatMap_cons, List.map_append, ← hmap, ← hmap']
      congr 1
      exact List.map_congr_left fun p _ => hfollow p

/-- **Every part stands at a place of its own.** The parts of a tree, each before those below it,
are what stands at its places. -/
theorem exists_places (n : TreePart) :
    ∃ places, n.Enumerates places ∧ places.map (n.follow ·) = n.all.map some := by
  induction n using induct with
  | step n ih =>
    obtain ⟨steps, hnodup, hsteps, hmap⟩ := n.lists_below
    obtain ⟨places, hcomplete, horder, hall⟩ := exists_places_below hnodup hmap ih
    -- the part itself stands at the end of the empty path, which is a prefix of every other
    refine ⟨[] :: places, ⟨fun p => ?_, ?_⟩, ?_⟩
    · cases p with
      | nil => simp [follow]
      | cons step rest =>
        rw [List.mem_cons, hcomplete, or_iff_right (List.cons_ne_nil _ _)]
        refine ⟨And.left, fun hne => ⟨hne, step, (hsteps step).mpr ⟨trivial, fun hnone => ?_⟩, rest,
          rfl⟩⟩
        rw [follow, hnone] at hne
        exact hne rfl
    · refine List.pairwise_cons.mpr ⟨fun p hp hprefix => ?_, horder⟩
      obtain ⟨-, step, -, rest, rfl⟩ := (hcomplete p).mp hp
      exact List.cons_ne_nil _ _ (List.prefix_nil.mp hprefix)
    · rw [all_eq, List.map_cons, List.map_cons, hall]
      rfl

end TreePart

end Sql
