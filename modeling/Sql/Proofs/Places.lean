import Sql.Filter.PushDown

/-!
# Places and what stands there

A path is followed from a statement step by step (`Part.follow`). The sites of a statement stand at
their places (`Statement.rootSites_stand`), and so does what their sources read
(`producer?_stands`). Changing a select at its place leaves every other path where it led, if the
sources of the select stay (`Part.follow_updateAt`).
-/

namespace Sql

/-! ## One source changed -/

/-- What a change of one item keeps of every item, it keeps of the list. -/
theorem map_modify {α β : Type} {f : α → α} {g : α → β} (h : ∀ x, g (f x) = g x) (xs : List α)
    (i : Nat) : (xs.modify i f).map g = xs.map g := by
  induction xs generalizing i with
  | nil => simp
  | cons x xs ih =>
    cases i with
    | zero => simp [h]
    | succ i => simp [ih]

theorem mem_modify {α : Type} {f : α → α} {y : α} {xs : List α} {i : Nat}
    (h : y ∈ xs.modify i f) : y ∈ xs ∨ ∃ x ∈ xs, y = f x := by
  induction xs generalizing i with
  | nil => simp at h
  | cons x xs ih =>
    cases i with
    | zero =>
      rw [List.modify_zero_cons, List.mem_cons] at h
      rcases h with rfl | h
      · exact .inr ⟨x, List.mem_cons_self, rfl⟩
      · exact .inl (List.mem_cons_of_mem _ h)
    | succ i =>
      rw [List.modify_succ_cons, List.mem_cons] at h
      rcases h with rfl | h
      · exact .inl List.mem_cons_self
      · rcases ih h with h | ⟨x', hx', rfl⟩
        · exact .inl (List.mem_cons_of_mem _ h)
        · exact .inr ⟨x', List.mem_cons_of_mem _ hx', rfl⟩

/-- The sources of a select with one source changed. -/
theorem Select.sources_updateSource (q : Select) (i : Nat) (f : Source → Source) :
    (q.updateSource i f).sources = q.sources.modify i f := by
  have hjoins : ∀ (js : List Join) (i : Nat),
      (js.modify i fun j => { j with right := f j.right }).map Join.right
        = (js.map Join.right).modify i f := by
    intro js
    induction js with
    | nil => simp
    | cons j js ih =>
      intro i
      cases i with
      | zero => rfl
      | succ i => simp [ih]
  unfold updateSource sources
  dsimp only
  split
  · next t ht => simp [ht]
  · next t i ht => simp [ht, hjoins]
  · next ht => simp [ht, hjoins]

/-- The joins but for their sources are as they were. -/
theorem Select.joins_updateSource (q : Select) (i : Nat) (f : Source → Source) :
    (q.updateSource i f).joins.map (fun j => (j.kind, j.constraint))
      = q.joins.map fun j => (j.kind, j.constraint) := by
  have hjoins := @map_modify Join (JoinKind × JoinConstraint) (fun j => { j with right := f j.right })
    (fun j => (j.kind, j.constraint)) (fun _ => rfl) q.joins
  unfold updateSource
  dsimp only
  split
  · rfl
  · exact hjoins _
  · exact hjoins _

theorem Select.source_updateSource (q : Select) (i : Nat) (f : Source → Source) :
    (q.updateSource i f).source = none ↔ q.source = none := by
  unfold updateSource
  dsimp only
  split <;> simp_all

theorem Select.items_updateSource (q : Select) (i : Nat) (f : Source → Source) :
    (q.updateSource i f).items = q.items := by
  unfold updateSource
  dsimp only
  split <;> rfl

theorem Select.tailExprs_updateSource (q : Select) (i : Nat) (f : Source → Source) :
    (q.updateSource i f).tailExprs = q.tailExprs := by
  unfold updateSource
  dsimp only
  split <;> rfl

theorem Select.exprs_updateSource (q : Select) (i : Nat) (f : Source → Source) :
    (q.updateSource i f).exprs = q.exprs := by
  have hconditions : ∀ js : List Join, js.filterMap (fun j => j.constraint.condition?)
      = (js.map fun j => (j.kind, j.constraint)).filterMap fun p => p.2.condition? := by
    intro js
    rw [List.filterMap_map]
    rfl
  rw [exprs_eq, exprs_eq, items_updateSource, tailExprs_updateSource, hconditions,
    hconditions q.joins, joins_updateSource]

theorem Source.effectiveName_updateStatement (f : Statement → Statement) (t : Source) :
    (t.updateStatement f).effectiveName = t.effectiveName := by
  cases t <;> rfl

/-! ## Paths -/

/-- What a path can lead to. -/
abbrev Part := Statement ⊕ Body

theorem Statement.ctes_updateAt (f : Select → Select) (s : Statement) (i : Nat) (path : Path) :
    (s.updateAt f (.cte i :: path)).ctes
      = s.ctes.modify i fun c => { c with statement := c.statement.updateAt f path } := by
  obtain ⟨w, b⟩ := s
  cases w with
  | none => simp [updateAt, ctes]
  | some w => rfl

namespace Part

/-- The part that one step leads to. -/
def next : Part → Step → Option Part
  | .inl s, .cte i => s.ctes[i]?.map fun c => .inl c.statement
  | .inl s, .body => some (.inr s.body)
  | .inr (.setOp l _ _), .left => some (.inr l)
  | .inr (.setOp _ _ r), .right => some (.inr r)
  | .inr (.nested s), .operand => some (.inl s)
  | .inr (.select q), .source i => (q.sources[i]?.bind Source.statement?).map .inl
  | _, _ => none

/-- The part that a path leads to. -/
def follow : Path → Part → Option Part
  | [], n => some n
  | step :: path, n => (n.next step).bind (follow path)

theorem follow_append (path rest : Path) (n : Part) :
    n.follow (path ++ rest) = (n.follow path).bind (follow rest) := by
  induction path generalizing n with
  | nil => rfl
  | cons step path ih =>
    rw [List.cons_append, follow, follow]
    cases n.next step with
    | none => rfl
    | some m => exact ih m

theorem follow_snoc {path : Path} {step : Step} {n m : Part} (h : n.follow path = some m) :
    n.follow (path ++ [step]) = m.next step := by
  rw [follow_append, h, Option.bind_some, follow]
  cases m.next step <;> rfl

/-- Change the select at a path. -/
def updateAt (f : Select → Select) (path : Path) : Part → Part :=
  Sum.map (Statement.updateAt f path) (Body.updateAt f path)

variable {f : Select → Select}

/-- A part on the way to the select is changed with the select. -/
theorem next_updateAt_cons (n : Part) (step : Step) (path : Path) :
    (n.updateAt f (step :: path)).next step = (n.next step).map (updateAt f path) := by
  obtain s | q | ⟨l, op, r⟩ | s := n
  · cases step with
    | cte i =>
      simp only [updateAt, Sum.map_inl, next, Statement.ctes_updateAt, List.getElem?_modify]
      cases s.ctes[i]? <;> simp
    | _ => rfl
  · cases step with
    | source i =>
      simp only [updateAt, Sum.map_inr, next, Body.updateAt, Select.sources_updateSource,
        List.getElem?_modify]
      cases q.sources[i]? with
      | none => simp
      | some t => cases t <;> simp [Source.updateStatement, Source.statement?]
    | _ => rfl
  · cases step <;> rfl
  · cases step <;> rfl

/-- A part off the way to the select stays. -/
theorem next_updateAt_ne (n : Part) {step head : Step} (h : head ≠ step) (path : Path) :
    (n.updateAt f (head :: path)).next step = n.next step := by
  obtain s | q | ⟨l, op, r⟩ | s := n
  · cases step with
    | cte i =>
      cases head with
      | cte j =>
        have hij : j ≠ i := fun hij => h (congrArg Step.cte hij)
        simp only [updateAt, Sum.map_inl, next, Statement.ctes_updateAt, List.getElem?_modify,
          if_neg hij, id_map']
      | _ => rfl
    | body => cases head with
      | body => exact absurd rfl h
      | _ => rfl
    | _ => rfl
  · cases step with
    | source i =>
      cases head with
      | source j =>
        have hij : j ≠ i := fun hij => h (congrArg Step.source hij)
        simp only [updateAt, Sum.map_inr, next, Body.updateAt, Select.sources_updateSource,
          List.getElem?_modify, if_neg hij, id_map']
      | _ => rfl
    | _ => cases head <;> rfl
  · cases step <;> cases head <;> first | rfl | exact absurd rfl h
  · cases step <;> cases head <;> first | rfl | exact absurd rfl h

/-- The parts next to the select itself stay, if its sources do. -/
theorem next_updateAt_nil (hf : ∀ q, (f q).sources = q.sources) (n : Part) (step : Step) :
    (n.updateAt f []).next step = n.next step := by
  obtain s | q | ⟨l, op, r⟩ | s := n
  · rfl
  · cases step with
    | source i => simp only [updateAt, Sum.map_inr, next, Body.updateAt, hf]
    | _ => rfl
  · rfl
  · rfl

theorem exists_updateAt_eq_self (n : Part) : ∃ path, n.updateAt f path = n := by
  cases n with
  | inl s => exact ⟨[], rfl⟩
  | inr b => exact ⟨[.cte 0], by cases b <;> rfl⟩

/-- **A changed select leaves every path where it led,** if the sources of the select stay. -/
theorem follow_updateAt (hf : ∀ q, (f q).sources = q.sources) (path : Path) {target : Path}
    {n m : Part} (h : n.follow target = some m) :
    ∃ path', (n.updateAt f path).follow target = some (m.updateAt f path') := by
  induction target generalizing n path with
  | nil =>
    obtain rfl := Option.some.inj h
    exact ⟨path, rfl⟩
  | cons step target ih =>
    obtain ⟨k, hk, hm⟩ := Option.bind_eq_some_iff.mp h
    have hnext : ∃ path', (n.updateAt f path).next step = some (k.updateAt f path') := by
      obtain ⟨still, hstill⟩ := exists_updateAt_eq_self (f := f) k
      cases path with
      | nil =>
        refine ⟨still, ?_⟩
        rw [next_updateAt_nil hf, hstill]
        exact hk
      | cons head path =>
        by_cases heq : head = step
        · subst heq
          refine ⟨path, ?_⟩
          rw [next_updateAt_cons, hk, Option.map_some]
        · refine ⟨still, ?_⟩
          rw [next_updateAt_ne n heq, hstill]
          exact hk
    obtain ⟨path', hnext⟩ := hnext
    obtain ⟨path'', hfollow⟩ := ih path' hm
    exact ⟨path'', by rw [follow, hnext]; exact hfollow⟩

end Part

/-- The select that a path leads to. -/
def Statement.selectAt? (s : Statement) (path : Path) : Option Select :=
  match Part.follow path (.inl s) with
  | some (.inr (.select q)) => some q
  | _ => none

theorem Statement.selectAt?_eq_some {s : Statement} {path : Path} {q : Select} :
    s.selectAt? path = some q ↔ Part.follow path (.inl s) = some (.inr (.select q)) := by
  unfold selectAt?
  split
  · next r h => simp [h]
  · next h =>
    refine ⟨by simp, fun heq => ?_⟩
    exact absurd heq (h q)

/-! ## Sites stand at their places -/

/-- The place of every CTE in scope leads to its statement. -/
def PlacedScope.StandsIn (scope : PlacedScope) (s : Statement) : Prop :=
  ∀ c ∈ scope.entries, Part.follow c.place (.inl s) = some (.inl c.entry.cte.statement)

/-- The place of a site leads to its select, and the places in its scope to their statements. -/
structure Site.StandsIn (site : Site) (s : Statement) : Prop where
  select : Part.follow site.place (.inl s) = some (.inr (.select site.select))
  scope : site.scope.StandsIn s

variable {s t : Statement} {scope : PlacedScope} {place : Path}

theorem mem_placeCtes {recursive : Bool} {c : PlacedCte} {cs : List Cte} {i : Nat}
    (h : c ∈ placeCtes place recursive i cs) :
    ∃ j, cs[j]? = some c.entry.cte ∧ c.place = place ++ [.cte (i + j)] := by
  induction cs generalizing i with
  | nil => simp [placeCtes] at h
  | cons d cs ih =>
    rw [placeCtes, List.mem_cons] at h
    rcases h with rfl | h
    · exact ⟨0, rfl, rfl⟩
    · obtain ⟨j, hj, hplace⟩ := ih h
      refine ⟨j + 1, hj, ?_⟩
      rw [hplace, Nat.add_assoc, Nat.add_comm 1 j]

theorem PlacedScope.StandsIn.enter (hscope : scope.StandsIn s)
    (ht : Part.follow place (.inl s) = some (.inl t)) : (scope.enter place t).StandsIn s := by
  intro c hc
  rcases List.mem_append.mp hc with hc | hc
  · obtain ⟨j, hj, hplace⟩ := mem_placeCtes (List.mem_reverse.mp hc)
    rw [hplace, Part.follow_snoc ht, Nat.zero_add, Part.next, hj, Option.map_some]
  · exact hscope c hc

theorem Body.sites_stand {b : Body} (hscope : scope.StandsIn s)
    (hb : Part.follow place (.inl s) = some (.inr b)) :
    ∀ site ∈ b.sites scope place, site.StandsIn s := by
  fun_induction sites scope place b with
  | case1 scope place q => simpa using ⟨hb, hscope⟩
  | case2 scope place l op r ihl ihr =>
    exact List.forall_mem_append.mpr ⟨ihl hscope (Part.follow_snoc hb),
      ihr hscope (Part.follow_snoc hb)⟩
  | case3 scope place w b ih =>
    have hstatement : Part.follow (place ++ [.operand]) (.inl s) = some (.inl ⟨w, b⟩) :=
      Part.follow_snoc hb
    refine ih (hscope.enter hstatement) ?_
    rw [show place ++ [.operand, .body] = (place ++ [.operand]) ++ [.body] by simp]
    exact Part.follow_snoc hstatement

theorem Statement.sites_stand (hscope : scope.StandsIn s)
    (ht : Part.follow place (.inl s) = some (.inl t)) :
    ∀ site ∈ t.sites scope place, site.StandsIn s :=
  Body.sites_stand (hscope.enter ht) (Part.follow_snoc ht)

/-- The selects that a statement combines stand at their places in it. -/
theorem Statement.rootSites_stand (s : Statement) :
    ∀ site ∈ s.sites .empty [], site.StandsIn s :=
  sites_stand (fun c hc => by simp [PlacedScope.empty] at hc) rfl

theorem mem_of_findPlaced {name : String} {c : PlacedCte} {cs before : List PlacedCte}
    (h : findPlaced name cs = some (c, before)) : c ∈ cs ∧ ∀ d ∈ before, d ∈ cs := by
  induction cs with
  | nil => simp [findPlaced] at h
  | cons d cs ih =>
    rw [findPlaced] at h
    split at h
    · obtain ⟨rfl, rfl⟩ := Prod.mk.inj (Option.some.inj h)
      exact ⟨List.mem_cons_self, fun _ => List.mem_cons_of_mem _⟩
    · obtain ⟨hc, hbefore⟩ := ih h
      exact ⟨List.mem_cons_of_mem _ hc, fun e he => List.mem_cons_of_mem _ (hbefore e he)⟩

theorem PlacedScope.StandsIn.resolve? {t : Source} {c : PlacedCte} {before : PlacedScope}
    (hscope : scope.StandsIn s) (h : scope.resolve? t = some (c, before)) :
    Part.follow c.place (.inl s) = some (.inl c.entry.cte.statement) ∧ before.StandsIn s := by
  fun_cases PlacedScope.resolve? scope t with
  | case1 name asName =>
    obtain ⟨⟨d, rest⟩, hfound, heq⟩ := Option.map_eq_some_iff.mp h
    obtain ⟨rfl, rfl⟩ := Prod.mk.inj heq
    obtain ⟨hc, hbefore⟩ := mem_of_findPlaced hfound
    exact ⟨hscope d hc, fun e he => hscope e (hbefore e he)⟩
  | case2 => simp_all [PlacedScope.resolve?]

/-- The statement behind a source stands at the place of the producer. -/
theorem producer?_stands {site : Site} (hsite : site.StandsIn s) {i : Nat} {name : String}
    {p : Producer} (h : producer? site i name = some p) :
    Part.follow p.place (.inl s) = some (.inl p.statement) ∧ p.scope.StandsIn s := by
  unfold producer? at h
  split at h
  · simp at h
  · next t asName hsource =>
    obtain rfl := Option.some.inj h
    refine ⟨?_, hsite.scope⟩
    rw [Part.follow_snoc hsite.select, Part.next, hsource]
    rfl
  · split at h
    · simp at h
    · next c before hresolve =>
      split at h
      · simp at h
      · obtain ⟨position, -, rfl⟩ := Option.map_eq_some_iff.mp h
        exact hsite.scope.resolve? hresolve

end Sql
