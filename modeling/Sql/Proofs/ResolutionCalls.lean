import Mathlib.Data.List.Chain
import Mathlib.Data.List.Perm.Subperm
import Sql.Proofs.CteDefinitions
import Sql.Proofs.Results
import Sql.Scope.Columns

/-!
# Calls of column resolution

The functions that resolve columns call each other down the tree and along the names of CTEs. Here
the calls are data: a `Call` says what is resolved, at which place and in which scope, and
`Call.Calls` says which calls come from it. The depth of the scope has no part in that.

* `Call.Calls.weight_lt`: every call is smaller than the one it comes from, so no chain of calls
  goes on for ever.
* `Call.Calls.ahead_subperm`: the definitions that a call can still enter are used up one by one.
* `Call.FailsTooDeep.depth_or_calls`: the error of the depth limit comes from a scope that is too
  deep, and is passed on by calls and nothing else.
* `resolution_enters_once`: a chain of calls enters each CTE definition of a statement at most once,
  and so the depth limit is not reached by a statement with no more definitions than that.
-/

namespace Sql

/-- A call of column resolution. -/
inductive Call
  /-- The columns of a statement at a place. -/
  | output (scope : PlacedScope) (place : Path) (s : Statement)
  /-- The columns of all sources of a select. -/
  | sources (site : Site)
  /-- The columns of the source of a select with that number. -/
  | column (site : Site) (i : Nat) (t : Source)
  /-- The columns of a CTE, in the scope of its body. -/
  | definition (scope : PlacedScope) (c : PlacedCte)

namespace Call

/-- One call comes from another. The columns of a statement are those of its leftmost select, and the
body of a CTE gives them if the CTE lists none. Pushing down a filter goes further, to all selects
that are combined and past such lists, so all of that is counted. -/
inductive Calls : Call → Call → Prop
  | sources {scope : PlacedScope} {place : Path} {s : Statement} {site : Site} :
      site ∈ s.sites scope place → Calls (output scope place s) (sources site)
  | column {site : Site} {i : Nat} {t : Source} :
      site.select.sources[i]? = some t → Calls (sources site) (column site i t)
  | subquery {site : Site} {i : Nat} {s : Statement} {asName : String} :
      Calls (column site i (.subquery s asName)) (output site.scope (site.place ++ [.source i]) s)
  | definition {site : Site} {i : Nat} {t : Source} {c : PlacedCte} {before : PlacedScope} :
      site.scope.resolve? t = some (c, before) → Calls (column site i t) (definition before c)
  | body {scope : PlacedScope} {c : PlacedCte} :
      Calls (definition scope c) (output scope c.place c.entry.cte.statement)

/-- The calls with which the columns of a statement are resolved: its own columns; in the scope of
its WITH clause, the columns of the selects that it combines, of their sources, of its CTEs, and of
a statement that is its body. That can be any statement, as the scope is that of the clause alone. -/
inductive Starts (s : Statement) : Call → Prop
  | output : Starts s (output .empty [] s)
  | sources {site : Site} : site ∈ s.sites .empty [] → Starts s (sources site)
  | column {site : Site} {i : Nat} {t : Source} : site ∈ s.sites .empty [] →
      site.select.sources[i]? = some t → Starts s (column site i t)
  | definition {n : String} {c : PlacedCte} {before : PlacedScope} :
      (PlacedScope.empty.enter [] s).find? n = some (c, before) → Starts s (definition before c)
  | body {t : Statement} : s.body = .nested t →
      Starts s (output (PlacedScope.empty.enter [] s) [.body, .operand] t)

/-- The scope in which something is resolved. -/
def scope : Call → PlacedScope
  | output scope _ _ | definition scope _ => scope
  | sources site | column site _ _ => site.scope

/-- The definition that is entered with the call. -/
def entered? : Call → Option PlacedCte
  | definition _ c => some c
  | _ => none

/-- The error of the depth limit. -/
def tooDeep : Error := .invalidArgument "CTE references nested too deeply to resolve columns"

/-- The call fails with the error of the depth limit. -/
def FailsTooDeep (lookup : Option Lookup) : Call → Prop
  | output scope _ s => outputColumns lookup scope.scope s = .error tooDeep
  | sources site => sourceColumns lookup site.scope.scope site.select = .error tooDeep
  | column site _ t => columnsOf lookup site.scope.scope site.select t = .error tooDeep
  | definition scope c => cteColumns lookup scope.scope c.entry.cte = .error tooDeep

/-! ## Calls get smaller -/

/-- What bounds the calls that come from a call. -/
noncomputable def weight : Call → Nat
  | output scope _ s => sizeOf s + scope.scope.weight
  | sources site => site.weight
  | column site _ t => sizeOf t + site.scope.scope.weight
  | definition scope c => sizeOf c.entry.cte.statement + scope.scope.weight + 1

/-- **Every call is smaller than the one it comes from.** -/
theorem Calls.weight_lt {a b : Call} (h : a.Calls b) : b.weight < a.weight := by
  cases h with
  | sources hsite => exact Statement.weight_lt_of_mem_sites hsite
  | column ht =>
    have hlt := Select.sizeOf_lt_of_mem_sources (List.mem_of_getElem? ht)
    simp only [weight, Site.weight]
    omega
  | subquery =>
    simp only [weight, Source.subquery.sizeOf_spec]
    omega
  | @definition site i t c before hresolve =>
    have hlt := PlacedScope.resolve?_weight_lt hresolve
    have hpos : 0 < sizeOf t := by cases t <;> simp +arith
    simp only [weight]
    omega
  | body => exact Nat.lt_succ_self _

theorem wellFounded_calls : WellFounded fun b a : Call => a.Calls b :=
  Subrelation.wf Calls.weight_lt (measure weight).wf

/-! ## Definitions ahead -/

end Call

/-- The definitions in scope and in their bodies. -/
def PlacedScope.definitions (p : PlacedScope) : List PlacedCte :=
  p.entries.flatMap PlacedCte.definitions

/-- Entering a statement turns its own definitions into definitions in scope. -/
theorem PlacedScope.definitions_enter (p : PlacedScope) (place : Path) (s : Statement) :
    ((p.enter place s).definitions ++ s.body.definitions (place ++ [.body])).Perm
      (p.definitions ++ s.definitions place) := by
  have hreverse := (List.reverse_perm (placeCtes place s.isRecursive 0 s.ctes)).flatMap_right
    PlacedCte.definitions
  rw [Statement.definitions_eq, PlacedScope.definitions, PlacedScope.enter, List.flatMap_append,
    List.append_assoc]
  refine (hreverse.append_right _).trans ?_
  exact List.perm_append_comm_assoc _ _ _

/-- A select that a body combines has no definitions ahead but those of the body. -/
theorem Body.definitions_of_mem_sites {b : Body} {scope : PlacedScope} {place : Path} {site : Site}
    (h : site ∈ b.sites scope place) :
    (site.scope.definitions ++ (Body.select site.select).definitions site.place).Subperm
        (scope.definitions ++ b.definitions place)
      ∧ site.scope.depth = scope.depth := by
  fun_induction Body.sites scope place b with
  | case1 scope place q =>
    obtain rfl := List.mem_singleton.mp h
    exact ⟨List.Subperm.refl _, rfl⟩
  | case2 scope place l op r ihl ihr =>
    rw [Body.definitions_setOp]
    rcases List.mem_append.mp h with h | h
    · obtain ⟨hsub, hdepth⟩ := ihl h
      refine ⟨hsub.trans ?_, hdepth⟩
      exact (List.subperm_append_left _).mpr (List.sublist_append_left _ _).subperm
    · obtain ⟨hsub, hdepth⟩ := ihr h
      refine ⟨hsub.trans ?_, hdepth⟩
      exact (List.subperm_append_left _).mpr (List.sublist_append_right _ _).subperm
  | case3 scope place w b ih =>
    obtain ⟨hsub, hdepth⟩ := ih h
    refine ⟨hsub.trans ?_, hdepth⟩
    have hplace : place ++ [.operand, .body] = (place ++ [.operand]) ++ [.body] := by simp
    rw [Body.definitions_nested, hplace]
    exact (scope.definitions_enter (place ++ [.operand]) ⟨w, b⟩).subperm

theorem Statement.definitions_of_mem_sites {s : Statement} {scope : PlacedScope} {place : Path}
    {site : Site} (h : site ∈ s.sites scope place) :
    (site.scope.definitions ++ (Body.select site.select).definitions site.place).Subperm
        (scope.definitions ++ s.definitions place)
      ∧ site.scope.depth = scope.depth := by
  obtain ⟨hsub, hdepth⟩ := Body.definitions_of_mem_sites h
  exact ⟨hsub.trans (scope.definitions_enter place s).subperm, hdepth⟩

theorem Source.definitions_sublist {q : Select} {i : Nat} {t : Source} (place : Path)
    (h : q.sources[i]? = some t) :
    (t.definitions (place ++ [.source i])).Sublist ((Body.select q).definitions place) := by
  have hmem : (t, i) ∈ q.sources.zipIdx := List.mk_mem_zipIdx_iff_getElem?.mpr h
  have hone := (List.singleton_sublist.mpr hmem).flatMap
    fun t => t.1.definitions (place ++ [.source t.2])
  rw [Body.definitions_select]
  simpa using hone

/-- A CTE that is found, and what its body sees, stand in scope. -/
theorem sublist_of_findPlaced {n : String} {c : PlacedCte} {cs before : List PlacedCte}
    (h : findPlaced n cs = some (c, before)) : (c :: before).Sublist cs := by
  induction cs with
  | nil => simp [findPlaced] at h
  | cons d cs ih =>
    rw [findPlaced] at h
    split at h
    · obtain ⟨rfl, rfl⟩ := Prod.mk.inj (Option.some.inj h)
      exact List.Sublist.refl _
    · exact (ih h).cons d

/-- Following a name uses up the definition that it leads to. -/
theorem PlacedScope.definitions_of_find? {p before : PlacedScope} {n : String} {c : PlacedCte}
    (h : p.find? n = some (c, before)) :
    (c :: (before.definitions ++ c.entry.cte.statement.definitions c.place)).Subperm p.definitions
      ∧ before.depth = p.depth + 1 := by
  obtain ⟨⟨d, rest⟩, hfound, heq⟩ := Option.map_eq_some_iff.mp h
  obtain ⟨rfl, rfl⟩ := Prod.mk.inj heq
  have hsublist := (sublist_of_findPlaced hfound).flatMap PlacedCte.definitions
  refine ⟨List.Subperm.trans ?_ hsublist.subperm, rfl⟩
  exact (List.perm_append_comm.cons d).subperm

namespace Call

/-- The definitions that can be entered by the calls that come from a call. -/
def ahead : Call → List PlacedCte
  | output scope place s => scope.definitions ++ s.definitions place
  | sources site => site.scope.definitions ++ (Body.select site.select).definitions site.place
  | column site i t => site.scope.definitions ++ t.definitions (site.place ++ [.source i])
  | definition scope c => scope.definitions ++ c.entry.cte.statement.definitions c.place

/-- **A call has ahead what the one it comes from has,** without the definition that it enters. -/
theorem Calls.ahead_subperm {a b : Call} (h : a.Calls b) :
    (b.entered?.toList ++ b.ahead).Subperm a.ahead := by
  cases h with
  | sources hsite => exact (Statement.definitions_of_mem_sites hsite).1
  | @column site i t ht =>
    have hsublist := (Source.definitions_sublist site.place ht).append_left site.scope.definitions
    exact hsublist.subperm
  | subquery => exact List.Subperm.refl _
  | @definition site i t c before hresolve =>
    have hfound : ∃ n, site.scope.find? n = some (c, before) := by
      unfold PlacedScope.resolve? at hresolve
      split at hresolve
      · exact ⟨_, hresolve⟩
      · simp at hresolve
    obtain ⟨n, hfound⟩ := hfound
    refine (PlacedScope.definitions_of_find? hfound).1.trans ?_
    exact (List.sublist_append_left _ _).subperm
  | body => exact List.Subperm.refl _

/-- The depth of a scope counts the definitions that were entered. -/
theorem Calls.depth_eq {a b : Call} (h : a.Calls b) :
    b.scope.depth = a.scope.depth + b.entered?.toList.length := by
  cases h with
  | sources hsite => exact (Statement.definitions_of_mem_sites hsite).2
  | column => rfl
  | subquery => rfl
  | definition hresolve =>
    unfold PlacedScope.resolve? at hresolve
    split at hresolve
    · exact (PlacedScope.definitions_of_find? hresolve).2
    · simp at hresolve
  | body => rfl

/-- The definitions entered and those ahead fit into the definitions of the statement. -/
theorem Starts.ahead_subperm {s : Statement} {start : Call} (h : start.Starts s) :
    (start.entered?.toList ++ start.ahead).Subperm (s.definitions [])
      ∧ start.scope.depth = start.entered?.toList.length := by
  have hroot := PlacedScope.empty.definitions_enter [] s
  cases h with
  | output => exact ⟨List.Subperm.refl _, rfl⟩
  | sources hsite => exact Statement.definitions_of_mem_sites hsite
  | column hsite ht =>
    have hcalls := (Calls.column ht).ahead_subperm
    exact ⟨hcalls.trans (Statement.definitions_of_mem_sites hsite).1,
      (Statement.definitions_of_mem_sites hsite).2⟩
  | definition hfound =>
    obtain ⟨hsub, hdepth⟩ := PlacedScope.definitions_of_find? hfound
    refine ⟨hsub.trans ?_, hdepth⟩
    exact (List.sublist_append_left _ _).subperm.trans hroot.subperm
  | body hbody =>
    rw [hbody, Body.definitions_nested] at hroot
    exact ⟨hroot.subperm, rfl⟩

theorem filterMap_entered?_cons (a : Call) (calls : List Call) :
    (a :: calls).filterMap entered? = a.entered?.toList ++ calls.filterMap entered? := by
  rw [List.filterMap_cons]
  cases a.entered? <;> rfl

/-- The definitions that a chain of calls enters are among those ahead of its first call. -/
theorem entered_subperm {a : Call} {calls : List Call} (h : List.IsChain Calls (a :: calls)) :
    (calls.filterMap entered?).Subperm a.ahead := by
  induction calls generalizing a with
  | nil => exact List.nil_subperm
  | cons b calls ih =>
    obtain ⟨hcalls, hrest⟩ := List.isChain_cons_cons.mp h
    rw [filterMap_entered?_cons]
    exact ((List.subperm_append_left _).mpr (ih hrest)).trans hcalls.ahead_subperm

/-! ## The error of the depth limit -/

end Call

/-- The leftmost select of a body is one of those that it combines. -/
theorem Body.exists_site_leftmostIn (b : Body) (scope : PlacedScope) (place : Path) :
    ∃ site ∈ b.sites scope place,
      b.leftmostIn scope.scope = (site.select, site.scope.scope) := by
  fun_induction Body.sites scope place b with
  | case1 scope place q => exact ⟨_, List.mem_singleton_self _, rfl⟩
  | case2 scope place l op r ihl _ =>
    obtain ⟨site, hsite, heq⟩ := ihl
    exact ⟨site, List.mem_append_left _ hsite, heq⟩
  | case3 scope place w b ih =>
    obtain ⟨site, hsite, heq⟩ := ih
    rw [PlacedScope.scope_enter] at heq
    exact ⟨site, hsite, heq⟩

theorem lookupColumns_ne_tooDeep (lookup : Option Lookup) (qualified name : String) :
    lookupColumns lookup qualified name ≠ .error Call.tooDeep := by
  unfold lookupColumns
  repeat' split
  all_goals simp [Call.tooDeep]

namespace Call

variable {lookup : Option Lookup}

/-- **The error of the depth limit** comes from a scope that is too deep, or from a call. -/
theorem FailsTooDeep.depth_or_calls {a : Call} (h : a.FailsTooDeep lookup) :
    maxCteDepth < a.scope.depth ∨ ∃ b, a.Calls b ∧ b.FailsTooDeep lookup := by
  cases a with
  | output scope place s =>
    obtain ⟨site, hsite, hleft⟩ :=
      s.body.exists_site_leftmostIn (scope.enter place s) (place ++ [.body])
    rw [PlacedScope.scope_enter] at hleft
    change outputColumns lookup scope.scope s = _ at h
    rw [outputColumns] at h
    -- this call is too deep itself, or the columns of its leftmost select were asked for
    split at h
    · next hdepth => exact .inl hdepth
    · split at h
      next q inner hq =>
      rw [hleft, Prod.mk.injEq] at hq
      obtain ⟨rfl, rfl⟩ := hq
      split at h
      · rcases error_of_bind h with h | ⟨sources, -, h⟩
        · exact .inr ⟨.sources site, .sources hsite, h⟩
        · simp [pure, Except.pure] at h
      · simp [pure, Except.pure] at h
  | sources site =>
    change sourceColumns lookup site.scope.scope site.select = _ at h
    rw [sourceColumns_eq] at h
    obtain ⟨i, t, ht, h⟩ := exists_error_of_mapM h
    exact .inr ⟨.column site i t, .column ht, h⟩
  | column site i t =>
    change columnsOf lookup site.scope.scope site.select t = _ at h
    cases t with
    | subquery s asName =>
      rw [columnsOf] at h
      rcases error_of_bind h with h | ⟨out, -, h⟩
      · exact .inr ⟨_, .subquery, h⟩
      · simp [pure, Except.pure] at h
    | table path name asName =>
      rw [columnsOf] at h
      split at h
      · next entry before hresolve =>
        rw [PlacedScope.scope_resolve?] at hresolve
        obtain ⟨⟨c, placed⟩, hplaced, heq⟩ := Option.map_eq_some_iff.mp hresolve
        obtain ⟨rfl, rfl⟩ := Prod.mk.inj heq
        split at h
        · next hcolumns =>
          rcases error_of_bind h with h | ⟨out, -, h⟩
          · refine .inr ⟨.definition placed c, .definition hplaced, ?_⟩
            show cteColumns lookup placed.scope c.entry.cte = _
            rw [cteColumns, if_pos hcolumns]
            exact h
          · simp [pure, Except.pure] at h
        · simp [pure, Except.pure] at h
      · rcases error_of_bind h with h | ⟨found, -, h⟩
        · exact absurd h (lookupColumns_ne_tooDeep _ _ _)
        · split at h <;> simp [pure, Except.pure] at h
  | definition scope c =>
    change cteColumns lookup scope.scope c.entry.cte = _ at h
    rw [cteColumns] at h
    split at h
    · exact .inr ⟨_, .body, h⟩
    · simp [pure, Except.pure] at h

/-- The definitions entered on the way to a call and those ahead of it are no more than `n`. -/
def Within (n : Nat) (a : Call) : Prop := a.scope.depth + a.ahead.length ≤ n

theorem Calls.within {n : Nat} {a b : Call} (h : a.Calls b) (ha : a.Within n) : b.Within n := by
  have hlength := h.ahead_subperm.length_le
  have hdepth := h.depth_eq
  rw [List.length_append] at hlength
  unfold Within at *
  omega

theorem FailsTooDeep.lt {n : Nat} {a : Call} (h : a.FailsTooDeep lookup) (ha : a.Within n) :
    maxCteDepth < n := by
  -- the error is passed on from call to call, until one stands in a scope that is too deep
  induction a using wellFounded_calls.induction with
  | h a ih =>
    rcases h.depth_or_calls with hdepth | ⟨b, hcalls, hb⟩
    · unfold Within at ha
      omega
    · exact ih b hcalls hb (hcalls.within ha)

end Call

/-- **Column resolution ends, and enters no CTE definition twice.** No chain of calls goes on for
ever, whatever the depth limit is. On a chain that starts with a statement, the definitions that are
entered are CTEs of the statement at pairwise different places, so there are no more of them than
the statement has CTEs; and the error of the depth limit arises only if it has more than the limit.
-/
theorem resolution_enters_once (s : Statement) :
    WellFounded (fun b a : Call => a.Calls b)
      ∧ ∀ start calls, Call.Starts s start → List.IsChain Call.Calls (start :: calls) →
        ((start :: calls).filterMap Call.entered?).Pairwise (fun c d => c.place ≠ d.place)
          ∧ (∀ c ∈ (start :: calls).filterMap Call.entered?, c.entry.cte ∈ s.allCtes
            ∧ Part.follow c.place (.inl s) = some (.inl c.entry.cte.statement))
          ∧ ((start :: calls).filterMap Call.entered?).length ≤ s.allCtes.length
          ∧ ∀ lookup, ∀ call ∈ start :: calls, call.FailsTooDeep lookup →
            maxCteDepth < s.allCtes.length := by
  refine ⟨Call.wellFounded_calls, fun start calls hstart hchain => ?_⟩
  have hentered : ((start :: calls).filterMap Call.entered?).Subperm (s.definitions []) := by
    rw [Call.filterMap_entered?_cons]
    have hahead :=
      (List.subperm_append_left start.entered?.toList).mpr (Call.entered_subperm hchain)
    exact hahead.trans hstart.ahead_subperm.1
  have hctes := s.definitions_sublist []
  have hlength := hctes.length_le
  rw [List.length_map] at hlength
  -- what is entered is a part of the definitions, each taken at most once
  refine ⟨?_, fun c hc => ?_, ?_, fun lookup call hcall hfails => ?_⟩
  · obtain ⟨ds, hperm, hsublist⟩ := hentered
    have hdiffer := (s.definitions_pairwise []).sublist hsublist
    exact (hperm.pairwise_iff fun h => h.symm).mp hdiffer
  · have hmem := hentered.subset hc
    exact ⟨hctes.subset (List.mem_map_of_mem hmem), s.definitions_stand rfl c hmem⟩
  · exact Nat.le_trans hentered.length_le hlength
  · have hstart' : start.Within (s.definitions []).length := by
      obtain ⟨hsub, hdepth⟩ := hstart.ahead_subperm
      have hle := hsub.length_le
      rw [List.length_append] at hle
      unfold Call.Within
      omega
    have hall := hchain.induction (Call.Within (s.definitions []).length) _
      (fun _ _ hcalls hwithin => hcalls.within hwithin) fun _ => hstart'
    exact Nat.lt_of_lt_of_le (hfails.lt (hall call hcall)) hlength

/-- A select of all columns of a source `a`. -/
def allOfA : Select := .simple [.bare (.star none)] (some (.table [] "a" none))

/-- A CTE `a` that mentions its own name, where the name is that of a table. -/
def cteOverItself : Statement := ⟨some ⟨false, [⟨"a", [], .ofSelect allOfA⟩]⟩, .select allOfA⟩

/-- The CTE is entered once; inside it the name does not lead to it again. -/
theorem resolution_enters_once_cteOverItself : ∃ calls,
    List.IsChain Call.Calls (.output .empty [] cteOverItself :: calls)
      ∧ (calls.filterMap Call.entered?).map PlacedCte.place = [[.cte 0]]
      ∧ (∃ site, calls.getLast? = some (.column site 0 (.table [] "a" none)))
      ∧ ∀ lookup, ∀ call ∈ calls, ¬ call.FailsTooDeep lookup := by
  let outer : Site := ⟨allOfA, [.body], PlacedScope.empty.enter [] cteOverItself⟩
  let inner : Site := ⟨allOfA, [.cte 0, .body], ⟨[], 1⟩⟩
  let c : PlacedCte := ⟨⟨⟨"a", [], .ofSelect allOfA⟩, false⟩, [.cte 0]⟩
  let calls : List Call := [.sources outer, .column outer 0 (.table [] "a" none),
    .definition ⟨[], 1⟩ c, .output ⟨[], 1⟩ [.cte 0] (.ofSelect allOfA), .sources inner,
    .column inner 0 (.table [] "a" none)]
  have hchain : List.IsChain Call.Calls (.output .empty [] cteOverItself :: calls) :=
    .cons_cons (.sources (List.mem_singleton_self outer)) <| .cons_cons (.column rfl) <|
      .cons_cons (.definition rfl) <| .cons_cons .body <|
      .cons_cons (.sources (List.mem_singleton_self inner)) <| .cons_cons (.column rfl) <|
      .singleton _
  have hcount : cteOverItself.allCtes.length = 1 := by decide +kernel
  obtain ⟨-, -, -, hfails⟩ :=
    (resolution_enters_once cteOverItself).2 _ calls .output hchain
  refine ⟨calls, hchain, rfl, ⟨inner, rfl⟩, fun lookup call hcall htoo => ?_⟩
  have hlt := hfails lookup call (List.mem_cons_of_mem _ hcall) htoo
  rw [hcount] at hlt
  exact absurd hlt (by decide)

end Sql
