import Mathlib.Data.List.Flatten
import Mathlib.Data.List.Sigma
import Sql.Proofs.Places

/-!
# CTE definitions and their places

The definitions of a statement, each with the path to its body. A definition is told apart from
every other by its place, even where their names and bodies are equal.

* `Statement.definitions` lists the definitions that columns can come from.
* `Statement.definitions_pairwise`: no two of them have the same place.
* `Statement.definitions_stand`: the place of a definition leads to its body.
* `Statement.definitions_sublist`: they are CTEs of the statement, each once.
-/

namespace Sql

mutual

/-- The CTE definitions in a statement at a place, each before the definitions in its body. Those in
subqueries of expressions are left out, as no column comes from there. -/
def Statement.definitions (place : Path) (s : Statement) : List PlacedCte :=
  (placeCtes place s.isRecursive 0 s.ctes).attach.flatMap
      (fun c => c.1 :: c.1.entry.cte.statement.definitions c.1.place)
    ++ s.body.definitions (place ++ [.body])
termination_by sizeOf s
decreasing_by
  · obtain ⟨j, hj, -⟩ := mem_placeCtes c.2
    exact Statement.sizeOf_lt_of_mem_ctes (List.mem_of_getElem? hj)
  · exact s.sizeOf_body_lt

/-- The CTE definitions in a body at a place. -/
def Body.definitions (place : Path) (b : Body) : List PlacedCte :=
  match b with
  | .select q =>
    q.sources.zipIdx.attach.flatMap fun t =>
      match _h : t.1.1.statement? with
      | some s => s.definitions (place ++ [.source t.1.2])
      | none => []
  | .setOp left _ right =>
    left.definitions (place ++ [.left]) ++ right.definitions (place ++ [.right])
  | .nested s => s.definitions (place ++ [.operand])
termination_by sizeOf b
decreasing_by
  · have hmem := List.fst_mem_of_mem_zipIdx t.2
    have hsource := Select.sizeOf_lt_of_mem_sources hmem
    have hstatement := Source.sizeOf_lt_of_statement? _h
    simp only [Body.select.sizeOf_spec]
    omega
  all_goals simp +arith

end

/-- A definition at its place, and the definitions in its body. -/
def PlacedCte.definitions (c : PlacedCte) : List PlacedCte :=
  c :: c.entry.cte.statement.definitions c.place

/-- The CTE definitions in a source at a place. -/
def Source.definitions (place : Path) (t : Source) : List PlacedCte :=
  match t.statement? with
  | some s => s.definitions place
  | none => []

theorem Statement.definitions_eq (place : Path) (s : Statement) :
    s.definitions place
      = (placeCtes place s.isRecursive 0 s.ctes).flatMap PlacedCte.definitions
        ++ s.body.definitions (place ++ [.body]) := by
  rw [definitions, List.flatMap_subtype (g := PlacedCte.definitions) (fun _ _ => rfl),
    List.unattach_attach]

theorem Body.definitions_select (place : Path) (q : Select) :
    (Body.select q).definitions place
      = q.sources.zipIdx.flatMap fun t => t.1.definitions (place ++ [.source t.2]) := by
  rw [definitions, List.flatMap_subtype
    (g := fun t => t.1.definitions (place ++ [.source t.2])), List.unattach_attach]
  intro t _
  simp only [Source.definitions]
  split <;> simp_all

theorem Body.definitions_setOp (place : Path) (l r : Body) (op : SetOperator) :
    (Body.setOp l op r).definitions place
      = l.definitions (place ++ [.left]) ++ r.definitions (place ++ [.right]) := by
  rw [definitions]

theorem Body.definitions_nested (place : Path) (s : Statement) :
    (Body.nested s).definitions place = s.definitions (place ++ [.operand]) := by
  rw [definitions]

/-! ## Places below a place -/

/-- The definition stands at the place that a step leads to, or below it. -/
def PlacedCte.BelowStep (d : PlacedCte) (place : Path) (step : Step) : Prop :=
  ∃ rest, d.place = place ++ step :: rest

/-- Different steps lead to different definitions. -/
theorem PlacedCte.BelowStep.place_ne {c d : PlacedCte} {place : Path} {a b : Step}
    (hc : c.BelowStep place a) (hd : d.BelowStep place b) (h : a ≠ b) : c.place ≠ d.place := by
  obtain ⟨rest, hc⟩ := hc
  obtain ⟨rest', hd⟩ := hd
  intro heq
  rw [hc, hd] at heq
  exact h (List.cons.inj (List.append_cancel_left heq)).1

theorem PlacedCte.BelowStep.of_snoc {d : PlacedCte} {place : Path} {a b : Step}
    (h : d.BelowStep (place ++ [a]) b) : d.BelowStep place a := by
  obtain ⟨rest, h⟩ := h
  exact ⟨b :: rest, by simp [h]⟩

mutual

theorem Statement.exists_belowStep {place : Path} (s : Statement) :
    ∀ d ∈ s.definitions place, ∃ step, d.BelowStep place step := by
  intro d hd
  rw [Statement.definitions_eq, List.mem_append, List.mem_flatMap] at hd
  rcases hd with ⟨c, hc, hd⟩ | hd
  · obtain ⟨j, hj, hplace⟩ := mem_placeCtes hc
    refine ⟨.cte (0 + j), ?_⟩
    rcases List.mem_cons.mp hd with rfl | hd
    · exact ⟨[], hplace⟩
    · obtain ⟨step, hstep⟩ := Statement.exists_belowStep c.entry.cte.statement d hd
      rw [hplace] at hstep
      exact hstep.of_snoc
  · obtain ⟨step, hstep⟩ := Body.exists_belowStep s.body d hd
    exact ⟨.body, hstep.of_snoc⟩
termination_by sizeOf s
decreasing_by
  · exact Statement.sizeOf_lt_of_mem_ctes (List.mem_of_getElem? hj)
  · exact s.sizeOf_body_lt

theorem Body.exists_belowStep {place : Path} (b : Body) :
    ∀ d ∈ b.definitions place, ∃ step, d.BelowStep place step := by
  intro d hd
  match b with
  | .select q =>
    rw [Body.definitions_select, List.mem_flatMap] at hd
    obtain ⟨⟨t, i⟩, ht, hd⟩ := hd
    have hmem := List.fst_mem_of_mem_zipIdx ht
    cases t with
    | table path name asName => simp [Source.definitions, Source.statement?] at hd
    | subquery s asName =>
      obtain ⟨step, hstep⟩ := Statement.exists_belowStep s d hd
      exact ⟨.source i, hstep.of_snoc⟩
  | .setOp l op r =>
    rw [Body.definitions_setOp, List.mem_append] at hd
    rcases hd with hd | hd
    · obtain ⟨step, hstep⟩ := Body.exists_belowStep l d hd
      exact ⟨.left, hstep.of_snoc⟩
    · obtain ⟨step, hstep⟩ := Body.exists_belowStep r d hd
      exact ⟨.right, hstep.of_snoc⟩
  | .nested s =>
    rw [Body.definitions_nested] at hd
    obtain ⟨step, hstep⟩ := Statement.exists_belowStep s d hd
    exact ⟨.operand, hstep.of_snoc⟩
termination_by sizeOf b
decreasing_by
  · have hsource := Select.sizeOf_lt_of_mem_sources hmem
    simp only [Source.subquery.sizeOf_spec, Body.select.sizeOf_spec] at *
    omega
  all_goals simp +arith

end

/-- What is below the place that a step leads to. -/
theorem Statement.belowStep_of_mem {place : Path} {step : Step} {s : Statement} {d : PlacedCte}
    (hd : d ∈ s.definitions (place ++ [step])) : d.BelowStep place step := by
  obtain ⟨next, hnext⟩ := s.exists_belowStep d hd
  exact hnext.of_snoc

theorem Body.belowStep_of_mem {place : Path} {step : Step} {b : Body} {d : PlacedCte}
    (hd : d ∈ b.definitions (place ++ [step])) : d.BelowStep place step := by
  obtain ⟨next, hnext⟩ := b.exists_belowStep d hd
  exact hnext.of_snoc

theorem Source.belowStep_of_mem {place : Path} {step : Step} {t : Source} {d : PlacedCte}
    (hd : d ∈ t.definitions (place ++ [step])) : d.BelowStep place step := by
  cases t with
  | table path name asName => simp [definitions, statement?] at hd
  | subquery s asName => exact Statement.belowStep_of_mem hd

theorem PlacedCte.belowStep_of_mem {place : Path} {step : Step} {c d : PlacedCte}
    (hc : c.place = place ++ [step]) (hd : d ∈ c.definitions) : d.BelowStep place step := by
  rcases List.mem_cons.mp hd with rfl | hd
  · exact ⟨[], hc⟩
  · rw [hc] at hd
    exact Statement.belowStep_of_mem hd

/-! ## No two definitions at one place -/

/-- The places of the definitions are pairwise different. -/
def PlacesDiffer (ds : List PlacedCte) : Prop := ds.Pairwise fun c d => c.place ≠ d.place

theorem placesDiffer_append {place : Path} {a b : Step} {cs ds : List PlacedCte}
    (hcs : PlacesDiffer cs) (hds : PlacesDiffer ds) (hc : ∀ c ∈ cs, c.BelowStep place a)
    (hd : ∀ d ∈ ds, d.BelowStep place b) (h : a ≠ b) : PlacesDiffer (cs ++ ds) :=
  List.pairwise_append.mpr ⟨hcs, hds, fun c hc' d hd' => (hc c hc').place_ne (hd d hd') h⟩

/-- The CTEs of one clause stand at different places. -/
theorem placeCtes_pairwise (place : Path) (recursive : Bool) (i : Nat) (cs : List Cte) :
    (placeCtes place recursive i cs).Pairwise fun c d =>
      ∃ j k, c.place = place ++ [.cte j] ∧ d.place = place ++ [.cte k] ∧ j ≠ k := by
  induction cs generalizing i with
  | nil => exact List.Pairwise.nil
  | cons c cs ih =>
    refine List.pairwise_cons.mpr ⟨fun d hd => ?_, ih (i + 1)⟩
    obtain ⟨k, -, hplace⟩ := mem_placeCtes hd
    exact ⟨i, i + 1 + k, rfl, hplace, by omega⟩

mutual

/-- **No two definitions of a statement have the same place.** -/
theorem Statement.definitions_pairwise (place : Path) (s : Statement) :
    PlacesDiffer (s.definitions place) := by
  rw [Statement.definitions_eq]
  have hbody := s.body.definitions_pairwise (place ++ [.body])
  refine List.pairwise_append.mpr ⟨?_, hbody, ?_⟩
  · refine List.pairwise_flatMap.mpr ⟨fun c hc => ?_, ?_⟩
    · obtain ⟨j, hj, -⟩ := mem_placeCtes hc
      refine List.pairwise_cons.mpr ⟨fun d hd => ?_, Statement.definitions_pairwise _ _⟩
      -- what is in the body of a definition stands strictly below it
      obtain ⟨step, rest, hplace⟩ := Statement.exists_belowStep _ d hd
      rw [hplace]
      simp
    · refine (placeCtes_pairwise place s.isRecursive 0 s.ctes).imp fun h c hc d hd => ?_
      obtain ⟨j, k, hj, hk, hjk⟩ := h
      have hstep : Step.cte j ≠ Step.cte k := fun heq => hjk (Step.cte.inj heq)
      exact (PlacedCte.belowStep_of_mem hj hc).place_ne (PlacedCte.belowStep_of_mem hk hd) hstep
  · intro d hd e he
    obtain ⟨c, hc, hd⟩ := List.mem_flatMap.mp hd
    obtain ⟨j, -, hplace⟩ := mem_placeCtes hc
    exact (PlacedCte.belowStep_of_mem hplace hd).place_ne (Body.belowStep_of_mem he) (by simp)
termination_by sizeOf s
decreasing_by
  · exact s.sizeOf_body_lt
  · exact Statement.sizeOf_lt_of_mem_ctes (List.mem_of_getElem? hj)

/-- The same for a body. -/
theorem Body.definitions_pairwise (place : Path) (b : Body) :
    PlacesDiffer (b.definitions place) := by
  match b with
  | .select q =>
    rw [Body.definitions_select]
    refine List.pairwise_flatMap.mpr ⟨fun ⟨t, i⟩ ht => ?_, ?_⟩
    · have hmem := List.fst_mem_of_mem_zipIdx ht
      cases t with
      | table path name asName => exact List.Pairwise.nil
      | subquery s asName => exact s.definitions_pairwise _
    · have hindices := List.pairwise_map.mp (List.nodup_zipIdx_map_snd q.sources)
      refine hindices.imp fun hij c hc d hd => ?_
      have hstep : ∀ {i j : Nat}, i ≠ j → Step.source i ≠ Step.source j :=
        fun h heq => h (Step.source.inj heq)
      exact (Source.belowStep_of_mem hc).place_ne (Source.belowStep_of_mem hd) (hstep hij)
  | .setOp l op r =>
    rw [Body.definitions_setOp]
    exact placesDiffer_append (l.definitions_pairwise _) (r.definitions_pairwise _)
      (fun _ => Body.belowStep_of_mem) (fun _ => Body.belowStep_of_mem) (by simp)
  | .nested s =>
    rw [Body.definitions_nested]
    exact s.definitions_pairwise _
termination_by sizeOf b
decreasing_by
  · have hsource := Select.sizeOf_lt_of_mem_sources hmem
    simp only [Source.subquery.sizeOf_spec, Body.select.sizeOf_spec] at *
    omega
  all_goals simp +arith

end

/-! ## Definitions stand at their places -/

section

variable {root : Statement}

mutual

/-- **The place of a definition leads to its body.** -/
theorem Statement.definitions_stand {place : Path} {s : Statement}
    (h : Part.follow place (.inl root) = some (.inl s)) :
    ∀ d ∈ s.definitions place,
      Part.follow d.place (.inl root) = some (.inl d.entry.cte.statement) := by
  intro d hd
  rw [Statement.definitions_eq, List.mem_append, List.mem_flatMap] at hd
  rcases hd with ⟨c, hc, hd⟩ | hd
  · obtain ⟨j, hj, hplace⟩ := mem_placeCtes hc
    have hstands : Part.follow c.place (.inl root) = some (.inl c.entry.cte.statement) := by
      rw [hplace, Part.follow_snoc h, Nat.zero_add, Part.next, hj, Option.map_some]
    rcases List.mem_cons.mp hd with rfl | hd
    · exact hstands
    · exact Statement.definitions_stand hstands d hd
  · exact Body.definitions_stand (Part.follow_snoc h) d hd
termination_by sizeOf s
decreasing_by
  · exact Statement.sizeOf_lt_of_mem_ctes (List.mem_of_getElem? hj)
  · exact s.sizeOf_body_lt

/-- The same for the definitions in a body. -/
theorem Body.definitions_stand {place : Path} {b : Body}
    (h : Part.follow place (.inl root) = some (.inr b)) :
    ∀ d ∈ b.definitions place,
      Part.follow d.place (.inl root) = some (.inl d.entry.cte.statement) := by
  intro d hd
  match b with
  | .select q =>
    rw [Body.definitions_select, List.mem_flatMap] at hd
    obtain ⟨⟨t, i⟩, ht, hd⟩ := hd
    have hsource : q.sources[i]? = some t := List.mk_mem_zipIdx_iff_getElem?.mp ht
    cases t with
    | table path name asName => simp [Source.definitions, Source.statement?] at hd
    | subquery s asName =>
      refine Statement.definitions_stand ?_ d hd
      rw [Part.follow_snoc h, Part.next, hsource]
      rfl
  | .setOp l op r =>
    rw [Body.definitions_setOp, List.mem_append] at hd
    rcases hd with hd | hd
    · exact Body.definitions_stand (Part.follow_snoc h) d hd
    · exact Body.definitions_stand (Part.follow_snoc h) d hd
  | .nested s =>
    rw [Body.definitions_nested] at hd
    exact Statement.definitions_stand (Part.follow_snoc h) d hd
termination_by sizeOf b
decreasing_by
  · have hlt := Select.sizeOf_lt_of_mem_sources (List.mem_of_getElem? hsource)
    simp only [Source.subquery.sizeOf_spec, Body.select.sizeOf_spec] at *
    omega
  all_goals simp +arith

end

end

/-! ## Definitions among all CTEs -/

mutual

/-- **The definitions are CTEs of the statement,** each once and in order. -/
theorem Statement.definitions_sublist (place : Path) (s : Statement) :
    ((s.definitions place).map fun d => d.entry.cte).Sublist s.allCtes := by
  have hctes : ∀ (cs : List Cte) (i : Nat),
      (∀ c ∈ cs, c ∈ s.ctes) →
      (((placeCtes place s.isRecursive i cs).flatMap PlacedCte.definitions).map
        fun d => d.entry.cte).Sublist (cs.flatMap fun c => c :: c.statement.allCtes) := by
    intro cs
    induction cs with
    | nil => exact fun _ _ => List.Sublist.refl _
    | cons c cs ih =>
      intro i hcs
      obtain ⟨hc, hcs⟩ := List.forall_mem_cons.mp hcs
      rw [placeCtes, List.flatMap_cons, List.flatMap_cons, List.map_append]
      exact ((c.statement.definitions_sublist _).cons_cons c).append (ih (i + 1) hcs)
  rw [Statement.definitions_eq, Statement.allCtes_eq, List.map_append]
  exact (hctes s.ctes 0 fun _ => id).append (s.body.definitions_sublist _)
termination_by sizeOf s
decreasing_by
  · exact Statement.sizeOf_lt_of_mem_ctes hc
  · exact s.sizeOf_body_lt

/-- The same for a body. -/
theorem Body.definitions_sublist (place : Path) (b : Body) :
    ((b.definitions place).map fun d => d.entry.cte).Sublist b.allCtes := by
  match b with
  | .select q =>
    have hsources : ∀ (ts : List Source) (i : Nat), (∀ t ∈ ts, t ∈ q.sources) →
        (((ts.zipIdx i).flatMap fun t => t.1.definitions (place ++ [.source t.2])).map
          fun d => d.entry.cte).Sublist
          ((ts.filterMap Source.statement?).flatMap Statement.allCtes) := by
      intro ts
      induction ts with
      | nil => exact fun _ _ => List.Sublist.refl _
      | cons t ts ih =>
        intro i hts
        obtain ⟨ht, hrest⟩ := List.forall_mem_cons.mp hts
        rw [List.zipIdx_cons, List.flatMap_cons, List.map_append]
        cases t with
        | table path name asName => exact ih (i + 1) hrest
        | subquery s asName =>
          exact (s.definitions_sublist _).append (ih (i + 1) hrest)
    rw [Body.definitions_select, Body.allCtes_select, Select.subqueries, List.flatMap_append]
    exact (hsources q.sources 0 fun _ => id).trans (List.sublist_append_left _ _)
  | .setOp l op r =>
    rw [Body.definitions_setOp, Body.allCtes_setOp, List.map_append]
    exact (l.definitions_sublist _).append (r.definitions_sublist _)
  | .nested s =>
    rw [Body.definitions_nested, Body.allCtes_nested]
    exact s.definitions_sublist _
termination_by sizeOf b
decreasing_by
  · have hsource := Select.sizeOf_lt_of_mem_sources ht
    simp only [Source.subquery.sizeOf_spec, Body.select.sizeOf_spec] at *
    omega
  all_goals simp +arith

end

end Sql
