import Sql.Proofs.Bindings
import Sql.Proofs.Sound

/-!
# Binding keeps a tree sound

A tree stays sound when its parameters keep their names, as they do when values are bound
(`Statement.bindParam_sound`).
-/

namespace Sql

/-! ## Grouping -/

section

variable (f : Param → Param)

theorem Body.isTerm_mapParams (b : Body) : (b.mapParams f).isTerm = b.isTerm := by
  cases b <;> simp [mapParams, isTerm]

theorem Body.groupsLeft_mapParams {b : Body} (h : b.GroupsLeft) : (b.mapParams f).GroupsLeft := by
  fun_induction GroupsLeft b with
  | case1 q => simp [mapParams, GroupsLeft]
  | case2 l op r ih =>
    rw [mapParams, GroupsLeft, isTerm_mapParams]
    exact ⟨ih h.1, h.2⟩
  | case3 s => simp [mapParams, GroupsLeft]

theorem Body.startsBare_mapParams (b : Body) : (b.mapParams f).startsBare = b.startsBare := by
  fun_induction startsBare b with
  | case1 q => simp [mapParams, startsBare]
  | case2 l op r ih => rw [mapParams, startsBare, ih]
  | case3 s => simp [mapParams, startsBare]

theorem Statement.startsBare_mapParams (s : Statement) :
    (s.mapParams f).startsBare = s.startsBare := by
  obtain ⟨w, b⟩ := s
  unfold startsBare
  rw [mapParams]
  dsimp only
  rw [Body.startsBare_mapParams]
  rcases w with _ | ⟨recursive, cs⟩ <;> rfl

end

/-! ## Soundness -/

section

variable {spelled : Prop} {f : Param → Param}

theorem Expr.sound_mapParams (hf : ∀ p, (f p).name = p.name) {e : Expr} (h : e.Sound spelled) :
    (e.mapParams f).Sound spelled := by
  obtain ⟨hfilled, hspelled⟩ := h
  cases e with
  | param p =>
    refine ⟨by simp [mapParams, Filled], fun hs => ?_⟩
    rw [mapParams, Expr.Spelled, hf]
    exact hspelled hs
  | call n args distinct filter window =>
    refine ⟨by simp [mapParams, Filled], fun hs => ?_⟩
    rw [mapParams, Expr.Spelled, mapParamsList_eq]
    exact ⟨(hspelled hs).1, fun hdistinct => by simpa using (hspelled hs).2 hdistinct⟩
  | inList e items negated =>
    refine ⟨?_, fun _ => by simp [mapParams, Expr.Spelled]⟩
    rw [mapParams, Filled, mapParamsList_eq, Ne, List.map_eq_nil_iff]
    exact hfilled
  | case scrutinee branches fallback =>
    refine ⟨?_, fun _ => by simp [mapParams, Expr.Spelled]⟩
    rw [mapParams, Filled, mapParamsBranches_eq, Ne, List.map_eq_nil_iff]
    exact hfilled
  | inQuery e s negated =>
    refine ⟨by simp [mapParams, Filled], fun hs => ?_⟩
    rw [mapParams, Expr.Spelled, Statement.startsBare_mapParams]
    exact hspelled hs
  | subquery s =>
    refine ⟨by simp [mapParams, Filled], fun hs => ?_⟩
    rw [mapParams, Expr.Spelled, Statement.startsBare_mapParams]
    exact hspelled hs
  | _ =>
    rw [mapParams]
    exact ⟨trivial, hspelled⟩

theorem JoinKind.suits_mapParams {kind : JoinKind} {c : JoinConstraint} (h : kind.Suits c) :
    kind.Suits (c.mapParams f) := by
  cases c <;> simpa [JoinKind.Suits, JoinKind.Takes, JoinConstraint.mapParams] using h

theorem Select.sound_mapParams {q : Select} (h : q.Sound spelled) :
    (q.mapParams f).Sound spelled := by
  obtain ⟨⟨hne, hstar, hfirst, hdiffer, hsuit⟩, hspelled⟩ := h
  have hsources := q.sources_mapParams f
  obtain ⟨distinct, items, source, joins, filter, groupBy, having, orderBy, limit, offset⟩ := q
  refine ⟨⟨?_, ?_, ?_, ?_, ?_⟩, fun hs => ⟨?_, ?_, ?_⟩⟩
  · rw [mapParams, mapParamsItems_eq, Ne, List.map_eq_nil_iff]
    exact hne
  · rw [mapParams, mapParamsItems_eq, List.forall_mem_map]
    exact fun i hi h => hstar i hi (by rwa [Expr.isStar_mapParams] at h)
  · rw [mapParams, mapParamsSource?_eq, mapParamsJoins_eq, Option.map_eq_none_iff,
      List.map_eq_nil_iff]
    exact hfirst
  · rw [hsources, List.map_map]
    simpa [Function.comp_def] using hdiffer
  · rw [mapParams, mapParamsJoins_eq, List.forall_mem_map]
    exact fun j hj => JoinKind.suits_mapParams (hsuit j hj)
  · rw [mapParams, mapParamsItems_eq, List.forall_mem_map]
    exact (hspelled hs).items
  · rw [hsources, List.forall_mem_map]
    intro t ht
    have := (hspelled hs).sources t ht
    cases t <;> simpa [Source.mapParams, Source.Spelled] using this
  · rw [mapParams, mapParamsJoins_eq, List.forall_mem_map]
    intro j hj
    have := (hspelled hs).shared j hj
    cases hc : j.constraint <;>
      simpa [hc, JoinConstraint.mapParams, JoinConstraint.sharedColumns] using this

theorem Statement.sound_mapParams {s : Statement} (h : s.Sound spelled) :
    (s.mapParams f).Sound spelled := by
  obtain ⟨⟨hne, hdiffer, hgroups⟩, hspelled⟩ := h
  refine ⟨⟨?_, ?_, ?_⟩, fun hs => ?_⟩
  · obtain ⟨w, b⟩ := s
    cases w with
    | none => simp [mapParams, mapParamsWith?]
    | some w =>
      obtain ⟨recursive, cs⟩ := w
      simpa [mapParams, mapParamsWith?, mapParamsCtes_eq] using hne
  · rw [Statement.ctes_mapParams, List.map_map]
    exact hdiffer
  · rw [Statement.body_mapParams]
    exact Body.groupsLeft_mapParams f hgroups
  · rw [Statement.Spelled, Statement.ctes_mapParams, List.forall_mem_map]
    exact hspelled hs

mutual

/-- An expression stays sound when its parameters keep their names. -/
theorem Expr.allSound_mapParams (hf : ∀ p, (f p).name = p.name) (e : Expr)
    (h : e.AllSound spelled) : (e.mapParams f).AllSound spelled := by
  obtain ⟨hsound, hchildren, hs⟩ := Expr.allSound_iff.mp h
  rw [Expr.allSound_iff, Expr.children_mapParams, Expr.statement?_mapParams, List.forall_mem_map]
  refine ⟨Expr.sound_mapParams hf hsound, fun c hc => ?_, fun t ht => ?_⟩
  · exact Expr.allSound_mapParams hf c (hchildren c hc)
  · obtain ⟨s, hmem, rfl⟩ := Option.map_eq_some_iff.mp ht
    exact Statement.allSound_mapParams hf s (hs s hmem)
termination_by sizeOf e
decreasing_by
  · exact Expr.sizeOf_lt_of_mem_children hc
  · exact Expr.sizeOf_lt_of_statement? hmem

theorem Body.allSound_mapParams (hf : ∀ p, (f p).name = p.name) (b : Body)
    (h : b.AllSound spelled) : (b.mapParams f).AllSound spelled := by
  match b with
  | .select q =>
    obtain ⟨hsound, hexprs, hsources⟩ := Select.allSound_iff.mp h
    rw [Body.mapParams, Select.allSound_iff, Select.exprs_mapParams, Select.sources_mapParams,
      List.forall_mem_map, List.forall_mem_map]
    refine ⟨Select.sound_mapParams hsound, fun e he => ?_, fun t ht u hu => ?_⟩
    · exact Expr.allSound_mapParams hf e (hexprs e he)
    · rw [Source.statement?_mapParams] at hu
      obtain ⟨s, hs, rfl⟩ := Option.map_eq_some_iff.mp hu
      exact Statement.allSound_mapParams hf s (hsources t ht s hs)
  | .setOp l op r =>
    obtain ⟨hl, hr⟩ := Body.allSound_setOp.mp h
    rw [Body.mapParams, Body.allSound_setOp]
    exact ⟨Body.allSound_mapParams hf l hl, Body.allSound_mapParams hf r hr⟩
  | .nested s =>
    rw [Body.mapParams, Body.allSound_nested]
    exact Statement.allSound_mapParams hf s (Body.allSound_nested.mp h)
termination_by sizeOf b
decreasing_by
  · have := Select.sizeOf_lt_of_mem_exprs he
    simp +arith only [Body.select.sizeOf_spec]; omega
  · have := Source.sizeOf_lt_of_statement? hs
    have := Select.sizeOf_lt_of_mem_sources ht
    simp +arith only [Body.select.sizeOf_spec]; omega
  all_goals simp +arith

/-- A statement stays sound when its parameters keep their names. -/
theorem Statement.allSound_mapParams (hf : ∀ p, (f p).name = p.name) (s : Statement)
    (h : s.AllSound spelled) : (s.mapParams f).AllSound spelled := by
  obtain ⟨hsound, hctes, hbody⟩ := Statement.allSound_iff.mp h
  rw [Statement.allSound_iff, Statement.ctes_mapParams, Statement.body_mapParams,
    List.forall_mem_map]
  refine ⟨Statement.sound_mapParams hsound, fun c hc => ?_, ?_⟩
  · exact Statement.allSound_mapParams hf c.statement (hctes c hc)
  · exact Body.allSound_mapParams hf s.body hbody
termination_by sizeOf s
decreasing_by
  · exact Statement.sizeOf_lt_of_mem_ctes hc
  · exact s.sizeOf_body_lt

end

/-! ## Binding -/

theorem Param.name_bindEach (values : List (String × Value)) (p : Param) :
    (p.bindEach values).name = p.name := by
  induction values generalizing p with
  | nil => rfl
  | cons b values ih =>
    obtain ⟨name, v⟩ := b
    show ((p.bindIf name v).bindEach values).name = p.name
    rw [ih, name_bindIf]

/-- Binding a value keeps a statement sound. -/
theorem Statement.bindParam_sound {s : Statement} (hs : s.AllSound spelled) {name : String}
    {v : Value} {r : Statement × Nat} (h : s.bindParam name v = .ok r) : r.1.AllSound spelled := by
  rw [bindParam, setParam_eq] at h
  by_cases hname : s.mentions name = 0
  · rw [if_pos hname] at h
    simp [Except.map] at h
  · rw [if_neg hname] at h
    rw [← Except.ok.inj h]
    exact Statement.allSound_mapParams (Param.name_bindIf name v) s hs

/-- Binding values keeps a statement sound. -/
theorem Statement.bindParams_sound {s t : Statement} (hs : s.AllSound spelled)
    {values : List (String × Value)} (h : s.bindParams values = .ok t) : t.AllSound spelled := by
  rw [bindParams] at h
  rcases s.unmentioned_or values with ⟨b, -, -, heq⟩ | ⟨-, heq⟩
  · rw [heq] at h
    simp [Except.map] at h
  · rw [heq] at h
    rw [← Except.ok.inj h]
    exact Statement.allSound_mapParams (Param.name_bindEach values) s hs

end

end Sql
