import Mathlib.Data.List.Nodup
import Sql.Parser
import Sql.Proofs.ChangedParams
import Sql.Proofs.Results
import Sql.Proofs.SameNodes

/-!
# Values bound to names

A value is bound by the visit of a tree in place, and mentions are collected by the walk in printed
order. Both enter the same parameters, so what is bound is what is collected.

* `Statement.mentions`: the mentions that are collected for a name.
* `Statement.setParam_eq`: what binding one value gives, and makes of the tree.
* `Statement.setParams_eq_ok`, `Statement.setParams_eq_error`: the same for several values.
* `Statement.setParams_perm`: values for different names are bound in any order.
* `Statement.binding_exact`: binding is exact.
-/

namespace Sql

/-! ## Collected mentions -/

/-- The mentions that uses count for a name. -/
def mentionsIn (name : String) : List ParamUse → Nat
  | [] => 0
  | u :: uses => if u.name = name then u.occurrences else mentionsIn name uses

/-- The mentions that are collected for a name. -/
def Statement.mentions (s : Statement) (name : String) : Nat := mentionsIn name s.paramUses

theorem mentionsIn_addUse (n name : String) (value : Option Value) (uses : List ParamUse) :
    mentionsIn n (addUse name value uses)
      = mentionsIn n uses + if name = n then 1 else 0 := by
  induction uses with
  | nil => simp [addUse, mentionsIn]
  | cons u uses ih =>
    unfold addUse
    by_cases hu : u.name = name
    · rw [if_pos hu]
      by_cases hn : name = n <;> simp [mentionsIn, hu, hn]
    · rw [if_neg hu, mentionsIn, mentionsIn, ih]
      by_cases hun : u.name = n
      · have hn : name ≠ n := fun hn => hu (hun.trans hn.symm)
        rw [if_pos hun, if_pos hun, if_neg hn, Nat.add_zero]
      · rw [if_neg hun, if_neg hun]

/-- Every parameter of the name counts once. -/
theorem mentionsIn_foldl (name : String) (ps : List Param) (uses : List ParamUse) :
    mentionsIn name (ps.foldl addParam uses)
      = mentionsIn name uses + ps.countP fun p => p.name = some name := by
  induction ps generalizing uses with
  | nil => rfl
  | cons p ps ih =>
    rw [List.foldl_cons, ih, List.countP_cons]
    unfold addParam
    cases hp : p.name with
    | none => simp
    | some n =>
      dsimp only
      rw [mentionsIn_addUse]
      by_cases hn : n = name
      · simp [hn]
        omega
      · simp [hn]

namespace Statement

theorem mentions_eq (s : Statement) (name : String) :
    s.mentions name = s.params.countP fun p => p.name = some name := by
  rw [mentions, paramUses, mentionsIn_foldl, mentionsIn, Nat.zero_add]

/-- A name is not mentioned when no parameter has it. -/
theorem mentions_eq_zero {s : Statement} {name : String} :
    s.mentions name = 0 ↔ ∀ p ∈ s.params, p.name ≠ some name := by
  rw [mentions_eq, List.countP_eq_zero]
  simp

/-- A change that keeps the names of parameters keeps their mentions. -/
theorem mentions_mapParams {f : Param → Param} (hf : ∀ p, (f p).name = p.name) (s : Statement)
    (name : String) : (s.mapParams f).mentions name = s.mentions name := by
  rw [mentions_eq, mentions_eq, params_mapParams, List.countP_map]
  congr 1
  funext p
  rw [Function.comp_apply, hf]

end Statement

/-! ## One name -/

namespace Param

theorem name_bindIf (name : String) (v : Value) (p : Param) : (p.bindIf name v).name = p.name := by
  unfold bindIf
  split <;> rfl

theorem bindIf_of_ne {name : String} {p : Param} (h : p.name ≠ some name) (v : Value) :
    p.bindIf name v = p :=
  if_neg h

/-- Count a parameter of the name. -/
def tally (name : String) (n : Nat) (p : Param) : Nat := if p.name = some name then n + 1 else n

theorem foldl_tally (name : String) (ps : List Param) (n : Nat) :
    ps.foldl (tally name) n = n + ps.countP fun p => p.name = some name := by
  induction ps generalizing n with
  | nil => rfl
  | cons p ps ih =>
    rw [List.foldl_cons, ih, List.countP_cons, tally]
    by_cases hp : p.name = some name
    · simp [hp]
      omega
    · simp [hp]

end Param

/-- Binding a value at a node counts the parameter there and changes it. -/
theorem Expr.visits_bindIf (name : String) (v : Value) (e : Expr) :
    Visits (Ledger.fold (Param.tally name)) (e.bindIf name v) e.param?.toList
      (e.mapParam (Param.bindIf name v)) := by
  cases e with
  | param p =>
    rintro n _ rfl
    show _ = (_, Param.tally name n p)
    rw [bindIf, Param.tally]
    by_cases hp : p.name = some name
    · rw [if_pos hp, if_pos hp]
      rfl
    · rw [if_neg hp, if_neg hp]
      rfl
  | _ => exact Visits.pure _

namespace Statement

/-- **What binding a value does:** each mention that is collected is bound, and they are counted. -/
theorem setParam_eq (s : Statement) (name : String) (v : Value) :
    s.setParam name v = (s.mapParams (Param.bindIf name v),
      if s.mentions name = 0 then .error (.unknownParameter name) else .ok (s.mentions name)) := by
  have hvisit := Statement.visits_exprs (Expr.visits_bindIf name v) s
  -- the visit goes select by select, and a count does not see the order
  have hcount : (s.nodes.flatMap fun e => e.param?.toList).foldl (Param.tally name) 0
      = s.mentions name := by
    have hperm : (s.nodes.filterMap Expr.param?).Perm s.params := s.nodes_perm.filterMap _
    rw [Param.foldl_tally, Nat.zero_add, ← List.filterMap_eq_flatMap_toList, hperm.countP_eq,
      mentions_eq]
  have hrun := hvisit 0 (s.mentions name) hcount
  rw [setParam, hrun]

theorem mapParams_bindIf_of_mentions {s : Statement} {name : String} (h : s.mentions name = 0)
    (v : Value) : s.mapParams (Param.bindIf name v) = s :=
  mapParams_eq_self fun p hp => Param.bindIf_of_ne (mentions_eq_zero.mp h p hp) v

end Statement

/-! ## Several names -/

/-- The parameter after values for several names, one after the other. -/
def Param.bindEach (values : List (String × Value)) (p : Param) : Param :=
  values.foldl (fun p b => p.bindIf b.1 b.2) p

namespace Statement

variable {s : Statement} {values : List (String × Value)}

/-- Values for names that are mentioned are all bound. -/
theorem setEach_of_mentions (h : ∀ b ∈ values, s.mentions b.1 ≠ 0) :
    s.setEach values = (s.mapParams (Param.bindEach values), .ok ()) := by
  induction values generalizing s with
  | nil =>
    have hkept : s.mapParams (Param.bindEach []) = s := mapParams_eq_self fun p _ => rfl
    rw [hkept]
    rfl
  | cons b values ih =>
    obtain ⟨name, v⟩ := b
    rw [List.forall_mem_cons] at h
    have hrest : ∀ b ∈ values, (s.mapParams (Param.bindIf name v)).mentions b.1 ≠ 0 := by
      intro b hb
      rw [mentions_mapParams (Param.name_bindIf name v)]
      exact h.2 b hb
    have hboth : (s.mapParams (Param.bindIf name v)).mapParams (Param.bindEach values)
        = s.mapParams (Param.bindEach ((name, v) :: values)) :=
      s.mapParams_mapParams fun p _ => rfl
    rw [setEach, setParam_eq, if_neg h.1]
    dsimp only
    rw [ih hrest, hboth]

/-- Binding stops at the first name that is not mentioned. -/
theorem setEach_error {b : String × Value}
    (h : values.find? (fun b => s.mentions b.1 = 0) = some b) :
    (s.setEach values).2 = .error (.unknownParameter b.1) := by
  induction values generalizing s with
  | nil => simp at h
  | cons c values ih =>
    obtain ⟨name, v⟩ := c
    rw [setEach, setParam_eq]
    by_cases hname : s.mentions name = 0
    · rw [List.find?_cons_of_pos (by simpa using hname)] at h
      obtain rfl := Option.some.inj h
      rw [if_pos hname]
    · rw [List.find?_cons_of_neg (by simpa using hname)] at h
      rw [if_neg hname]
      refine ih ?_
      simpa only [mentions_mapParams (Param.name_bindIf name v)] using h

theorem setParams_eq_ok (h : ∀ b ∈ values, s.mentions b.1 ≠ 0) :
    s.setParams values = (s.mapParams (Param.bindEach values), .ok ()) := by
  rw [setParams, setEach_of_mentions h]

/-- A name that is not mentioned refuses all values. -/
theorem setParams_eq_error {b : String × Value}
    (h : values.find? (fun b => s.mentions b.1 = 0) = some b) :
    s.setParams values = (s, .error (.unknownParameter b.1)) := by
  have herror := setEach_error h
  rw [setParams]
  cases hwork : s.setEach values with
  | mk work result =>
    rw [hwork] at herror
    rw [show result = _ from herror]

/-- Some name is not mentioned, and the first such is found, or all are mentioned. -/
theorem unmentioned_or (s : Statement) (values : List (String × Value)) :
    (∃ b ∈ values, s.mentions b.1 = 0
        ∧ s.setParams values = (s, .error (.unknownParameter b.1)))
      ∨ (∀ b ∈ values, s.mentions b.1 ≠ 0)
        ∧ s.setParams values = (s.mapParams (Param.bindEach values), .ok ()) := by
  cases h : values.find? (fun b => s.mentions b.1 = 0) with
  | some b =>
    have hb := List.find?_some h
    exact .inl ⟨b, List.mem_of_find?_eq_some h, by simpa using hb, setParams_eq_error h⟩
  | none =>
    have hall : ∀ b ∈ values, s.mentions b.1 ≠ 0 := by simpa using h
    exact .inr ⟨hall, setParams_eq_ok hall⟩

end Statement

/-! ## Any order -/

namespace Param

theorem bindIf_comm {n m : String} (h : n ≠ m) (v w : Value) (p : Param) :
    (p.bindIf n v).bindIf m w = (p.bindIf m w).bindIf n v := by
  by_cases hn : p.name = some n
  · have hm : p.name ≠ some m := fun hm => h (Option.some.inj (hn.symm.trans hm))
    have hm' : (p.bindIf n v).name ≠ some m := by rwa [name_bindIf]
    rw [bindIf_of_ne hm w, bindIf_of_ne hm' w]
  · have hn' : (p.bindIf m w).name ≠ some n := by rwa [name_bindIf]
    rw [bindIf_of_ne hn v, bindIf_of_ne hn' v]

/-- Values for different names are bound in any order. -/
theorem bindEach_perm {values values' : List (String × Value)}
    (hnodup : (values.map Prod.fst).Nodup) (hperm : values.Perm values') :
    bindEach values = bindEach values' := by
  funext p
  refine hperm.foldl_eq' (fun b hb c hc p => ?_) p
  by_cases hbc : b.1 = c.1
  · rw [List.inj_on_of_nodup_map hnodup hb hc hbc]
  · exact bindIf_comm hbc b.2 c.2 p

end Param

/-- The same names are mentioned in whatever order they come. -/
theorem Statement.setParams_perm (s : Statement) {values values' : List (String × Value)}
    (hnodup : (values.map Prod.fst).Nodup) (hperm : values.Perm values') :
    (s.setParams values').1 = (s.setParams values).1
      ∧ ((s.setParams values').2 = .ok () ↔ (s.setParams values).2 = .ok ()) := by
  rcases s.unmentioned_or values with ⟨b, hb, hzero, heq⟩ | ⟨hall, heq⟩
  · rcases s.unmentioned_or values' with ⟨b', hb', hzero', heq'⟩ | ⟨hall', heq'⟩
    · -- each order may be refused for another name, and both leave the tree
      rw [heq, heq']
      simp
    · exact absurd hzero (hall' b (hperm.subset hb))
  · rcases s.unmentioned_or values' with ⟨b', hb', hzero', heq'⟩ | ⟨hall', heq'⟩
    · exact absurd hzero' (hall b' (hperm.symm.subset hb'))
    · rw [heq, heq', Param.bindEach_perm hnodup hperm]
      simp

/-- **Binding is exact.** Where a name is mentioned, its value is bound to the parameters of that
name and to nothing else, and their number is the one that is collected; where it is not mentioned,
binding is refused and the tree stays. Values for several names are bound in any order, and refused
exactly when one of the names is not mentioned. -/
theorem Statement.binding_exact (s : Statement) :
    (∀ name v, 0 < s.mentions name →
        s.setParam name v = (s.mapParams (Param.bindIf name v), .ok (s.mentions name))
          ∧ (s.mapParams (Param.bindIf name v)).params = s.params.map (Param.bindIf name v))
      ∧ (∀ name v, s.mentions name = 0 →
        s.setParam name v = (s, .error (.unknownParameter name)))
      ∧ (∀ values, ((∃ e, (s.setParams values).2 = .error e) ↔ ∃ b ∈ values, s.mentions b.1 = 0)
        ∧ (∀ e, (s.setParams values).2 = .error e → (s.setParams values).1 = s)
        ∧ ((s.setParams values).2 = .ok () →
          (s.setParams values).1 = s.mapParams (Param.bindEach values)))
      ∧ ∀ values values', (values.map Prod.fst).Nodup → values.Perm values' →
        (s.setParams values').1 = (s.setParams values).1
          ∧ ((s.setParams values').2 = .ok () ↔ (s.setParams values).2 = .ok ()) := by
  refine ⟨fun name v h => ⟨?_, s.params_mapParams⟩, fun name v h => ?_, fun values => ?_, ?_⟩
  · rw [setParam_eq, if_neg (by omega)]
  · rw [setParam_eq, if_pos h, mapParams_bindIf_of_mentions h]
  · rcases s.unmentioned_or values with ⟨b, hb, hzero, heq⟩ | ⟨hall, heq⟩
    · rw [heq]
      exact ⟨⟨fun _ => ⟨b, hb, hzero⟩, fun _ => ⟨_, rfl⟩⟩, fun _ _ => rfl, fun h => by simp at h⟩
    · rw [heq]
      refine ⟨⟨?_, ?_⟩, fun e he => ?_, fun _ => rfl⟩
      · rintro ⟨e, he⟩
        simp at he
      · rintro ⟨b, hb, hzero⟩
        exact absurd hzero (hall b hb)
      · simp at he
  · intro values values' hnodup hperm
    exact s.setParams_perm hnodup hperm

/-- A value for a name that is mentioned in a CTE, in a FILTER condition and in LIMIT, one for a
name that is not mentioned, and values for two names in both orders. -/
theorem binding_exact_nested :
    ∃ s, parse ("with a as (select :x as n) select sum(n) filter (where n < :x) from a "
          ++ "where n in (select :y) limit :x") = .ok s
      ∧ 0 < s.mentions "x" ∧ s.mentions "z" = 0
      ∧ s.setParam "x" (.nat 7) = (s.mapParams (Param.bindIf "x" (.nat 7)), .ok 3)
      ∧ s.setParam "z" (.nat 7) = (s, .error (.unknownParameter "z"))
      ∧ ([("x", Value.nat 7), ("y", Value.nat 8)].map Prod.fst).Nodup
      ∧ [("x", Value.nat 7), ("y", Value.nat 8)].Perm [("y", Value.nat 8), ("x", Value.nat 7)]
      ∧ (s.setParams [("x", .nat 7), ("y", .nat 8)]).2 = .ok ()
      ∧ (s.setParams [("y", .nat 8), ("x", .nat 7)]).1
        = s.mapParams (Param.bindEach [("x", .nat 7), ("y", .nat 8)])
      ∧ (s.setParams [("x", .nat 7), ("z", .nat 8)]).1 = s := by
  obtain ⟨s, hs, h⟩ := exists_ok_of_any
    (show (parse ("with a as (select :x as n) select sum(n) filter (where n < :x) from a "
        ++ "where n in (select :y) limit :x")).toOption.any
      (fun s => s.mentions "x" == 3 && s.mentions "y" == 1 && s.mentions "z" == 0) = true by
        decide +kernel)
  simp only [Bool.and_eq_true, beq_iff_eq] at h
  obtain ⟨⟨hx, hy⟩, hz⟩ := h
  have hpos : 0 < s.mentions "x" := by omega
  have hnodup : ([("x", Value.nat 7), ("y", Value.nat 8)].map Prod.fst).Nodup := by decide
  have hperm : [("x", Value.nat 7), ("y", Value.nat 8)].Perm
      [("y", Value.nat 8), ("x", Value.nat 7)] := .swap _ _ _
  obtain ⟨hbound, hunknown, hall, horder⟩ := s.binding_exact
  obtain ⟨hrefused, -, htree⟩ := hall [("x", .nat 7), ("y", .nat 8)]
  have hok : (s.setParams [("x", .nat 7), ("y", .nat 8)]).2 = .ok () := by
    cases hresult : (s.setParams [("x", .nat 7), ("y", .nat 8)]).2 with
    | ok u => rfl
    | error e => simpa [hx, hy] using hrefused.mp ⟨e, hresult⟩
  obtain ⟨hrefused', hkept, -⟩ := hall [("x", .nat 7), ("z", .nat 8)]
  obtain ⟨e, he⟩ := hrefused'.mpr ⟨("z", .nat 8), by simp, hz⟩
  refine ⟨s, hs, hpos, hz, ?_, hunknown "z" _ hz, hnodup, hperm, hok, ?_, hkept e he⟩
  · rw [(hbound "x" (.nat 7) hpos).1, hx]
  · rw [(horder _ _ hnodup hperm).1, htree hok]

end Sql
