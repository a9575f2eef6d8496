import Sql.Proofs.FilterMentions
import Sql.Proofs.Placeholders
import Sql.Proofs.Runs

/-!
# Parameters that criteria add

The names of the parameters that criteria add follow from the keys alone; a statement may have them
already, and two criteria may agree on one.

* `Statement.filterBy_params`: printing is refused exactly when two values meet under one name, and
  else every value of the criteria is handed out, and every value of the statement that no criterion
  replaces.
* `filterBy_replaces`: a criterion can give a value to a parameter that the caller has left open, and
  two criteria can be in each other's way.
-/

namespace Sql

/-! ## Values handed out by name -/

theorem mem_names_addUse {n name : String} {value : Option Value} {uses : List ParamUse} :
    n ∈ (addUse name value uses).map ParamUse.name ↔ n = name ∨ n ∈ uses.map ParamUse.name := by
  induction uses with
  | nil => simp [addUse]
  | cons u uses ih =>
    unfold addUse
    split
    · next h => simp [h]
    · rw [List.map_cons, List.mem_cons, ih, List.map_cons, List.mem_cons, or_left_comm]

theorem mem_names_foldl_addParam {n : String} {ps : List Param} {uses : List ParamUse} :
    n ∈ (ps.foldl addParam uses).map ParamUse.name ↔
      n ∈ uses.map ParamUse.name ∨ ∃ p ∈ ps, p.name = some n := by
  induction ps generalizing uses with
  | nil => simp
  | cons p ps ih =>
    rw [List.foldl_cons, ih, List.exists_mem_cons_iff, ← or_assoc]
    refine or_congr_left ?_
    unfold addParam
    cases p.name with
    | none => simp
    | some name => rw [mem_names_addUse, Option.some.injEq, or_comm, eq_comm]

/-- **A name is handed out when it is mentioned,** with the first value that it is bound to. -/
theorem Statement.get?_collectedParams {s : Statement} {n : String} {v : Value} :
    (s.collectedParams .named).get? n = some v ↔
      (∃ p ∈ s.params, p.name = some n) ∧ (firstBound n s.params).getD .null = v := by
  have hnames : (s.paramUses.map ParamUse.name).Nodup := foldl_addParam_names_nodup List.nodup_nil
  have hkeys : ((s.paramUses.map fun u => (u.name, u.value.getD .null)).map Prod.fst).Nodup := by
    rw [List.map_map]
    exact hnames
  have hmem : n ∈ s.paramUses.map ParamUse.name ↔ ∃ p ∈ s.params, p.name = some n := by
    unfold paramUses
    rw [mem_names_foldl_addParam]
    simp
  rw [← hmem, List.mem_map]
  show Value.lookup n (s.paramUses.map fun u => (u.name, u.value.getD .null)) = some v ↔ _
  constructor
  · intro h
    obtain ⟨u, hu, heq⟩ := List.mem_map.mp (Value.mem_of_lookup h)
    obtain ⟨rfl, rfl⟩ := Prod.mk.inj heq
    exact ⟨⟨u, hu, rfl⟩, by rw [value_of_mem_paramUses hu]⟩
  · rintro ⟨⟨u, hu, rfl⟩, rfl⟩
    refine Value.lookup_of_mem hkeys (List.mem_map.mpr ⟨u, hu, ?_⟩)
    rw [value_of_mem_paramUses hu]

/-- No name has two values. -/
def Consistent (ps : List Param) : Prop :=
  ∀ n a b, .bound n a ∈ ps → .bound n b ∈ ps → a.same b = true

theorem consistent_iff {ps : List Param} :
    Consistent ps ↔ ¬ ∃ p ∈ ps, ∃ q ∈ ps, p.Clash q := by
  constructor
  · rintro h ⟨⟨_, _⟩, hp, ⟨_, _⟩, hq, n, a, b, rfl, rfl, rfl, rfl, hab⟩
    rw [h n a b hp hq] at hab
    simp at hab
  · intro h n a b ha hb
    by_contra hab
    exact h ⟨_, ha, _, hb, n, a, b, rfl, rfl, rfl, rfl, Bool.eq_false_iff.mpr hab⟩

/-- Where no name has two values, the first one counts for all. -/
theorem Consistent.firstBound {ps : List Param} (h : Consistent ps) {n : String} {v : Value}
    (hv : .bound n v ∈ ps) : ∃ a, firstBound n ps = some a ∧ v.same a = true := by
  obtain ⟨a, ha⟩ := firstBound_ne_none hv rfl rfl
  obtain ⟨⟨_, _⟩, hq, rfl, rfl⟩ := exists_mem_of_firstBound ha
  exact ⟨a, ha, h n v a hv hq⟩

/-- What prints a statement has no fault. -/
theorem DialectConfig.fault?_of_format {s : Statement} {config : DialectConfig} {out : Formatted}
    (h : s.format config = .ok out) : config.fault? = none := by
  unfold Statement.format formatFragments validate at h
  cases hfault : config.fault? with
  | none => rfl
  | some f => simp [hfault] at h

/-- Under the named style a statement without anonymous parameters is printed if no name has two
values, and hands out the collected values. -/
theorem Statement.format_named {s : Statement} {config : DialectConfig} (hjoins : s.JoinsPrinted)
    (hconfig : config.fault? = none) (hstyle : config.parameterStyle = .named)
    (hvalues : ∀ p ∈ s.params, ∀ v, p.value = some v → v.WellKeyed)
    (hnames : ∀ p ∈ s.params, p.name ≠ none) :
    ((∃ out, s.format config = .ok out) ↔ Consistent s.params)
      ∧ ∀ out, s.format config = .ok out → out.params = s.collectedParams .named := by
  have hformat := Statement.format_eq hconfig hjoins
  have hplace := Collected.placeAll_named hstyle hnames hvalues [] [] 0
  rw [Collected.agree_iff hvalues, ← consistent_iff] at hplace
  by_cases h : Consistent s.params
  · rw [show Collected.placeAll config s.params .empty = _ from hplace.1 h] at hformat
    refine ⟨⟨fun _ => h, fun _ => ⟨_, hformat⟩⟩, fun out hout => ?_⟩
    rw [hformat] at hout
    obtain rfl := Except.ok.inj hout
    unfold Collected.toParams collectedParams
    rw [hstyle]
    simp [ParamUse.pair, paramUses, Function.comp_def]
  · obtain ⟨e, he⟩ := hplace.2 h
    rw [show Collected.placeAll config s.params .empty = _ from he] at hformat
    simp [hformat, h]

/-! ## Filtered statements -/

section

variable {ps ts : List Param} {bs : List (String × Value)}

theorem Extends.wellKeyed (h : Extends ts ps bs)
    (hvalues : ∀ p ∈ ps, ∀ v, p.value = some v → v.WellKeyed) (hbs : ∀ b ∈ bs, b.2.WellKeyed) :
    ∀ p ∈ ts, ∀ v, p.value = some v → v.WellKeyed := by
  intro p hp v hv
  rcases h.new p hp with hp | ⟨b, hb, rfl⟩
  · exact hvalues p hp v hv
  · obtain rfl := Option.some.inj hv
    exact hbs b hb

/-- Names keep one value each exactly when the bindings agree among each other and with the
statement. -/
theorem Extends.consistent_iff (h : Extends ts ps bs) (hps : Consistent ps)
    (hvalues : ∀ p ∈ ps, ∀ v, p.value = some v → v.WellKeyed) (hbs : ∀ b ∈ bs, b.2.WellKeyed) :
    Consistent ts ↔ (∀ b ∈ bs, ∀ b' ∈ bs, b.1 = b'.1 → b.2.same b'.2 = true)
      ∧ ∀ b ∈ bs, ∀ v, .bound b.1 v ∈ ps → v.same b.2 = true := by
  -- a binding is there as a value that is the same, since of predicates that are one only the first
  -- is added
  have harrive : ∀ b ∈ bs, ∃ v, .bound b.1 v ∈ ts ∧ b.2.same v = true ∧ v.same b.2 = true := by
    intro b hb
    obtain ⟨v, hv, hsame⟩ := h.arrive b hb
    have hkeyed := h.wellKeyed hvalues hbs _ hv v rfl
    exact ⟨v, hv, hsame, Value.same_symm _ (hbs b hb) _ hkeyed hsame⟩
  constructor
  · intro hts
    refine ⟨fun b hb b' hb' hname => ?_, fun b hb v hv => ?_⟩
    · obtain ⟨v, hv, hbv, -⟩ := harrive b hb
      obtain ⟨v', hv', -, hvb'⟩ := harrive b' hb'
      rw [← hname] at hv'
      exact Value.same_trans _ _ _ hbv (Value.same_trans _ _ _ (hts _ _ _ hv hv') hvb')
    · obtain ⟨v', hv', -, hvb⟩ := harrive b hb
      exact Value.same_trans _ _ _ (hts _ _ _ (h.kept _ hv) hv') hvb
  · rintro ⟨hamong, hwith⟩ n a b ha hb
    rcases h.new _ ha with ha | ⟨x, hx, hax⟩
    · rcases h.new _ hb with hb | ⟨y, hy, hby⟩
      · exact hps n a b ha hb
      · obtain ⟨rfl, rfl⟩ : n = y.1 ∧ b = y.2 := by simpa [Param.bound, bindingParam] using hby
        exact hwith y hy a ha
    · obtain ⟨rfl, rfl⟩ : n = x.1 ∧ a = x.2 := by simpa [Param.bound, bindingParam] using hax
      rcases h.new _ hb with hb | ⟨y, hy, hby⟩
      · exact Value.same_symm _ (hvalues _ hb b rfl) _ (hbs x hx) (hwith x hx b hb)
      · obtain ⟨hname, rfl⟩ : x.1 = y.1 ∧ b = y.2 := by
          simpa [Param.bound, bindingParam] using hby
        exact hamong x hx y hy hname

/-- A name that the bindings leave alone, or that was bound before, keeps its value. -/
theorem Extends.firstBound_same (h : Extends ts ps bs) (hts : Consistent ts) {n : String}
    (hn : (∃ a, .bound n a ∈ ps) ∨ ∀ b ∈ bs, b.1 ≠ n) :
    ((firstBound n ps).getD .null).same ((firstBound n ts).getD .null) = true := by
  cases hfirst : firstBound n ps with
  | some v =>
    obtain ⟨⟨_, _⟩, hq, rfl, rfl⟩ := exists_mem_of_firstBound hfirst
    obtain ⟨a, ha, hsame⟩ := hts.firstBound (h.kept _ hq)
    rw [ha]
    exact hsame
  | none =>
    have hnone : firstBound n ts = none := by
      by_contra hne
      obtain ⟨a, ha⟩ := Option.ne_none_iff_exists'.mp hne
      obtain ⟨⟨_, _⟩, hq, rfl, rfl⟩ := exists_mem_of_firstBound ha
      have hunbound : ∀ b, .bound n b ∉ ps := by
        intro b hb
        obtain ⟨c, hc⟩ := firstBound_ne_none hb rfl rfl
        rw [hfirst] at hc
        simp at hc
      rcases h.new _ hq with hq | ⟨b, hb, heq⟩
      · exact hunbound a hq
      · rcases hn with ⟨c, hc⟩ | hn
        · exact hunbound c hc
        · exact hn b hb (by simpa [bindingParam, Param.bound] using (congrArg Param.name heq).symm)
    rw [hnone]
    rfl

end

/-- **What criteria do to the values that are handed out.** A statement that was printed is printed
after it is filtered exactly when no two values meet under one name: of two criteria, or of a
criterion and a parameter that the statement binds. If it is printed, every value of the criteria is
handed out under the name that its predicate has for it, and a name of the statement keeps its value
if it was bound or no criterion uses it. -/
theorem Statement.filterBy_params {s t : Statement} {criteria : Criteria} {pushDown : Bool}
    {lookup : Option Lookup} {config : DialectConfig} {out : Formatted}
    (hs : s.WellFormedThroughout)
    (hvalues : ∀ p ∈ s.params, ∀ v, p.value = some v → v.WellKeyed)
    (hcriteria : ∀ b ∈ criteria.bindings, b.2.WellKeyed)
    (hstyle : config.parameterStyle = .named) (hout : s.format config = .ok out)
    (h : s.filterBy criteria pushDown lookup = .ok t) :
    ((∃ out', t.format config = .ok out') ↔
        (∀ b ∈ criteria.bindings, ∀ b' ∈ criteria.bindings, b.1 = b'.1 → b.2.same b'.2 = true)
          ∧ ∀ b ∈ criteria.bindings, ∀ v, Param.bound b.1 v ∈ s.params → v.same b.2 = true)
      ∧ (∀ out', t.format config = .ok out' →
        (∀ b ∈ criteria.bindings, ∃ v, out'.params.get? b.1 = some v ∧ b.2.same v = true)
          ∧ ∀ n v, out.params.get? n = some v →
            ((∃ a, Param.bound n a ∈ s.params) ∨ ∀ b ∈ criteria.bindings, b.1 ≠ n) →
              ∃ v', out'.params.get? n = some v' ∧ v.same v' = true)
      ∧ ∀ key c, (key, c) ∈ criteria.active → ∀ column e, c.predicate column key = .ok e →
          ∀ p ∈ e.compared, ∃ b ∈ criteria.bindings, p = bindingParam b := by
  have hextends := filterBy_mentions h hcriteria
  have hconfig := DialectConfig.fault?_of_format hout
  have hjoins : s.JoinsPrinted := fun q hq => (hs.selects q hq).joinsPrinted
  have hnames : ∀ p ∈ s.params, p.name ≠ none := by
    rw [← Statement.printsParams s hjoins 0]
    exact named_of_formatFragments hout
  obtain ⟨hprinted, hparams⟩ := Statement.format_named hjoins hconfig hstyle hvalues hnames
  have hjoins' : t.JoinsPrinted := by
    have hsound : t.AllSound False :=
      filterBy_sound False.elim (Statement.allSound_false_iff.mpr hs) h
    exact fun q hq => ((Statement.allSound_false_iff.mp hsound).selects q hq).joinsPrinted
  have hvalues' := hextends.wellKeyed hvalues hcriteria
  have hnames' : ∀ p ∈ t.params, p.name ≠ none := by
    intro p hp
    rcases hextends.new p hp with hp | ⟨b, -, rfl⟩
    · exact hnames p hp
    · simp [bindingParam, Param.bound]
  obtain ⟨hprinted', hparams'⟩ := Statement.format_named hjoins' hconfig hstyle hvalues' hnames'
  refine ⟨?_, fun out' hout' => ⟨fun b hb => ?_, fun n v hv hn => ?_⟩,
    fun key c hc column e he p hp => ?_⟩
  · rw [hprinted', hextends.consistent_iff (hprinted.mp ⟨out, hout⟩) hvalues hcriteria]
  · obtain ⟨v, hv, hsame⟩ := hextends.arrive b hb
    obtain ⟨a, ha, hva⟩ := (hprinted'.mp ⟨out', hout'⟩).firstBound hv
    refine ⟨a, ?_, Value.same_trans _ _ _ hsame hva⟩
    rw [hparams' out' hout', Statement.get?_collectedParams, ha]
    exact ⟨⟨_, hv, rfl⟩, rfl⟩
  · rw [hparams out hout, Statement.get?_collectedParams] at hv
    obtain ⟨⟨p, hp, hname⟩, rfl⟩ := hv
    refine ⟨_, ?_, hextends.firstBound_same (hprinted'.mp ⟨out', hout'⟩) hn⟩
    rw [hparams' out' hout', Statement.get?_collectedParams]
    exact ⟨⟨p, hextends.kept p hp, hname⟩, rfl⟩
  · rw [(Criterion.shape_of_predicate he).compared_eq] at hp
    obtain ⟨b, hb, rfl⟩ := List.mem_map.mp hp
    exact ⟨b, List.mem_flatMap.mpr ⟨(key, c), hc, hb⟩, rfl⟩

/-- A statement with the value 7 for `x`, filtered by a list of values for `id`. -/
theorem filterBy_params_list :
    ∃ s t out, (∃ s₀ n, parse "select id from t where n > :x" = .ok s₀
        ∧ s₀.bindParam "x" (.nat 7) = .ok (s, n))
      ∧ s.WellFormedThroughout
      ∧ (∀ p ∈ s.params, ∀ v, p.value = some v → v.WellKeyed)
      ∧ (∀ b ∈ (⟨[("id", .oneOf [.nat 1, .nat 2])]⟩ : Criteria).bindings, b.2.WellKeyed)
      ∧ DialectConfig.generic.parameterStyle = .named
      ∧ s.format .generic = .ok out
      ∧ s.filterBy ⟨[("id", .oneOf [.nat 1, .nat 2])]⟩ true none = .ok t
      ∧ ∃ out', t.format .generic = .ok out'
        ∧ (∃ v, out'.params.get? "id_in_1" = some v ∧ (Value.nat 2).same v = true)
        ∧ ∃ v, out'.params.get? "x" = some v ∧ (Value.nat 7).same v = true := by
  obtain ⟨s₀, hs₀, h⟩ := exists_ok_of_any
    (show (parse "select id from t where n > :x").toOption.any (fun s₀ =>
      (s₀.bindParam "x" (.nat 7)).toOption.any fun r =>
        (r.1.params.all fun p => p.name == some "x" && p.value.any (Value.same (.nat 7)))
          && (r.1.format .generic).toOption.any (fun out =>
            (out.params.get? "x").any (Value.same (.nat 7)))
          && (r.1.filterBy ⟨[("id", .oneOf [.nat 1, .nat 2])]⟩ true none).toOption.any fun t =>
            (t.format .generic).toOption.any fun _ => true) = true by decide +kernel)
  obtain ⟨⟨s, n⟩, hbind, h⟩ := exists_ok_of_any h
  rw [Bool.and_eq_true, Bool.and_eq_true] at h
  obtain ⟨⟨hparams, hout⟩, ht⟩ := h
  obtain ⟨out, hout, hx⟩ := exists_ok_of_any hout
  obtain ⟨t, ht, hout'⟩ := exists_ok_of_any ht
  obtain ⟨out', hout', -⟩ := exists_ok_of_any hout'
  have hnumber : ∀ v : Value, (Value.nat 7).same v = true → v.WellKeyed := by
    intro v hv
    cases v <;> simp_all [Value.nat, Value.same, Value.WellKeyed]
  have hwf : s.WellFormedThroughout := by
    have hsound := Statement.allSound_of_wf s₀ (wf_of_parse hs₀)
    exact Statement.allSound_false_iff.mp (Statement.bindParam_sound hsound hbind)
  have hvalues : ∀ p ∈ s.params, ∀ v, p.value = some v → v.WellKeyed := by
    intro p hp v hv
    have := List.all_eq_true.mp hparams p hp
    rw [hv, Option.any_some, Bool.and_eq_true] at this
    exact hnumber v this.2
  have hbindings : (⟨[("id", .oneOf [.nat 1, .nat 2])]⟩ : Criteria).bindings
      = [("id_in_0", .nat 1), ("id_in_1", .nat 2)] := rfl
  have hcriteria : ∀ b ∈ (⟨[("id", .oneOf [.nat 1, .nat 2])]⟩ : Criteria).bindings,
      b.2.WellKeyed := by
    rw [hbindings]
    simp [Value.nat, Value.WellKeyed]
  obtain ⟨-, hhanded, -⟩ := Statement.filterBy_params hwf hvalues hcriteria rfl hout ht
  obtain ⟨harrive, hkept⟩ := hhanded out' hout'
  rw [hbindings] at harrive hkept
  obtain ⟨v, hv, h7⟩ := (Option.any_eq_true _ _).mp hx
  obtain ⟨v', hv', hsame⟩ := hkept "x" v hv (.inr (by decide))
  exact ⟨s, t, out, ⟨s₀, n, hs₀, hbind⟩, hwf, hvalues, hcriteria, rfl, hout, ht, out', hout',
    harrive ("id_in_1", .nat 2) (by simp), v', hv', Value.same_trans _ _ _ h7 hsame⟩

/-- **Two values meet under one name.** A criterion gives its value to a parameter of the same name
that the caller has left open; two criteria whose names coincide keep the statement from being
printed. -/
theorem filterBy_replaces :
    (∃ s t out out', parse "select id from t where x = :id" = .ok s
        ∧ s.filterBy ⟨[("id", .equals (.nat 42))]⟩ false none = .ok t
        ∧ s.format .generic = .ok out ∧ (out.params.get? "id").any (Value.same .null) = true
        ∧ t.format .generic = .ok out' ∧ (out'.params.get? "id").any (Value.same (.nat 42)) = true)
      ∧ ∃ s t out e, parse "select a, a_like from t" = .ok s
        ∧ s.filterBy ⟨[("a", .like "x%"), ("a_like", .equals (.nat 1))]⟩ false none = .ok t
        ∧ s.format .generic = .ok out ∧ t.format .generic = .error e := by
  constructor
  · obtain ⟨s, hs, h⟩ := exists_ok_of_any
      (show (parse "select id from t where x = :id").toOption.any (fun s =>
        (s.filterBy ⟨[("id", .equals (.nat 42))]⟩ false none).toOption.any fun t =>
          ((s.format .generic).toOption.any fun out => (out.params.get? "id").any (Value.same .null))
            && (t.format .generic).toOption.any fun out =>
              (out.params.get? "id").any (Value.same (.nat 42))) = true by decide +kernel)
    obtain ⟨t, ht, h⟩ := exists_ok_of_any h
    rw [Bool.and_eq_true] at h
    obtain ⟨out, hout, hvalue⟩ := exists_ok_of_any h.1
    obtain ⟨out', hout', hvalue'⟩ := exists_ok_of_any h.2
    exact ⟨s, t, out, out', hs, ht, hout, hvalue, hout', hvalue'⟩
  · obtain ⟨s, hs, h⟩ := exists_ok_of_any
      (show (parse "select a, a_like from t").toOption.any (fun s =>
        (s.filterBy ⟨[("a", .like "x%"), ("a_like", .equals (.nat 1))]⟩ false none).toOption.any
          fun t => ((s.format .generic).toOption.any fun _ => true)
            && (t.format .generic).toOption.isNone) = true by decide +kernel)
    obtain ⟨t, ht, h⟩ := exists_ok_of_any h
    rw [Bool.and_eq_true] at h
    obtain ⟨out, hout, -⟩ := exists_ok_of_any h.1
    cases he : t.format .generic with
    | error e => exact ⟨s, t, out, e, hs, ht, hout, he⟩
    | ok out' => simp [he, Except.toOption] at h

end Sql
