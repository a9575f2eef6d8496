import Sql.Proofs.Placements
import Sql.Proofs.Predicates
import Sql.Proofs.SoundEdits

/-!
# Criteria keep statements sound

A predicate is built around the expression of a column, which is a select item or a column of a
source, and is sound with it (`Criterion.predicate_sound`). Wherever it goes from there, it is built
around an expression of the select that it is added to (`Statement.filterBy_sound`).
-/

namespace Sql

variable {spelled : Prop} {lookup : Option Lookup}

/-! ## Predicates -/

theorem Predicate.sound {column e : Expr} {bs : List (String × Value)} (h : Predicate column bs e)
    (hcolumn : column.AllSound spelled) (hbs : ∀ b ∈ bs, IsParamName b.1) : e.AllSound spelled := by
  have hparam : ∀ b ∈ bs, (Expr.param (bindingParam b)).AllSound spelled :=
    fun b hb => boundParam_sound (hbs b hb) b.2
  cases h with
  | missing => exact Expr.allSound_isNull.mpr hcolumn
  | compare => exact Expr.allSound_binary.mpr ⟨hcolumn, hparam _ (by simp)⟩
  | within =>
    exact Expr.allSound_binary.mpr ⟨Expr.allSound_binary.mpr ⟨hcolumn, hparam _ (by simp)⟩,
      Expr.allSound_binary.mpr ⟨hcolumn, hparam _ (by simp)⟩⟩
  | listed hne =>
    refine Expr.allSound_inList.mpr ⟨by simpa using hne, hcolumn, ?_⟩
    exact List.forall_mem_map.mpr hparam

theorem Criterion.predicate_sound {c : Criterion} {column e : Expr} {key : String}
    (hcolumn : column.AllSound spelled) (h : c.predicate column key = .ok e) :
    e.AllSound spelled :=
  (shape_of_predicate h).sound hcolumn (isParamName_of_mem_bindings (isParamName_paramBase key))

/-! ## Sites -/

/-- The select of a site and the CTEs that it can name are sound. -/
def Site.AllSound (spelled : Prop) (site : Site) : Prop :=
  (Body.select site.select).AllSound spelled ∧ site.scope.scope.AllSound spelled

theorem Body.sites_sound {b : Body} (hb : b.AllSound spelled) {scope : PlacedScope}
    (hscope : scope.scope.AllSound spelled) (place : Path) :
    ∀ site ∈ b.sites scope place, site.AllSound spelled := by
  fun_induction sites scope place b with
  | case1 scope place q => simpa using ⟨hb, hscope⟩
  | case2 scope place l op r ihl ihr =>
    obtain ⟨hl, hr⟩ := Body.allSound_setOp.mp hb
    exact List.forall_mem_append.mpr ⟨ihl hl hscope, ihr hr hscope⟩
  | case3 scope place w b ih =>
    have hs := Body.allSound_nested.mp hb
    refine ih (Statement.allSound_iff.mp hs).2.2 ?_
    rw [PlacedScope.scope_enter]
    exact hscope.enter hs

theorem Statement.sites_sound {s : Statement} (hs : s.AllSound spelled) {scope : PlacedScope}
    (hscope : scope.scope.AllSound spelled) (place : Path) :
    ∀ site ∈ s.sites scope place, site.AllSound spelled := by
  refine Body.sites_sound (Statement.allSound_iff.mp hs).2.2 ?_ _
  rw [PlacedScope.scope_enter]
  exact hscope.enter hs

theorem producer?_sound {site : Site} (hsite : site.AllSound spelled) {i : Nat} {name : String}
    {p : Producer} (h : producer? site i name = some p) :
    p.statement.AllSound spelled ∧ p.scope.scope.AllSound spelled := by
  obtain ⟨-, -, hsources⟩ := Select.allSound_iff.mp hsite.1
  unfold producer? at h
  split at h
  · simp at h
  · next s asName hs =>
    obtain rfl := Option.some.inj h
    exact ⟨hsources _ (List.mem_of_getElem? hs) s rfl, hsite.2⟩
  · next t ht _ =>
    split at h
    · simp at h
    · next c before hresolve =>
      split at h
      · simp at h
      · obtain ⟨position, -, rfl⟩ := Option.map_eq_some_iff.mp h
        have hresolve' := site.scope.scope_resolve? t
        rw [hresolve] at hresolve'
        obtain ⟨⟨hstatement, -⟩, hbefore⟩ := hsite.2.resolve? hresolve'
        exact ⟨hstatement, hbefore⟩

theorem pushTargets_sound {site : Site} (hsite : site.AllSound spelled) {e : Expr} {name : String}
    {targets : List (Site × Option Nat)}
    (h : pushTargets lookup site e = .ok (some (name, targets))) :
    ∀ t ∈ targets, t.1.AllSound spelled := by
  obtain ⟨column, i, p, position, -, -, -, hp, -, rfl⟩ := pushTargets_eq_ok h
  obtain ⟨hstatement, hscope⟩ := producer?_sound hsite hp
  exact fun t ht => Statement.sites_sound hstatement hscope _ _
    (Producer.mem_sites_of_mem_targets ht)

/-! ## Columns -/

theorem resolveIn_sound (hlookup : spelled → Lookup.Named lookup) {site : Site}
    (hsite : site.AllSound spelled) {key : String} {position : Option Nat}
    {column : SelectableColumn} (h : resolveIn lookup site key position = .ok (some column)) :
    column.expr.AllSound spelled := by
  have hbyName : resolveIn.byName lookup site key = .ok (some column) →
      column.expr.AllSound spelled := by
    intro h
    obtain ⟨columns, hcolumns, h⟩ := ok_of_bind h
    have hfound : findColumn? columns key = some column := Except.ok.inj h
    exact (selectableIn_sound hlookup hsite.2 hsite.1 hcolumns column
      (List.mem_of_find?_eq_some hfound)).1
  unfold resolveIn at h
  split at h
  · next item hitem =>
    split at h
    · exact hbyName h
    · obtain rfl := Option.some.inj (Except.ok.inj h)
      obtain ⟨p, -, hp⟩ := Option.bind_eq_some_iff.mp hitem
      exact (Select.allSound_iff.mp hsite.1).2.1 _
        (Select.item_mem_exprs (List.mem_of_getElem? hp))
  · exact hbyName h

/-! ## The whole statement -/

theorem Placement.apply_sound {s : Statement} (hs : s.AllSound spelled) {p : Placement}
    (hp : p.predicate.AllSound spelled) : (p.apply s).AllSound spelled := by
  refine Statement.allSound_updateAt (fun q hq => ?_) p.place s hs
  split
  · exact Select.addHaving_sound hq hp
  · exact Select.addFilter_sound hq hp

/-- **Filtering by criteria keeps a statement sound.** -/
theorem Statement.filterBy_sound (hlookup : spelled → Lookup.Named lookup) {s t : Statement}
    (hs : s.AllSound spelled) {criteria : Criteria} {pushDown : Bool}
    (h : s.filterBy criteria pushDown lookup = .ok t) : t.AllSound spelled := by
  have hfold : ∀ (ps : List Placement) (s : Statement), s.AllSound spelled →
      (∀ p ∈ ps, p.predicate.AllSound spelled) → (ps.foldl Placement.apply s).AllSound spelled := by
    intro ps
    induction ps with
    | nil => exact fun s hs _ => hs
    | cons p ps ih =>
      intro s hs hps
      obtain ⟨hp, hps⟩ := List.forall_mem_cons.mp hps
      exact ih _ (Placement.apply_sound hs hp) hps
  obtain ⟨all, rfl, hfrom, -⟩ := filterBy_eq_placesIn h
  refine hfold _ s hs fun p hp => ?_
  obtain ⟨key, c, -, i, site, hsite, qs, ⟨column, ⟨position, -, hcolumn⟩, hqs⟩, hp⟩ :=
    hfrom p (mem_of_mem_distinctPlacements hp)
  have hsound := @Statement.sites_sound spelled s hs .empty Scope.allSound_empty [] site
    (List.mem_of_getElem? hsite)
  refine placements_induction (Q := fun p => p.predicate.AllSound spelled)
    (P := fun site column => site.AllSound spelled ∧ column.AllSound spelled)
    (fun site column e hcolumn _ he => Criterion.predicate_sound hcolumn.2 he)
    (fun site column name targets t inner hsite htargets ht hinner => ?_) site column.expr
    ⟨hsound, resolveIn_sound hlookup hsound hcolumn⟩ hqs p hp
  have ht := pushTargets_sound hsite.1 htargets t ht
  obtain ⟨column, hcolumn, rfl⟩ := hinner.resolved
  exact ⟨ht, resolveIn_sound hlookup ht hcolumn⟩

end Sql
