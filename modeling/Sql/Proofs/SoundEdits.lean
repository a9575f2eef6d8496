import Sql.Edit.Join
import Sql.Edit.Page
import Sql.Edit.Sort
import Sql.Proofs.ColumnNames
import Sql.Proofs.Combining
import Sql.Proofs.ParamNames
import Sql.Proofs.Places

/-!
# Edits keep statements sound

Each edit changes selects in their place, so what is left to show is local: the clause that it adds
or extends is sound (`Select.allSound_of_from`), and the rest of the tree is as it was
(`Body.allSound_updateLeaves`, `Body.allSound_updateRightmost`, `Statement.allSound_updateAt`). A
join must not repeat a name of the FROM clause, and combined statements not one of the WITH clause;
both edits look for that themselves.
-/

namespace Sql

section

variable {spelled : Prop}

/-! ## One select -/

/-- A select whose list and FROM clause are those of a sound one is sound when its other clauses
are. -/
theorem Select.allSound_of_from {q r : Select} (hq : (Body.select q).AllSound spelled)
    (hitems : r.items = q.items) (hsource : r.source = q.source) (hjoins : r.joins = q.joins)
    (htail : ∀ e ∈ r.tailExprs, e.AllSound spelled) : (Body.select r).AllSound spelled := by
  obtain ⟨⟨⟨hne, hstar, hfirst, hdiffer, hsuit⟩, hspelled⟩, hexprs, hsources⟩ :=
    Select.allSound_iff.mp hq
  have hrsources : r.sources = q.sources := by rw [sources, sources, hsource, hjoins]
  rw [Select.exprs_eq, List.forall_mem_append] at hexprs
  refine Select.allSound_iff.mpr ⟨⟨⟨?_, ?_, ?_, ?_, ?_⟩, fun hs => ⟨?_, ?_, ?_⟩⟩, ?_, ?_⟩
  · rwa [hitems]
  · rwa [hitems]
  · rwa [hsource, hjoins]
  · rwa [hrsources]
  · rwa [hjoins]
  · rw [hitems]
    exact (hspelled hs).items
  · rw [hrsources]
    exact (hspelled hs).sources
  · rw [hjoins]
    exact (hspelled hs).shared
  · rw [Select.exprs_eq, List.forall_mem_append, hitems, hjoins]
    exact ⟨hexprs.1, htail⟩
  · rwa [hrsources]

/-- The expressions behind the FROM clause of a sound select are sound. -/
theorem Select.tailExprs_sound {q : Select} (hq : (Body.select q).AllSound spelled) :
    ∀ e ∈ q.tailExprs, e.AllSound spelled := by
  obtain ⟨-, hexprs, -⟩ := Select.allSound_iff.mp hq
  rw [Select.exprs_eq, List.forall_mem_append] at hexprs
  exact hexprs.2

/-! ## Conditions -/

theorem guardOr_sound {e : Expr} (h : e.AllSound spelled) : (guardOr e).AllSound spelled := by
  unfold guardOr
  split
  · exact Expr.allSound_paren.mpr h
  · exact h

theorem guardJunction_sound {e : Expr} (h : e.AllSound spelled) :
    (guardJunction e).AllSound spelled := by
  unfold guardJunction
  split
  · exact Expr.allSound_paren.mpr h
  · exact Expr.allSound_paren.mpr h
  · exact h

theorem conjoin_sound {existing : Option Expr} {extra : Expr}
    (hexisting : ∀ e ∈ existing, e.AllSound spelled) (hextra : extra.AllSound spelled) :
    (conjoin existing extra).AllSound spelled := by
  cases existing with
  | none => exact hextra
  | some e =>
    exact Expr.allSound_binary.mpr
      ⟨guardOr_sound (hexisting e rfl), guardJunction_sound hextra⟩

theorem Select.addFilter_sound {q : Select} (hq : (Body.select q).AllSound spelled) {e : Expr}
    (he : e.AllSound spelled) : (Body.select (q.addFilter e)).AllSound spelled := by
  refine Select.allSound_of_from hq rfl rfl rfl ?_
  have htail := Select.tailExprs_sound hq
  simp only [tailExprs, addFilter, List.forall_mem_append, Option.toList_some,
    List.mem_singleton, forall_eq, Option.mem_toList] at htail ⊢
  obtain ⟨⟨⟨⟨⟨hfilter, hgroupBy⟩, hhaving⟩, horderBy⟩, hlimit⟩, hoffset⟩ := htail
  exact ⟨⟨⟨⟨⟨conjoin_sound hfilter he, hgroupBy⟩, hhaving⟩, horderBy⟩, hlimit⟩, hoffset⟩

theorem Select.addHaving_sound {q : Select} (hq : (Body.select q).AllSound spelled) {e : Expr}
    (he : e.AllSound spelled) : (Body.select (q.addHaving e)).AllSound spelled := by
  refine Select.allSound_of_from hq rfl rfl rfl ?_
  have htail := Select.tailExprs_sound hq
  simp only [tailExprs, addHaving, List.forall_mem_append, Option.toList_some,
    List.mem_singleton, forall_eq, Option.mem_toList] at htail ⊢
  obtain ⟨⟨⟨⟨⟨hfilter, hgroupBy⟩, hhaving⟩, horderBy⟩, hlimit⟩, hoffset⟩ := htail
  exact ⟨⟨⟨⟨⟨hfilter, hgroupBy⟩, conjoin_sound hhaving he⟩, horderBy⟩, hlimit⟩, hoffset⟩

theorem boundParam_sound {n : String} (hn : IsParamName n) (v : Value) :
    (boundParam n v).AllSound spelled := by
  refine Expr.allSound_param.mpr fun _ m hm => ?_
  obtain rfl := Option.some.inj hm
  exact hn

theorem Select.addPage_sound {q : Select} (hq : (Body.select q).AllSound spelled) (p : PageSpec) :
    (Body.select (q.addPage p)).AllSound spelled := by
  refine Select.allSound_of_from hq rfl rfl rfl ?_
  have htail := Select.tailExprs_sound hq
  simp only [tailExprs, addPage, List.forall_mem_append, Option.toList_some,
    List.mem_singleton, forall_eq, Option.mem_toList] at htail ⊢
  exact ⟨⟨htail.1.1, boundParam_sound (isParamName_of_isSimpleName (by decide)) _⟩,
    boundParam_sound (isParamName_of_isSimpleName (by decide)) _⟩

theorem Select.addOrder_sound {q : Select} (hq : (Body.select q).AllSound spelled)
    {items : List OrderItem} (hitems : ∀ i ∈ items, i.expr.AllSound spelled) :
    (Body.select { q with orderBy := q.orderBy ++ items }).AllSound spelled := by
  refine Select.allSound_of_from hq rfl rfl rfl ?_
  have htail := Select.tailExprs_sound hq
  simp only [tailExprs, List.forall_mem_append, List.forall_mem_map] at htail ⊢
  obtain ⟨⟨⟨hbefore, horderBy⟩, hlimit⟩, hoffset⟩ := htail
  exact ⟨⟨⟨hbefore, horderBy, hitems⟩, hlimit⟩, hoffset⟩

/-! ## Selects in their place -/

theorem Statement.allSound_of_body {s : Statement} (hs : s.AllSound spelled) {b : Body}
    (hb : b.AllSound spelled) (hgroups : b.GroupsLeft) :
    Statement.AllSound spelled { s with body := b } := by
  obtain ⟨⟨⟨hne, hdiffer, -⟩, hspelled⟩, hctes, -⟩ := Statement.allSound_iff.mp hs
  exact Statement.allSound_iff.mpr ⟨⟨⟨hne, hdiffer, hgroups⟩, hspelled⟩, hctes, hb⟩

section

variable {f : Select → Select}

theorem Body.isTerm_updateLeaves (b : Body) : (b.updateLeaves f).isTerm = b.isTerm := by
  rcases b with q | ⟨l, op, r⟩ | ⟨w, b⟩ <;> rfl

theorem Body.groupsLeft_updateLeaves {b : Body} (h : b.GroupsLeft) :
    (b.updateLeaves f).GroupsLeft := by
  fun_induction updateLeaves f b with
  | case1 q => trivial
  | case2 l op r ih _ =>
    rw [GroupsLeft, isTerm_updateLeaves]
    exact ⟨ih h.1, h.2⟩
  | case3 w b _ => trivial

theorem Body.isTerm_updateRightmost (b : Body) : (b.updateRightmost f).isTerm = b.isTerm := by
  cases b <;> rfl

theorem Body.groupsLeft_updateRightmost {b : Body} (h : b.GroupsLeft) :
    (b.updateRightmost f).GroupsLeft := by
  cases b with
  | select q => trivial
  | setOp l op r =>
    rw [updateRightmost, GroupsLeft, isTerm_updateRightmost]
    exact h
  | nested s => trivial

variable (hf : ∀ q, (Body.select q).AllSound spelled → (Body.select (f q)).AllSound spelled)

include hf

theorem Body.allSound_updateLeaves {b : Body} (hb : b.AllSound spelled) :
    (b.updateLeaves f).AllSound spelled := by
  fun_induction updateLeaves f b with
  | case1 q => exact hf q hb
  | case2 l op r ihl ihr =>
    obtain ⟨hl, hr⟩ := Body.allSound_setOp.mp hb
    exact Body.allSound_setOp.mpr ⟨ihl hl, ihr hr⟩
  | case3 w b ih =>
    have hs := Body.allSound_nested.mp hb
    obtain ⟨hsound, -, hbody⟩ := Statement.allSound_iff.mp hs
    exact Body.allSound_nested.mpr
      (Statement.allSound_of_body hs (ih hbody) (groupsLeft_updateLeaves hsound.1.groups_left))

theorem Body.allSound_updateRightmost {b : Body} (hb : b.AllSound spelled) :
    (b.updateRightmost f).AllSound spelled := by
  fun_induction updateRightmost f b with
  | case1 q => exact hf q hb
  | case2 l op r ih =>
    obtain ⟨hl, hr⟩ := Body.allSound_setOp.mp hb
    exact Body.allSound_setOp.mpr ⟨hl, ih hr⟩
  | case3 s => exact hb

theorem Statement.allSound_updateRightmost {s : Statement} (hs : s.AllSound spelled) :
    Statement.AllSound spelled { s with body := s.body.updateRightmost f } := by
  obtain ⟨hsound, -, hbody⟩ := Statement.allSound_iff.mp hs
  exact Statement.allSound_of_body hs (Body.allSound_updateRightmost hf hbody)
    (Body.groupsLeft_updateRightmost hsound.1.groups_left)

end

/-! ## Selects at a path -/

section

theorem Select.allSound_updateSource {g : Statement → Statement} {q : Select} (i : Nat)
    (hg : ∀ t ∈ q.sources, ∀ s ∈ t.statement?, (g s).AllSound spelled)
    (hq : (Body.select q).AllSound spelled) :
    (Body.select (q.updateSource i (Source.updateStatement g))).AllSound spelled := by
  obtain ⟨⟨⟨hne, hstar, hfirst, hdiffer, hsuit⟩, hspelled⟩, hexprs, hsources⟩ :=
    Select.allSound_iff.mp hq
  have hjoins : ∀ j ∈ (q.updateSource i (Source.updateStatement g)).joins,
      ∃ k ∈ q.joins, k.kind = j.kind ∧ k.constraint = j.constraint := by
    intro j hj
    have hmem := List.mem_map_of_mem (f := fun j : Join => (j.kind, j.constraint)) hj
    rw [joins_updateSource] at hmem
    obtain ⟨k, hk, heq⟩ := List.mem_map.mp hmem
    exact ⟨k, hk, Prod.mk.inj heq⟩
  -- a source is one of before, or one of before with its statement changed
  have hmem : ∀ t ∈ (q.updateSource i (Source.updateStatement g)).sources,
      t ∈ q.sources ∨ ∃ u ∈ q.sources, t = u.updateStatement g := by
    rw [sources_updateSource]
    exact fun t ht => mem_modify ht
  refine Select.allSound_iff.mpr ⟨⟨⟨?_, ?_, ?_, ?_, ?_⟩, fun hs => ⟨?_, ?_, ?_⟩⟩, ?_, ?_⟩
  · rwa [items_updateSource]
  · rwa [items_updateSource]
  · intro hnone
    have hnil := hfirst ((source_updateSource q i _).mp hnone)
    have hlength := congrArg List.length (joins_updateSource q i (Source.updateStatement g))
    rw [List.length_map, List.length_map, hnil] at hlength
    exact List.length_eq_zero_iff.mp hlength
  · rwa [sources_updateSource, map_modify (Source.effectiveName_updateStatement g)]
  · intro j hj
    obtain ⟨k, hk, hkind, hconstraint⟩ := hjoins j hj
    rw [← hkind, ← hconstraint]
    exact hsuit k hk
  · rw [items_updateSource]
    exact (hspelled hs).items
  · intro t ht
    rcases hmem t ht with ht | ⟨u, hu, rfl⟩
    · exact (hspelled hs).sources t ht
    · have := (hspelled hs).sources u hu
      cases u <;> exact this
  · intro j hj
    obtain ⟨k, hk, -, hconstraint⟩ := hjoins j hj
    rw [← hconstraint]
    exact (hspelled hs).shared k hk
  · rwa [exprs_updateSource]
  · intro t ht
    rcases hmem t ht with ht | ⟨u, hu, rfl⟩
    · exact hsources t ht
    · intro s hs
      cases u with
      | table path name asName => simp [Source.updateStatement, Source.statement?] at hs
      | subquery s' asName =>
        obtain rfl : g s' = s := Option.some.inj hs
        exact hg _ hu s' rfl

variable {f : Select → Select}

theorem Body.isTerm_updateAt (b : Body) (path : Path) : (b.updateAt f path).isTerm = b.isTerm := by
  unfold updateAt
  split <;> rfl

theorem Body.groupsLeft_updateAt {b : Body} (path : Path) (h : b.GroupsLeft) :
    (b.updateAt f path).GroupsLeft := by
  fun_induction GroupsLeft b generalizing path with
  | case1 q =>
    unfold updateAt
    split <;> trivial
  | case2 l op r ih =>
    unfold updateAt
    split
    · trivial
    · trivial
    · next path l' op' r' heq =>
      obtain ⟨rfl, rfl, rfl⟩ := Body.setOp.inj heq
      exact ⟨ih path h.1, h.2⟩
    · next path l' op' r' heq =>
      obtain ⟨rfl, rfl, rfl⟩ := Body.setOp.inj heq
      rw [GroupsLeft, isTerm_updateAt]
      exact h
    · trivial
    · exact h
  | case3 s =>
    unfold updateAt
    split <;> trivial

mutual

/-- **Changing a select at a path keeps a statement sound.** -/
theorem Statement.allSound_updateAt
    (hf : ∀ q, (Body.select q).AllSound spelled → (Body.select (f q)).AllSound spelled)
    (path : Path) (s : Statement) (hs : s.AllSound spelled) :
    (s.updateAt f path).AllSound spelled := by
  obtain ⟨⟨⟨hne, hdiffer, hgroups⟩, hspelled⟩, hctes, hbody⟩ := Statement.allSound_iff.mp hs
  match path, s with
  | .cte i :: path, ⟨none, b⟩ =>
    rw [Statement.updateAt]
    exact hs
  | .cte i :: path, ⟨some ⟨recursive, cs⟩, b⟩ =>
    rw [Statement.updateAt]
    refine Statement.allSound_iff.mpr ⟨⟨⟨?_, ?_, hgroups⟩, fun h => ?_⟩, ?_, hbody⟩
    · intro w hw
      obtain rfl := Option.some.inj hw
      have hlength := hne _ rfl
      rw [Ne, ← List.length_eq_zero_iff] at hlength ⊢
      rwa [List.length_modify]
    · refine (congrArg NamesDiffer (map_modify (fun _ => ?_) cs i)).mpr hdiffer
      rfl
    · intro c hc
      rcases mem_modify hc with hc | ⟨d, hd, rfl⟩
      · exact hspelled h c hc
      · exact hspelled h d hd
    · intro c hc
      rcases mem_modify hc with hc | ⟨d, hd, rfl⟩
      · exact hctes c hc
      · exact Statement.allSound_updateAt hf path d.statement (hctes d hd)
  | .body :: path, s =>
    rw [Statement.updateAt]
    exact Statement.allSound_of_body hs (Body.allSound_updateAt hf path s.body hbody)
      (Body.groupsLeft_updateAt path hgroups)
  | [], s => exact hs
  | .left :: _, s | .right :: _, s | .operand :: _, s | .source _ :: _, s => exact hs

theorem Body.allSound_updateAt
    (hf : ∀ q, (Body.select q).AllSound spelled → (Body.select (f q)).AllSound spelled)
    (path : Path) (b : Body) (hb : b.AllSound spelled) :
    (b.updateAt f path).AllSound spelled := by
  match path, b with
  | [], .select q =>
    rw [Body.updateAt]
    exact hf q hb
  | .source i :: path, .select q =>
    rw [Body.updateAt]
    refine Select.allSound_updateSource i (fun t ht s hs => ?_) hb
    exact Statement.allSound_updateAt hf path s ((Select.allSound_iff.mp hb).2.2 t ht s hs)
  | .left :: path, .setOp l op r =>
    obtain ⟨hl, hr⟩ := Body.allSound_setOp.mp hb
    rw [Body.updateAt]
    exact Body.allSound_setOp.mpr ⟨Body.allSound_updateAt hf path l hl, hr⟩
  | .right :: path, .setOp l op r =>
    obtain ⟨hl, hr⟩ := Body.allSound_setOp.mp hb
    rw [Body.updateAt]
    exact Body.allSound_setOp.mpr ⟨hl, Body.allSound_updateAt hf path r hr⟩
  | .operand :: path, .nested s =>
    rw [Body.updateAt, Body.allSound_nested]
    exact Statement.allSound_updateAt hf path s (Body.allSound_nested.mp hb)
  | .cte _ :: _, b | .body :: _, b | [], .setOp .. | [], .nested _ | .left :: _, .select _
  | .left :: _, .nested _ | .right :: _, .select _ | .right :: _, .nested _
  | .operand :: _, .select _ | .operand :: _, .setOp .. | .source _ :: _, .setOp ..
  | .source _ :: _, .nested _ => exact hb

end

end

/-! ## Raw filters, pages and sort keys -/

theorem Statement.addFilter_sound {s : Statement} (hs : s.AllSound spelled) {e : Expr}
    (he : e.AllSound spelled) : (s.addFilter e).AllSound spelled := by
  obtain ⟨hsound, -, hbody⟩ := Statement.allSound_iff.mp hs
  exact Statement.allSound_of_body hs
    (Body.allSound_updateLeaves (fun q hq => Select.addFilter_sound hq he) hbody)
    (Body.groupsLeft_updateLeaves hsound.1.groups_left)

theorem Statement.addFilterText_sound {s t : Statement} (hs : s.AllSound spelled) {text : String}
    (htext : ∀ e, parseExpression text = .ok e → e.AllSound spelled)
    (h : s.addFilterText text = .ok t) : t.AllSound spelled := by
  unfold addFilterText at h
  cases he : parseExpression text with
  | error e =>
    rw [he] at h
    simp [Except.map] at h
  | ok e =>
    rw [he] at h
    rw [← Except.ok.inj h]
    exact Statement.addFilter_sound hs (htext e he)

theorem Statement.addPage_sound {s t : Statement} (hs : s.AllSound spelled) {p : PageSpec}
    (h : s.addPage p = .ok t) : t.AllSound spelled := by
  unfold addPage at h
  split at h
  · simp at h
  split at h
  · simp at h
  split at h
  · simp at h
  split at h
  · simp at h
  · rw [← Except.ok.inj h]
    exact Statement.allSound_updateRightmost (fun q hq => Select.addPage_sound hq p) hs

theorem Statement.addSort_sound {s t : Statement} (hs : s.AllSound spelled) {specs : List SortSpec}
    {lookup : Option Lookup} (hlookup : spelled → Lookup.Named lookup)
    (h : s.addSort specs lookup = .ok t) : t.AllSound spelled := by
  unfold addSort at h
  split at h
  · rwa [← Except.ok.inj h]
  · obtain ⟨columns, hcolumns, h⟩ := ok_of_bind h
    have hsound := requireColumns_sound hlookup hs hcolumns
    have hitems : ∀ i ∈ specs.zipWith (fun spec c => spec.orderItem (s.body.sortExpr c)) columns,
        i.expr.AllSound spelled := by
      intro i hi
      obtain ⟨k, hk, rfl⟩ := List.mem_iff_getElem.mp hi
      rw [List.length_zipWith] at hk
      rw [List.getElem_zipWith]
      obtain ⟨hexpr, hname⟩ := hsound columns[k] (List.getElem_mem (by omega))
      show (s.body.sortExpr columns[k]).AllSound spelled
      unfold Body.sortExpr
      split
      · exact hexpr
      · exact Expr.allSound_column.mpr fun hspelled => by simpa [AreNames] using hname hspelled
    dsimp only at h
    split at h
    · simp at h
    · rw [← Except.ok.inj h]
      exact Statement.allSound_updateRightmost (fun q hq => Select.addOrder_sound hq hitems) hs

/-! ## Joins -/

theorem Select.addJoin_sound {q : Select} (hq : (Body.select q).AllSound spelled) {j : Join}
    (hsource : q.source ≠ none)
    (hdiffers : ∀ t ∈ q.sources, sameName t.effectiveName j.right.effectiveName = false)
    (hsuits : j.kind.Suits j.constraint) (hright : j.right.AllSound spelled)
    (hcondition : ∀ e ∈ j.constraint.condition?, e.AllSound spelled)
    (hjspelled : spelled → j.right.Spelled ∧ AreNames j.constraint.sharedColumns) :
    (Body.select { q with joins := q.joins ++ [j] }).AllSound spelled := by
  obtain ⟨⟨⟨hne, hstar, hfirst, hdiffer, hsuit⟩, hspelled⟩, hexprs, hsources⟩ :=
    Select.allSound_iff.mp hq
  have hjsources : Select.sources { q with joins := q.joins ++ [j] } = q.sources ++ [j.right] := by
    simp [sources]
  refine Select.allSound_iff.mpr
    ⟨⟨⟨hne, hstar, fun h => absurd h hsource, ?_, ?_⟩, fun hs => ⟨(hspelled hs).items, ?_, ?_⟩⟩,
      ?_, ?_⟩
  · rw [hjsources, List.map_append, List.map_singleton]
    refine List.pairwise_append.mpr ⟨hdiffer, List.pairwise_singleton _ _, ?_⟩
    simpa using hdiffers
  · rw [List.forall_mem_append, List.forall_mem_singleton]
    exact ⟨hsuit, hsuits⟩
  · rw [hjsources, List.forall_mem_append, List.forall_mem_singleton]
    exact ⟨(hspelled hs).sources, (hjspelled hs).1⟩
  · rw [List.forall_mem_append, List.forall_mem_singleton]
    exact ⟨(hspelled hs).shared, (hjspelled hs).2⟩
  · simp only [Select.exprs_eq, Select.tailExprs, List.forall_mem_append, List.filterMap_append,
      List.mem_filterMap, List.mem_singleton] at hexprs ⊢
    refine ⟨⟨hexprs.1.1, hexprs.1.2, ?_⟩, hexprs.2⟩
    rintro e ⟨_, rfl, he⟩
    exact hcondition e he
  · rw [hjsources, List.forall_mem_append, List.forall_mem_singleton]
    exact ⟨hsources, hright⟩

theorem eq_empty_of_sameName {a : String} (h : sameName "" a = true) : a = "" := by
  have hnil : [] = a.toList.map Char.toLower := by
    simpa [foldCase] using congrArg String.toList (sameName_iff.mp h)
  exact String.toList_inj.mp (List.map_eq_nil_iff.mp hnil.symm)

/-- A conjunction of sound conditions. -/
theorem foldl_and_sound {f : String → Expr} {cs : List String} {first : Expr}
    (hfirst : first.AllSound spelled) (hcs : ∀ c ∈ cs, (f c).AllSound spelled) :
    (cs.foldl (fun e c => Expr.and e (f c)) first).AllSound spelled := by
  induction cs generalizing first with
  | nil => exact hfirst
  | cons c cs ih =>
    obtain ⟨hc, hcs⟩ := List.forall_mem_cons.mp hcs
    exact ih (Expr.allSound_binary.mpr ⟨hfirst, hc⟩) hcs

theorem condition?_sound {source asName : String} {columns : List String} {e : Expr}
    (h : JoinRequest.condition? source asName columns = some e)
    (hnames : spelled → source ≠ "" ∧ asName ≠ "" ∧ AreNames columns) : e.AllSound spelled := by
  have hequal : ∀ c ∈ columns, Expr.AllSound spelled
      (.binary (.qualified source c) .eq (.qualified asName c)) := by
    intro c hc
    refine Expr.allSound_binary.mpr ⟨Expr.allSound_column.mpr fun hs => ?_,
      Expr.allSound_column.mpr fun hs => ?_⟩
    · simpa [AreNames] using ⟨(hnames hs).1, (hnames hs).2.2 c hc⟩
    · simpa [AreNames] using ⟨(hnames hs).2.1, (hnames hs).2.2 c hc⟩
  cases columns with
  | nil => simp [JoinRequest.condition?] at h
  | cons c cs =>
    obtain ⟨hc, hcs⟩ := List.forall_mem_cons.mp hequal
    obtain rfl := Option.some.inj h
    exact foldl_and_sound hc hcs

/-- What is known of a join that is not refused. -/
theorem JoinRequest.joinFor_eq_ok {r : JoinRequest} {lookup : Option Lookup} {scope : Scope}
    {q : Select} {path : List String} {name : String} {j : Join}
    (h : r.joinFor lookup scope q path name = .ok j) :
    q.source ≠ none
      ∧ (∀ t ∈ q.sources, sameName t.effectiveName (r.effectiveAlias name) = false)
      ∧ ∃ sources source e, sourceColumns lookup scope q = .ok sources
        ∧ r.chooseSource sources = .ok source
        ∧ condition? source (r.effectiveAlias name) r.columns = some e
        ∧ j = { kind := r.kind
                right := .table path name
                  (if sameName (r.effectiveAlias name) name then none
                    else some (r.effectiveAlias name))
                constraint := .on e } := by
  unfold joinFor at h
  dsimp only at h
  split at h
  · simp [bind, Except.bind] at h
  next hsource =>
  split at h
  · simp [bind, Except.bind] at h
  next hunused =>
  obtain ⟨known, -, h⟩ := ok_of_bind h
  split at h
  · simp [bind, Except.bind] at h
  obtain ⟨sources, hsources, h⟩ := ok_of_bind h
  split at h
  · simp at h
  next source hchosen =>
  split at h
  · simp at h
  next e he =>
  refine ⟨fun hnone => hsource (by rw [hnone]; rfl), ?_, sources, source, e, hsources, hchosen, he,
    (Except.ok.inj h).symm⟩
  intro t ht
  rw [Bool.eq_false_iff]
  exact fun hsame => hunused (List.any_eq_true.mpr ⟨t, ht, hsame⟩)

/-- The source that is chosen has a name, and so have the columns, since it has them all. -/
theorem JoinRequest.chooseSource_named {r : JoinRequest} {sources : List SourceColumns}
    (hsources : ∀ s ∈ sources, s.Named) {source : String}
    (h : r.chooseSource sources = .ok source) : source ≠ "" ∧ AreNames r.columns := by
  unfold chooseSource at h
  split at h
  · next one hone =>
    obtain rfl := Except.ok.inj h
    have hmem : one ∈ (sources.filter fun s => r.columns.all s.exposes).map SourceColumns.source := by
      rw [hone]
      exact List.mem_singleton_self one
    obtain ⟨s, hs, rfl⟩ := List.mem_map.mp hmem
    obtain ⟨hs, hall⟩ := List.mem_filter.mp hs
    refine ⟨(hsources s hs).1, fun c hc hempty => ?_⟩
    have hexposed := List.all_eq_true.mp hall c hc
    rw [SourceColumns.exposes, nameIn, List.any_eq_true] at hexposed
    obtain ⟨x, hx, hsame⟩ := hexposed
    rw [hempty] at hsame
    exact (hsources s hs).2 x hx (eq_empty_of_sameName hsame)
  · simp at h
  · simp at h

theorem JoinRequest.nameParts?_named {r : JoinRequest} {path : List String} {name : String}
    (h : r.nameParts? = some (path, name)) : AreNames (path ++ [name]) := by
  unfold nameParts? at h
  obtain ⟨last, hlast, h⟩ := Option.map_eq_some_iff.mp h
  obtain ⟨rfl, rfl⟩ := Prod.mk.inj h
  obtain ⟨before, hparts⟩ := List.getLast?_eq_some_iff.mp hlast
  rw [hparts, List.dropLast_concat, ← hparts]
  intro part hpart
  simpa using (List.mem_filter.mp hpart).2

theorem JoinRequest.effectiveAlias_ne {r : JoinRequest} {name : String} (h : name ≠ "") :
    r.effectiveAlias name ≠ "" := by
  unfold effectiveAlias
  dsimp only
  split
  · exact h
  · assumption

theorem JoinRequest.joinFor_sound {r : JoinRequest} {lookup : Option Lookup}
    (hlookup : spelled → Lookup.Named lookup) {scope : Scope} (hscope : scope.AllSound spelled)
    {q : Select} (hq : (Body.select q).AllSound spelled) {path : List String} {name : String}
    (hname : AreNames (path ++ [name])) (hkind : ¬ (r.kind = .cross ∨ r.kind = .comma)) {j : Join}
    (h : r.joinFor lookup scope q path name = .ok j) :
    (Body.select { q with joins := q.joins ++ [j] }).AllSound spelled := by
  obtain ⟨hsource, hdiffers, sources, source, e, hsources, hchosen, he, rfl⟩ := joinFor_eq_ok h
  have halias : r.effectiveAlias name ≠ "" := effectiveAlias_ne (hname name (by simp))
  refine Select.addJoin_sound hq hsource (fun t ht => ?_) ⟨?_, by simp⟩ (by
    intro s hs
    simp [Source.statement?] at hs) (fun x hx => ?_) fun _ => ⟨⟨hname, ?_⟩, ?_⟩
  · -- the alias is left out only where the name of the table says the same
    have ht := hdiffers t ht
    by_cases hsame : sameName (r.effectiveAlias name) name = true
    · rw [if_pos hsame]
      rw [Bool.eq_false_iff] at ht ⊢
      exact fun h => ht (sameName_trans h (sameName_symm hsame))
    · rw [if_neg hsame]
      exact ht
  · exact ⟨fun h => absurd h.symm hkind, fun h => by simp at h⟩
  · obtain rfl := Option.some.inj hx
    refine condition?_sound he fun hspelled => ?_
    obtain rfl : spelled = True := eq_true hspelled
    have hnamed := sourceColumns_named (hlookup trivial) hscope q hq hsources
    exact ⟨(chooseSource_named hnamed hchosen).1, halias, (chooseSource_named hnamed hchosen).2⟩
  · intro a ha
    split at ha
    · simp at ha
    · obtain rfl := Option.some.inj ha
      exact halias
  · simp [JoinConstraint.sharedColumns, AreNames]

theorem Statement.addJoin_sound {s t : Statement} (hs : s.AllSound spelled) {r : JoinRequest}
    {lookup : Option Lookup} (hlookup : spelled → Lookup.Named lookup)
    (h : s.addJoin r lookup = .ok t) : t.AllSound spelled := by
  obtain ⟨-, -, hbody⟩ := Statement.allSound_iff.mp hs
  unfold addJoin at h
  dsimp only at h
  split at h
  · simp [bind, Except.bind] at h
  split at h
  · simp [bind, Except.bind] at h
  next hkind =>
  split at h
  · simp at h
  next path name hparts =>
  split at h
  · next q hq =>
    rw [hq] at hbody
    obtain ⟨j, hj, h⟩ := ok_of_bind h
    rw [← Except.ok.inj h]
    exact Statement.allSound_of_body hs (JoinRequest.joinFor_sound hlookup
      (Scope.allSound_empty.enter hs) hbody (JoinRequest.nameParts?_named hparts) hkind hj) trivial
  · simp at h

/-! ## Combined statements -/

/-- A body can be one operand, and the first of a chain. -/
def Body.Operand (spelled : Prop) (b : Body) : Prop := b.AllSound spelled ∧ b.GroupsLeft

theorem Body.Operand.inParens {b : Body} (h : b.Operand spelled) : b.inParens.Operand spelled := by
  refine ⟨Body.allSound_nested.mpr (Statement.allSound_iff.mpr ⟨⟨⟨by simp, ?_, h.2⟩, fun _ => ?_⟩,
    by simp [Statement.ctes], h.1⟩), trivial⟩
  · exact List.Pairwise.nil
  · simp [Statement.Spelled, Statement.ctes]

theorem combinedBody_operand {op : SetOperator} {s : Statement} {rest : List Statement}
    (h : ∀ t ∈ s :: rest, t.AllSound spelled) : (combinedBody op s rest).Operand spelled := by
  refine combinedBody_induction (fun b hb => Body.Operand.inParens hb)
    (fun left op right hl hr hterm => ?_) op fun t ht => ?_
  · exact ⟨Body.allSound_setOp.mpr ⟨hl.1, hr.1⟩, hl.2, hterm⟩
  · obtain ⟨hsound, -, hbody⟩ := Statement.allSound_iff.mp (h t ht)
    exact ⟨hbody, hsound.1.groups_left⟩

theorem combine_sound {statements : List Statement} (hall : ∀ s ∈ statements, s.AllSound spelled)
    {op : SetOperator} {t : Statement} (h : combine statements op = .ok t) : t.AllSound spelled := by
  rcases combine_eq_ok h with rfl | ⟨s, rest, rfl, hdiffer, rfl⟩
  · exact hall t List.mem_cons_self
  · have hoperand : (combinedBody op s rest).Operand spelled := combinedBody_operand hall
    refine Statement.allSound_iff.mpr
      ⟨⟨⟨fun w hw => ctes_ne_of_mem_withOf hw, ?_, hoperand.2⟩, fun hspelled c hc => ?_⟩,
        fun c hc => ?_, hoperand.1⟩
    · rwa [Statement.ctes_withOf]
    · rw [Statement.ctes_withOf] at hc
      obtain ⟨u, hu, hc⟩ := List.mem_flatMap.mp hc
      exact (Statement.allSound_iff.mp (hall u hu)).1.2 hspelled c hc
    · rw [Statement.ctes_withOf] at hc
      obtain ⟨u, hu, hc⟩ := List.mem_flatMap.mp hc
      exact (Statement.allSound_iff.mp (hall u hu)).2.1 c hc

end

end Sql
