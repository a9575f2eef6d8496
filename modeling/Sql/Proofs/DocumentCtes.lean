import Sql.Proofs.SoundDocument

/-!
# Names of the CTEs of a document

A staged document has the CTEs of the statement and one for each stage. The stages are named after
the depths of the mapping and the ids of its arrays (`stagesOf_names`).

* `Mapping.madeStages_differ_iff`: the names of the stages differ exactly if the ids of the arrays
  do. The refusals compare ids letter by letter, and names are compared without regard to case.
* `Statement.toDocument_ctes_differ`: the same for all CTEs of the document, which is then read back
  after it was printed.
-/

namespace Sql

namespace Mapping

/-- The entities that stand in their parents as arrays. -/
def arrays (m : Mapping) : List NestedEntity := m.nested.filter fun e => e.relationship == .array

/-- The names of the stages of a depth. -/
def levelStages (m : Mapping) (depth : Nat) : List String :=
  if (m.levelAt depth).isEmpty then []
  else objectStage depth :: (m.arraysAt depth).map fun e => arrayStage e.id

/-- The names of all stages, in order. -/
def madeStages (m : Mapping) : List String :=
  originStage :: m.depths.flatMap m.levelStages ++ [rootStage m.rootName]

end Mapping

/-! ## The stages that are made -/

variable {m : Mapping} {resolved : ResolvedColumns} {origin : List String}

theorem Staging.foldl_addArray_names (s : Staging) (es : List NestedEntity) :
    (es.foldl (Staging.addArray m resolved) s).stages.map Cte.name
      = s.stages.map Cte.name ++ es.map fun e => arrayStage e.id := by
  induction es generalizing s with
  | nil => simp
  | cons e es ih =>
    rw [List.foldl_cons, ih]
    simp [Staging.addArray, arrayStageOf, stage]

theorem Staging.addLevel_names (s : Staging) (depth : Nat) :
    (s.addLevel m resolved depth).stages.map Cte.name
      = s.stages.map Cte.name ++ m.levelStages depth := by
  have hempty : (m.nested.filter fun e => m.depth e.id == depth) = m.levelAt depth := rfl
  unfold Staging.addLevel Mapping.levelStages
  dsimp only
  rw [hempty]
  split
  · simp
  · rw [Staging.foldl_addArray_names]
    simp [Staging.addObjects, objectStageOf, stage, Mapping.arraysAt]

theorem stagesOf_names :
    (stagesOf m resolved origin).stages.map Cte.name = m.depths.flatMap m.levelStages := by
  have hfold : ∀ (depths : List Nat) (s : Staging),
      (depths.foldl (Staging.addLevel m resolved) s).stages.map Cte.name
        = s.stages.map Cte.name ++ depths.flatMap m.levelStages := by
    intro depths
    induction depths with
    | nil => simp
    | cons depth depths ih =>
      intro s
      rw [List.foldl_cons, ih, Staging.addLevel_names, List.flatMap_cons, List.append_assoc]
  rw [stagesOf, hfold]
  rfl

theorem Statement.staged_names (s : Statement) :
    (s.staged m resolved origin).ctes.map Cte.name = s.ctes.map Cte.name ++ m.madeStages := by
  simp [Statement.staged, Statement.ctes, Mapping.madeStages, stagesOf_names, rootStageOf, stage]

/-! ## When their names differ -/

namespace Mapping

theorem mem_levelStages {depth : Nat} {n : String} (h : n ∈ m.levelStages depth) :
    n = objectStage depth ∨ ∃ e ∈ m.arrays, m.depth e.id = depth ∧ n = arrayStage e.id := by
  unfold levelStages at h
  split at h
  · simp at h
  · rcases List.mem_cons.mp h with rfl | h
    · exact .inl rfl
    · obtain ⟨e, he, rfl⟩ := List.mem_map.mp h
      obtain ⟨hnested, hdepth, harray⟩ := mem_arraysAt.mp he
      exact .inr ⟨e, List.mem_filter.mpr ⟨hnested, by simp [harray]⟩, hdepth, rfl⟩

theorem mem_depths {depth : Nat} : depth ∈ m.depths ↔ 0 < depth ∧ depth ≤ m.maxDepth := by
  simp only [depths, List.mem_map, List.mem_reverse, List.mem_range]
  constructor
  · rintro ⟨d, hd, rfl⟩
    omega
  · rintro ⟨hpos, hle⟩
    exact ⟨depth - 1, by omega, by omega⟩

/-- Each array of a mapping without faults has its stage. -/
theorem arrayStage_mem_madeStages (hm : m.IsTree) {e : NestedEntity} (he : e ∈ m.arrays) :
    arrayStage e.id ∈ m.madeStages := by
  obtain ⟨hnested, harray⟩ := List.mem_filter.mp he
  have hdepth := depth_eq hm hnested
  have hmem : m.depth e.id ∈ m.depths :=
    mem_depths.mpr ⟨by omega, depth_le_maxDepth hnested⟩
  have hlevel : e ∈ m.arraysAt (m.depth e.id) :=
    mem_arraysAt.mpr ⟨hnested, rfl, beq_iff_eq.mp harray⟩
  have hne : (m.levelAt (m.depth e.id)).isEmpty = false := by
    rw [List.isEmpty_eq_false_iff_exists_mem]
    exact ⟨e, mem_levelAt.mpr ⟨hnested, rfl⟩⟩
  refine List.mem_append_left _ (List.mem_cons_of_mem _ (List.mem_flatMap.mpr ⟨_, hmem, ?_⟩))
  rw [levelStages, hne, if_neg Bool.false_ne_true]
  exact List.mem_cons_of_mem _ (List.mem_map_of_mem hlevel)

/-- Arrays whose ids are the same up to case are one, if the ids differ. -/
theorem eq_of_array_ids (hm : m.IsTree) (hids : NamesDiffer (m.arrays.map NestedEntity.id))
    {e x : NestedEntity} (he : e ∈ m.arrays) (hx : x ∈ m.arrays)
    (h : sameName e.id x.id = true) : e = x := by
  have hid := eq_of_sameName hids (List.mem_map_of_mem he) (List.mem_map_of_mem hx) h
  exact List.inj_on_of_nodup_map (List.nodup_cons.mp hm.ids_nodup).2 (List.mem_filter.mp he).1
    (List.mem_filter.mp hx).1 hid

theorem levelStages_differ (hids : NamesDiffer (m.arrays.map NestedEntity.id)) (depth : Nat) :
    NamesDiffer (m.levelStages depth) := by
  unfold levelStages
  split
  · exact List.Pairwise.nil
  · have hsublist : (m.arraysAt depth).Sublist m.arrays := List.filter_sublist.filter _
    refine List.pairwise_cons.mpr ⟨List.forall_mem_map.mpr fun e _ =>
      sameName_objectStage_array depth e.id, ?_⟩
    have hdiffer := List.pairwise_map.mp (List.Pairwise.sublist (hsublist.map NestedEntity.id) hids)
    exact List.pairwise_map.mpr (hdiffer.imp fun h => sameName_append_left _ h)

/-- No stage of one depth has the name of a stage of another. -/
theorem levelStages_ne (hm : m.IsTree) (hids : NamesDiffer (m.arrays.map NestedEntity.id))
    {d d' : Nat} (hne : d ≠ d') {n k : String} (hn : n ∈ m.levelStages d)
    (hk : k ∈ m.levelStages d') : sameName n k = false := by
  rcases mem_levelStages hn with rfl | ⟨e, he, hd, rfl⟩
  · rcases mem_levelStages hk with rfl | ⟨x, -, -, rfl⟩
    · exact sameName_objectStage hne
    · exact sameName_objectStage_array d x.id
  · rcases mem_levelStages hk with rfl | ⟨x, hx, hd', rfl⟩
    · exact (sameName_comm _ _).trans (sameName_objectStage_array d' e.id)
    · refine sameName_append_left _ (Bool.eq_false_iff.mpr fun hsame => hne ?_)
      rw [← hd, ← hd', eq_of_array_ids hm hids he hx hsame]

theorem depths_pairwise (m : Mapping) : m.depths.Pairwise (· ≠ ·) := by
  have hrange : ((List.range m.maxDepth).reverse).Pairwise (· ≠ ·) :=
    List.nodup_reverse.mpr List.nodup_range
  exact List.pairwise_map.mpr (hrange.imp fun h => by omega)

/-- **The names of the stages differ exactly if the ids of the arrays do.** -/
theorem madeStages_differ_iff (hm : m.IsTree) :
    NamesDiffer m.madeStages ↔ NamesDiffer (m.arrays.map NestedEntity.id) := by
  constructor
  · -- ids that are one up to case lead to stage names that are, and the ids themselves differ
    intro hstages
    have hnodup := (List.nodup_cons.mp hm.ids_nodup).2
    have harrays : (m.arrays.map NestedEntity.id).Nodup :=
      (List.filter_sublist.map NestedEntity.id).nodup hnodup
    refine harrays.imp_of_mem fun {a b} ha hb hne => ?_
    obtain ⟨e, he, rfl⟩ := List.mem_map.mp ha
    obtain ⟨x, hx, rfl⟩ := List.mem_map.mp hb
    rw [Bool.eq_false_iff]
    intro hsame
    have hnames : sameName (arrayStage e.id) (arrayStage x.id) = true := by
      by_contra hfalse
      rw [sameName_iff] at hsame
      rw [Bool.not_eq_true, arrayStage, arrayStage] at hfalse
      simp [sameName, foldCase_append, hsame] at hfalse
    have heq := eq_of_sameName hstages (arrayStage_mem_madeStages hm he)
      (arrayStage_mem_madeStages hm hx) hnames
    exact hne (String.append_right_inj _ |>.mp heq)
  · -- stages of different kinds differ by their prefixes, object stages by their depths
    intro hids
    have hlevels : NamesDiffer (m.depths.flatMap m.levelStages) :=
      List.pairwise_flatMap.mpr ⟨fun d _ => levelStages_differ hids d,
        m.depths_pairwise.imp fun hne n hn k hk => levelStages_ne hm hids hne hn hk⟩
    have hroot : ∀ n ∈ originStage :: m.depths.flatMap m.levelStages,
        sameName n (rootStage m.rootName) = false := by
      refine List.forall_mem_cons.mpr ⟨sameName_originStage_root _, fun n hn => ?_⟩
      obtain ⟨d, -, hn⟩ := List.mem_flatMap.mp hn
      rcases mem_levelStages hn with rfl | ⟨e, -, -, rfl⟩
      · exact sameName_objectStage_root d _
      · exact sameName_arrayStage_root e.id _
    have horigin : ∀ n ∈ m.depths.flatMap m.levelStages, sameName originStage n = false := by
      intro n hn
      obtain ⟨d, -, hn⟩ := List.mem_flatMap.mp hn
      rcases mem_levelStages hn with rfl | ⟨e, -, -, rfl⟩
      · exact sameName_originStage_object d
      · exact sameName_originStage_array e.id
    refine List.pairwise_append.mpr ⟨List.pairwise_cons.mpr ⟨horigin, hlevels⟩,
      List.pairwise_singleton _ _, fun n hn k hk => ?_⟩
    obtain rfl := List.mem_singleton.mp hk
    exact hroot n hn

/-- Every stage that is made has one of the names that a statement is refused for. -/
theorem madeStages_subset : ∀ n ∈ m.madeStages, n ∈ m.stageNames := by
  intro n hn
  simp only [madeStages, List.mem_append, List.mem_cons, List.mem_flatMap, List.not_mem_nil,
    or_false] at hn
  simp only [stageNames, List.mem_append, List.mem_cons, List.mem_map, List.mem_range]
  rcases hn with (rfl | ⟨d, hd, hn⟩) | rfl
  · exact .inl (.inl rfl)
  · obtain ⟨hpos, hle⟩ := mem_depths.mp hd
    rcases mem_levelStages hn with rfl | ⟨e, he, -, rfl⟩
    · refine .inl (.inr (.inr ⟨d - 1, by omega, ?_⟩))
      rw [Nat.sub_add_cancel hpos]
    · exact .inr ⟨e, he, rfl⟩
  · exact .inl (.inr (.inl rfl))

end Mapping

/-! ## The whole statement -/

/-- A document that is not refused is the staged statement. -/
theorem Statement.toDocument_eq_ok {s t : Statement} {lookup : Option Lookup}
    (h : s.toDocument m lookup = .ok t) :
    ∃ origin resolved, m.validate = .ok () ∧ outputColumns lookup .empty s = .ok origin
      ∧ resolveColumns origin.names m.columns = .ok resolved
      ∧ nameClash? m s origin.names = none ∧ t = s.staged m resolved origin.names := by
  unfold toDocument at h
  obtain ⟨⟨⟩, hvalid, h⟩ := ok_of_bind h
  obtain ⟨origin, horigin, h⟩ := ok_of_bind h
  dsimp only at h
  split at h
  · cases h
  next resolved hresolve =>
  split at h
  · cases h
  next hclash =>
  exact ⟨origin, resolved, hvalid, horigin, hresolve, hclash, (Except.ok.inj h).symm⟩

/-- **The CTEs of a document have different names exactly if the arrays have different ids,** up to
case. The document is then printed so that it is read back, values and parentheses apart, unless it
nests too deeply. -/
theorem Statement.toDocument_ctes_differ {text : String} {s t : Statement} {lookup : Option Lookup}
    (hread : parse text = .ok s) (h : s.toDocument m lookup = .ok t) :
    (NamesDiffer (t.ctes.map Cte.name) ↔ NamesDiffer (m.arrays.map NestedEntity.id))
      ∧ (NamesDiffer (m.arrays.map NestedEntity.id) → (∀ e ∈ s.nodesInOrder, e.Named) →
        Lookup.Named lookup → ∀ d ∈ readableDialects, ∀ out, t.format d.config = .ok out →
          (∃ offset, parse out.sql
              = .error (Error.inText out.sql offset "statement nested too deeply"))
            ∨ ∃ t', parse out.sql = .ok t' ∧ t'.bare = (t.mapParams Param.unbound).bare) := by
  obtain ⟨origin, resolved, hvalid, horigin, hresolve, hclash, rfl⟩ := toDocument_eq_ok h
  have hm := Mapping.isTree_of_validate hvalid
  have hiff : NamesDiffer ((s.staged m resolved origin.names).ctes.map Cte.name)
      ↔ NamesDiffer (m.arrays.map NestedEntity.id) := by
    -- the CTEs that were read differ, and none of them has the name of a stage
    have hsound : s.AllSound False := Statement.allSound_of_wf s (wf_of_parse hread)
    have hctes : NamesDiffer (s.ctes.map Cte.name) :=
      (Statement.allSound_iff.mp hsound).1.1.names_differ
    have hfree : ∀ n ∈ s.ctes.map Cte.name, ∀ k ∈ m.madeStages, sameName n k = false := by
      refine List.forall_mem_map.mpr fun c hc k hk => ?_
      exact nameIn_eq_false.mp (nameIn_stageNames_of_nameClash? hclash c hc) k
        (Mapping.madeStages_subset k hk)
    rw [Statement.staged_names, ← Mapping.madeStages_differ_iff hm]
    unfold NamesDiffer at *
    rw [List.pairwise_append]
    exact ⟨fun hall => hall.2.1, fun hstages => ⟨hctes, hstages, hfree⟩⟩
  refine ⟨hiff, fun hids hnamed hlookup d hd out hformat => ?_⟩
  have hsound : s.AllSound True :=
    Statement.allSound_of_wf s (Statement.wf_of_named s (wf_of_parse hread) hnamed)
  have hcolumns := outputColumns_named hlookup Scope.allSound_empty s hsound horigin
  have hstaged := Statement.staged_sound hsound (Mapping.rootName_ne_of_validate hvalid)
    (fun _ => hcolumns) hresolve (hiff.mpr hids)
  have hconfig : d.config.validate = .ok () := by cases d <;> rfl
  exact Statement.parse_of_format hstaged
    (DialectConfig.readable_of_writesLike hd ⟨rfl, rfl, rfl⟩ hconfig) hformat

/-- Users with their orders, and each order with its items. -/
def itemizedOrders : Mapping where
  rootName := "users"
  root := ⟨"user", "User", [("id", "id")]⟩
  nested := [⟨"order", "Order", "user", "orders", .array, [("no", "order_no")]⟩,
    ⟨"item", "Item", "order", "items", .array, [("sku", "sku")]⟩]
  format := .array

theorem toDocument_ctes_differ_itemizedOrders : ∃ s t,
    parse "with c as (select * from t) select id, order_no, sku from c" = .ok s
      ∧ s.toDocument itemizedOrders none = .ok t
      ∧ NamesDiffer (itemizedOrders.arrays.map NestedEntity.id)
      ∧ (∀ e ∈ s.nodesInOrder, e.Named) ∧ Lookup.Named none ∧ Dialect.postgres ∈ readableDialects
      ∧ NamesDiffer (t.ctes.map Cte.name)
      ∧ ∃ out, t.format Dialect.postgres.config = .ok out
        ∧ ((∃ offset, parse out.sql
              = .error (Error.inText out.sql offset "statement nested too deeply"))
            ∨ ∃ t', parse out.sql = .ok t' ∧ t'.bare = (t.mapParams Param.unbound).bare) := by
  obtain ⟨s, hs, h⟩ := exists_ok_of_any
    (show (parse "with c as (select * from t) select id, order_no, sku from c").toOption.any
      (fun s => decide (∀ e ∈ s.nodesInOrder, e.Named)
        && (s.toDocument itemizedOrders none).toOption.any fun t =>
          (t.format Dialect.postgres.config).toOption.any fun _ => true) = true
      by decide +kernel)
  obtain ⟨hnamed, h⟩ := (Bool.and_eq_true _ _).mp h
  obtain ⟨t, ht, h⟩ := exists_ok_of_any h
  obtain ⟨out, hout, -⟩ := exists_ok_of_any h
  have hids : NamesDiffer (itemizedOrders.arrays.map NestedEntity.id) := by
    unfold NamesDiffer
    decide +kernel
  have hlookup : Lookup.Named none := fun ask hask => by simp at hask
  have hd : Dialect.postgres ∈ readableDialects := by decide
  obtain ⟨hiff, hreread⟩ := Statement.toDocument_ctes_differ hs ht
  exact ⟨s, t, hs, ht, hids, of_decide_eq_true hnamed, hlookup, hd, hiff.mpr hids, out, hout,
    hreread hids (of_decide_eq_true hnamed) hlookup _ hd out hout⟩

end Sql
