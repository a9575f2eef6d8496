import Sql.Parser
import Sql.Proofs.MappingTree
import Sql.Proofs.Results
import Sql.Proofs.StageReads

/-!
# Columns of staged documents

* `Staging.Ready` is what holds of the stages and their columns while a document is staged. An object
  stage (`Staging.Ready.addObjects`) and an array stage (`Staging.Ready.addArray`) keep it, and so do
  all stages of a depth (`Staging.Ready.addLevel`) and of all depths (`stagesOf_ready`).
* `Statement.toDocument_stagesLead` says of the whole statement that stages name only columns that
  are there, if nothing is ambiguous that the refusals leave open (`Mapping.Unambiguous`).
* `Staging.addArray_drops` is why it takes that: an array stage drops more columns than its own.
-/

namespace Sql

/-! ## Needed columns -/

namespace Mapping

/-- The columns that the root and the entities nearer to it than a depth are mapped to. The stages
after those of the depth read them. -/
def neededAt (m : Mapping) (depth : Nat) : List String :=
  m.root.columns.map Prod.snd ++ (m.nested.filter fun x => m.depth x.id < depth).flatMap fun x =>
    x.columns.map Prod.snd

/-- What the refusals leave open: two ids may differ in case only; a column of the origin that no
entity is mapped to may be there twice, and an array stage groups by it; and a column may have the
array name of an object inside an array, so that the stage of the array drops it. -/
structure Unambiguous (m : Mapping) (origin : List String) : Prop where
  ids_differ : NamesDiffer (m.nested.map NestedEntity.id)
  origin_differ : ∀ e ∈ m.nested, e.relationship = .array → NamesDiffer origin
  needed_free : ∀ e ∈ m.nested, e.relationship = .array → ∀ x ∈ m.subtree e.id,
    x.relationship = .object → nameIn (arrayColumn x.id) (m.neededAt (m.depth e.id)) = false

/-- What staging relies on: every needed column is one of the origin's, and no column of the origin
has a generated name. -/
structure Fits (m : Mapping) (resolved : ResolvedColumns) (origin : List String) : Prop where
  tree : m.IsTree
  unambiguous : m.Unambiguous origin
  resolves : ∀ depth, ∀ c ∈ m.neededAt depth, resolvedName resolved c ∈ origin
    ∧ IsOneOf (resolvedName resolved c) origin ∧ sameName (resolvedName resolved c) c = true
  objects_free : ∀ n ∈ origin, ∀ e ∈ m.nested, sameName n (objectColumn e.id) = false
  arrays_free : ∀ n ∈ origin, ∀ e ∈ m.nested, e.relationship = .array →
    sameName n (arrayColumn e.id) = false

variable {m : Mapping} {resolved : ResolvedColumns} {origin : List String} {depth : Nat}

theorem mem_neededAt {c : String} : c ∈ m.neededAt depth ↔ c ∈ m.root.columns.map Prod.snd
    ∨ ∃ x ∈ m.nested, m.depth x.id < depth ∧ c ∈ x.columns.map Prod.snd := by
  simp only [neededAt, List.mem_append, List.mem_flatMap, List.mem_filter, decide_eq_true_eq,
    and_assoc]

theorem neededAt_succ {c : String} (hc : c ∈ m.neededAt depth) : c ∈ m.neededAt (depth + 1) := by
  rcases mem_neededAt.mp hc with hc | ⟨x, hx, hdepth, hc⟩
  · exact mem_neededAt.mpr (.inl hc)
  · exact mem_neededAt.mpr (.inr ⟨x, hx, Nat.lt_succ_of_lt hdepth, hc⟩)

/-- The columns of an entity are needed up to its own depth. -/
theorem mem_neededAt_of_nested {e : NestedEntity} (he : e ∈ m.nested) {c : String}
    (hc : c ∈ e.columns.map Prod.snd) : c ∈ m.neededAt (m.depth e.id + 1) :=
  mem_neededAt.mpr (.inr ⟨e, he, Nat.lt_succ_self _, hc⟩)

/-- The entities of a depth. -/
def levelAt (m : Mapping) (depth : Nat) : List NestedEntity :=
  m.nested.filter fun e => m.depth e.id == depth

/-- The entities of a depth that stand in their parents as arrays. -/
def arraysAt (m : Mapping) (depth : Nat) : List NestedEntity :=
  (m.levelAt depth).filter fun e => e.relationship == .array

theorem mem_levelAt {e : NestedEntity} :
    e ∈ m.levelAt depth ↔ e ∈ m.nested ∧ m.depth e.id = depth := by
  simp [levelAt]

theorem mem_arraysAt {e : NestedEntity} :
    e ∈ m.arraysAt depth ↔ e ∈ m.nested ∧ m.depth e.id = depth ∧ e.relationship = .array := by
  simp [arraysAt, mem_levelAt, and_assoc]

/-- Entities whose ids are the same up to case are one. -/
theorem Fits.eq_of_ids (h : m.Fits resolved origin) {e x : NestedEntity} (he : e ∈ m.nested)
    (hx : x ∈ m.nested) (hid : sameName e.id x.id = true) : e = x := by
  have heq := eq_of_sameName h.unambiguous.ids_differ (List.mem_map_of_mem he)
    (List.mem_map_of_mem hx) hid
  exact List.inj_on_of_nodup_map (List.nodup_cons.mp h.tree.ids_nodup).2 he hx heq

theorem Fits.ids_differ (h : m.Fits resolved origin) {e x : NestedEntity} (he : e ∈ m.nested)
    (hx : x ∈ m.nested) (hne : e ≠ x) : sameName e.id x.id = false :=
  Bool.eq_false_iff.mpr fun hid => hne (h.eq_of_ids he hx hid)

/-! ## Collected entities -/

/-- The entity is further from the root than the depth, or one of those done. -/
def Collected (m : Mapping) (depth : Nat) (done : List NestedEntity) (e : NestedEntity) : Prop :=
  e ∈ m.nested ∧ (depth < m.depth e.id ∨ e ∈ done)

namespace Collected

variable {done : List NestedEntity} {e : NestedEntity}

/-- What is collected stays so, when one more is. -/
theorem concat (h : m.Collected depth done e) (x : NestedEntity) :
    m.Collected depth (done ++ [x]) e :=
  ⟨h.1, h.2.imp_right (List.mem_append_left _)⟩

/-- When all arrays of a depth are done, those of the next are begun. -/
theorem next (h : m.Collected (depth + 1) (m.arraysAt (depth + 1)) e) :
    m.Collected depth [] e := by
  obtain ⟨he, hdepth | hdone⟩ := h
  · exact ⟨he, .inl (by omega)⟩
  · obtain ⟨-, hdepth, -⟩ := mem_arraysAt.mp hdone
    exact ⟨he, .inl (by omega)⟩

/-- An entity of the depth that is not done differs from the collected ones. -/
theorem ne {x : NestedEntity} (h : m.Collected depth done e) (hx : m.depth x.id = depth)
    (hdone : x ∉ done) : e ≠ x := by
  rintro rfl
  rcases h.2 with hdepth | hmem
  · omega
  · exact hdone hmem

end Collected

/-! ## What an array stage drops -/

/-- A column that an array stage drops is mapped within the subtree and needed nowhere else, or it
has a generated name of the subtree. -/
theorem exists_of_nameIn_subtreeColumns (hm : m.IsTree) {e : NestedEntity} (he : e ∈ m.nested)
    {n : String} (h : nameIn n (subtreeColumns m resolved e) = true) : ∃ x ∈ m.subtree e.id,
      (∃ c ∈ x.columns.map Prod.snd, nameIn c (m.neededAt (m.depth e.id)) = false
        ∧ sameName n (resolvedName resolved c) = true)
        ∨ sameName n (objectColumn x.id) = true ∨ sameName n (arrayColumn x.id) = true := by
  obtain ⟨k, hk, hsame⟩ := nameIn_iff.mp h
  obtain ⟨x, hx, hk⟩ := List.mem_flatMap.mp hk
  refine ⟨x, hx, ?_⟩
  rcases List.mem_append.mp hk with hk | hk
  · obtain ⟨c, hc, rfl⟩ := List.mem_map.mp hk
    obtain ⟨hc, hunused⟩ := List.mem_filter.mp hc
    rw [Bool.not_eq_true', nameIn_eq_false] at hunused
    refine .inl ⟨c, hc, nameIn_eq_false.mpr fun k hk => hunused k ?_, hsame⟩
    -- what is nearer to the root than the entity is outside its subtree
    rcases mem_neededAt.mp hk with hk | ⟨o, ho, hdepth, hk⟩
    · exact List.mem_append_left _ hk
    · refine List.mem_append_right _ (List.mem_flatMap.mpr ⟨o, List.mem_filter.mpr ⟨ho, ?_⟩, hk⟩)
      rw [Bool.not_eq_true', List.any_eq_false]
      intro s hs hid
      obtain ⟨-, hbelow⟩ := mem_subtree hm he hs
      rw [← beq_iff_eq.mp hid] at hdepth
      rcases hbelow with rfl | hbelow <;> omega
  · rcases List.mem_pair.mp hk with rfl | rfl
    · exact .inr (.inl hsame)
    · exact .inr (.inr hsame)

/-- The array stage of an entity keeps the columns that are needed after its depth. -/
theorem Fits.keeps_needed (hfits : m.Fits resolved origin) {e : NestedEntity} (he : e ∈ m.nested)
    (harray : e.relationship = .array) {c : String} (hc : c ∈ m.neededAt (m.depth e.id)) :
    nameIn (resolvedName resolved c) (subtreeColumns m resolved e) = false := by
  obtain ⟨horigin, -, hname⟩ := hfits.resolves _ c hc
  rw [Bool.eq_false_iff]
  intro h
  obtain ⟨x, hx, hcases⟩ := exists_of_nameIn_subtreeColumns hfits.tree he h
  obtain ⟨hnested, -⟩ := mem_subtree hfits.tree he hx
  rcases hcases with ⟨k, hk, hunused, hsame⟩ | hsame | hsame
  · obtain ⟨-, -, hname'⟩ := hfits.resolves _ k (mem_neededAt_of_nested hnested hk)
    have hchain : sameName k c = true :=
      sameName_trans (sameName_symm hname') (sameName_trans (sameName_symm hsame) hname)
    simp [nameIn_eq_false.mp hunused c hc] at hchain
  · simp [hfits.objects_free _ horigin x hnested] at hsame
  · cases hrelationship : x.relationship with
    | array => simp [hfits.arrays_free _ horigin x hnested hrelationship] at hsame
    | object =>
      have hfree := hfits.unambiguous.needed_free e he harray x hx hrelationship
      have hchain := sameName_trans (sameName_symm hsame) hname
      simp [nameIn_eq_false.mp hfree c hc] at hchain

/-- The array stage of an entity keeps the generated columns of the others of its depth. -/
theorem Fits.keeps_member (hfits : m.Fits resolved origin) {e x : NestedEntity} (he : e ∈ m.nested)
    (hx : x ∈ m.nested) (hdepth : m.depth x.id = m.depth e.id) (hne : x ≠ e) {n : String}
    (hn : n = objectColumn x.id ∨ x.relationship = .array ∧ n = arrayColumn x.id) :
    nameIn n (subtreeColumns m resolved e) = false := by
  rw [Bool.eq_false_iff]
  intro h
  obtain ⟨s, hs, hcases⟩ := exists_of_nameIn_subtreeColumns hfits.tree he h
  obtain ⟨hnested, hbelow⟩ := mem_subtree hfits.tree he hs
  have hids : sameName x.id s.id = false := by
    refine hfits.ids_differ hx hnested ?_
    rintro rfl
    rcases hbelow with rfl | hbelow
    · exact hne rfl
    · omega
  rcases hcases with ⟨c, hc, -, hsame⟩ | hsame | hsame
  · obtain ⟨horigin, -, -⟩ := hfits.resolves _ c (mem_neededAt_of_nested hnested hc)
    have hback := sameName_symm hsame
    rcases hn with rfl | ⟨harray, rfl⟩
    · simp [hfits.objects_free _ horigin x hx] at hback
    · simp [hfits.arrays_free _ horigin x hx harray] at hback
  · rcases hn with rfl | ⟨-, rfl⟩
    · simp [objectColumn, sameName_append_right _ hids] at hsame
    · simp [sameName_comm (arrayColumn x.id), sameName_objectColumn_array] at hsame
  · rcases hn with rfl | ⟨-, rfl⟩
    · simp [sameName_objectColumn_array] at hsame
    · simp [arrayColumn, sameName_append_right _ hids] at hsame

end Mapping

/-- An array stage drops every column with the array name of an entity of the subtree: also where
that entity stands in its parent as an object, and whatever else needs the column. -/
theorem Staging.addArray_drops {m : Mapping} {resolved : ResolvedColumns} {e x : NestedEntity}
    (hx : x ∈ m.subtree e.id) (s : Staging) : ∀ c ∈ (s.addArray m resolved e).columns,
      sameName c (arrayColumn x.id) = true → c = arrayColumn e.id := by
  intro c hc hsame
  rcases List.mem_append.mp hc with hc | hc
  · obtain ⟨-, hkept⟩ := List.mem_filter.mp hc
    have hdropped : nameIn c (subtreeColumns m resolved e) = true := by
      refine nameIn_iff.mpr ⟨arrayColumn x.id, List.mem_flatMap.mpr ⟨x, hx, ?_⟩, hsame⟩
      exact List.mem_append_right _ (by simp)
    simp [hdropped] at hkept
  · exact List.mem_singleton.mp hc

-- the stage of the array `a` drops what the root is mapped to, since the object `o` is inside
example : (Staging.addArray
    ⟨"r", ⟨"r", "R", [("z", "o_array")]⟩, [⟨"a", "A", "r", "a", .array, [("id", "id")]⟩,
      ⟨"o", "O", "a", "o", .object, [("no", "no")]⟩], .array⟩ []
    ⟨[], "cte_object_depth_1", ["o_array", "id", "no", "o_json", "a_json"]⟩
    ⟨"a", "A", "r", "a", .array, [("id", "id")]⟩).columns = ["a_array"] := by decide +kernel

/-- The member of an entity, done or not, has the name of its object, or of its array. -/
theorem NestedEntity.member_cases (e : NestedEntity) (done : List NestedEntity) :
    (if e ∈ done then e.memberColumn else objectColumn e.id) = objectColumn e.id
      ∨ e.relationship = .array
        ∧ (if e ∈ done then e.memberColumn else objectColumn e.id) = arrayColumn e.id := by
  unfold NestedEntity.memberColumn
  split
  · cases e.relationship
    · exact .inl rfl
    · exact .inr ⟨rfl, rfl⟩
  · exact .inl rfl

/-! ## The invariant of staging -/

/-- What holds of the stages and their columns while the entities of a depth are collected and some
of them are done. Nothing that a later stage needs is missing. -/
structure Staging.Ready (m : Mapping) (resolved : ResolvedColumns) (origin : List String)
    (depth : Nat) (done : List NestedEntity) (s : Staging) : Prop where
  lead : StagesLead originStage origin s.stages s.current s.columns
  differ : ∀ e ∈ m.nested, e.relationship = .array → NamesDiffer s.columns
  named : ∀ c ∈ s.stages, (∃ d, depth ≤ d ∧ d ≤ m.maxDepth ∧ c.name = objectStage d)
    ∨ ∃ e, m.Collected depth done e ∧ e.relationship = .array ∧ c.name = arrayStage e.id
  made : ∀ c ∈ s.columns, c ∈ origin
    ∨ (∃ e ∈ m.nested, depth ≤ m.depth e.id ∧ c = objectColumn e.id)
    ∨ ∃ e, m.Collected depth done e ∧ c = arrayColumn e.id
  needed : ∀ c ∈ m.neededAt depth, IsOneOf (resolvedName resolved c) s.columns
  members : ∀ e ∈ m.nested, m.depth e.id = depth →
    IsOneOf (if e ∈ done then e.memberColumn else objectColumn e.id) s.columns

section

variable {m : Mapping} {resolved : ResolvedColumns} {origin : List String}

namespace Staging.Ready

variable {s : Staging} {depth : Nat} {done : List NestedEntity}

/-- A name is new that differs from those of the stages so far. -/
theorem fresh (h : s.Ready m resolved origin depth done) {n : String}
    (horigin : sameName originStage n = false)
    (hobject : ∀ d, depth ≤ d → sameName (objectStage d) n = false)
    (harray : ∀ e, m.Collected depth done e → sameName (arrayStage e.id) n = false) :
    nameIn n (originStage :: s.stages.map Cte.name) = false := by
  refine nameIn_eq_false.mpr (List.forall_mem_cons.mpr ⟨(sameName_comm _ _).trans horigin, ?_⟩)
  refine List.forall_mem_map.mpr fun c hc => ?_
  rw [sameName_comm]
  rcases h.named c hc with ⟨d, hd, -, heq⟩ | ⟨e, he, -, heq⟩
  · rw [heq]
    exact hobject d hd
  · rw [heq]
    exact harray e he

/-- Where all arrays of a depth are done, its entities are there as members of their parents. -/
theorem isOneOf_memberColumn (h : s.Ready m resolved origin depth (m.arraysAt depth))
    {e : NestedEntity} (he : e ∈ m.nested) (hdepth : m.depth e.id = depth) :
    IsOneOf e.memberColumn s.columns := by
  have hmember := h.members e he hdepth
  split at hmember
  · exact hmember
  · next hnot =>
    have hobject : e.relationship = .object := by
      cases hrelationship : e.relationship with
      | object => rfl
      | array => exact absurd (Mapping.mem_arraysAt.mpr ⟨he, hdepth, hrelationship⟩) hnot
    rw [NestedEntity.memberColumn, hobject]
    exact hmember

/-- The children of an entity, or of the root, are there as its members. -/
theorem isOneOf_children (hfits : m.Fits resolved origin)
    (h : s.Ready m resolved origin (depth + 1) (m.arraysAt (depth + 1))) {id : String}
    (hid : m.depth id = depth) : ∀ x ∈ m.children id, IsOneOf x.memberColumn s.columns := by
  intro x hx
  obtain ⟨hnested, rfl⟩ := Mapping.mem_children.mp hx
  have hstep := Mapping.depth_eq hfits.tree hnested
  rw [hid] at hstep
  exact h.isOneOf_memberColumn hnested hstep

/-- No column that is there has the name of an object that is not made. -/
theorem objectColumn_fresh (hfits : m.Fits resolved origin)
    (h : s.Ready m resolved origin (depth + 1) done) {e : NestedEntity} (he : e ∈ m.levelAt depth) :
    ∀ c ∈ s.columns, sameName c (objectColumn e.id) = false := by
  intro c hc
  obtain ⟨he, hdepth⟩ := Mapping.mem_levelAt.mp he
  rcases h.made c hc with hc | ⟨x, hx, hxdepth, rfl⟩ | ⟨x, -, rfl⟩
  · exact hfits.objects_free c hc e he
  · refine sameName_append_right "_json" (hfits.ids_differ hx he ?_)
    rintro rfl
    omega
  · exact (sameName_comm _ _).trans (sameName_objectColumn_array e.id x.id)

/-- No column that is there has the name of an array that is not made. -/
theorem arrayColumn_fresh (hfits : m.Fits resolved origin) (h : s.Ready m resolved origin depth done)
    {e : NestedEntity} (he : e ∈ m.arraysAt depth) (hdone : e ∉ done) :
    ∀ c ∈ s.columns, sameName c (arrayColumn e.id) = false := by
  intro c hc
  obtain ⟨he, hdepth, harray⟩ := Mapping.mem_arraysAt.mp he
  rcases h.made c hc with hc | ⟨x, -, -, rfl⟩ | ⟨x, hx, rfl⟩
  · exact hfits.arrays_free c hc e he harray
  · exact sameName_objectColumn_array x.id e.id
  · exact sameName_append_right "_array" (hfits.ids_differ hx.1 he (hx.ne hdepth hdone))

/-! ## One stage -/

/-- **The object stage of a depth** names only columns that are there, and starts the depth. -/
theorem addObjects (hfits : m.Fits resolved origin)
    (h : s.Ready m resolved origin (depth + 1) (m.arraysAt (depth + 1)))
    (hmax : depth ≤ m.maxDepth) :
    (s.addObjects m resolved depth (m.levelAt depth)).Ready m resolved origin depth [] := by
  have hlevel : ∀ e ∈ m.levelAt depth,
      (guardedObject resolved e (m.children e.id)).NamesIn s.columns := by
    intro e he
    obtain ⟨hnested, rfl⟩ := Mapping.mem_levelAt.mp he
    refine namesIn_guardedObject (fun c hc => ?_) (h.isOneOf_children hfits rfl)
    exact h.needed c (Mapping.mem_neededAt_of_nested hnested hc)
  have hnew : NamesDiffer ((m.levelAt depth).map fun e => objectColumn e.id) := by
    have hids := List.pairwise_map.mp hfits.unambiguous.ids_differ
    refine List.pairwise_map.mpr ((hids.filter _).imp ?_)
    exact fun hne => sameName_append_right "_json" hne
  constructor
  case lead =>
    refine h.lead.stage ?_ (by simp) ?_ ?_
    -- a star keeps the columns that are there, and the objects come behind them
    · refine List.forall_mem_cons.mpr ⟨Expr.namesIn_star none, ?_⟩
      exact List.forall_mem_map.mpr hlevel
    · rw [List.flatMap_cons, flatMap_gives (fun e => isStar_guardedObject e _) fun _ => rfl]
      rfl
    · refine h.fresh (sameName_originStage_object depth) (fun d hd => ?_) fun e _ => ?_
      · exact sameName_objectStage (by omega)
      · exact (sameName_comm _ _).trans (sameName_objectStage_array depth e.id)
  case differ =>
    intro a ha harray
    refine List.pairwise_append.mpr ⟨h.differ a ha harray, hnew, fun c hc => ?_⟩
    exact List.forall_mem_map.mpr fun e he => h.objectColumn_fresh hfits he c hc
  case named =>
    intro c hc
    rcases List.mem_append.mp hc with hc | hc
    · rcases h.named c hc with ⟨d, hd, hname⟩ | ⟨e, he, hname⟩
      · exact .inl ⟨d, by omega, hname⟩
      · exact .inr ⟨e, he.next, hname⟩
    · obtain rfl := List.mem_singleton.mp hc
      exact .inl ⟨depth, Nat.le_refl _, hmax, rfl⟩
  case made =>
    intro c hc
    rcases List.mem_append.mp hc with hc | hc
    · rcases h.made c hc with hc | ⟨e, he, hdepth, rfl⟩ | ⟨e, he, rfl⟩
      · exact .inl hc
      · exact .inr (.inl ⟨e, he, by omega, rfl⟩)
      · exact .inr (.inr ⟨e, he.next, rfl⟩)
    · obtain ⟨e, he, rfl⟩ := List.mem_map.mp hc
      obtain ⟨he, hdepth⟩ := Mapping.mem_levelAt.mp he
      exact .inr (.inl ⟨e, he, hdepth.ge, rfl⟩)
  case needed =>
    intro c hc
    obtain ⟨horigin, -, -⟩ := hfits.resolves depth c hc
    refine (h.needed c (Mapping.neededAt_succ hc)).append (List.forall_mem_map.mpr fun e he => ?_)
    exact hfits.objects_free _ horigin e (Mapping.mem_levelAt.mp he).1
  case members =>
    intro e he hdepth
    have hmem := Mapping.mem_levelAt.mpr ⟨he, hdepth⟩
    -- no array of the depth is done, so every member is still the object
    rw [if_neg List.not_mem_nil]
    refine (IsOneOf.of_mem hnew (List.mem_map.mpr ⟨e, hmem, rfl⟩)).append_left fun c hc => ?_
    exact (sameName_comm _ _).trans (h.objectColumn_fresh hfits hmem c hc)

/-- **The array stage of an entity** names only columns that are there, and keeps what other entities
need. -/
theorem addArray (hfits : m.Fits resolved origin) (h : s.Ready m resolved origin depth done)
    {e : NestedEntity} (he : e ∈ m.arraysAt depth) (hdone : e ∉ done) :
    (s.addArray m resolved e).Ready m resolved origin depth (done ++ [e]) := by
  have hfresh := h.arrayColumn_fresh hfits he hdone
  obtain ⟨hmem, hdepth, harray⟩ := Mapping.mem_arraysAt.mp he
  have hdiffer := h.differ e hmem harray
  have hkeep : ∀ c ∈ s.columns.filter fun c => !nameIn c (subtreeColumns m resolved e),
      c ∈ s.columns := fun c hc => (List.mem_filter.mp hc).1
  have hobject : IsOneOf (objectColumn e.id) s.columns := by
    have hmember := h.members e hmem hdepth
    rwa [if_neg hdone] at hmember
  have hlast : m.Collected depth (done ++ [e]) e := ⟨hmem, .inr (by simp)⟩
  constructor
  case lead =>
    refine h.lead.stage ?_ ?_ ?_ ?_
    · refine List.forall_mem_append.mpr ⟨List.forall_mem_map.mpr fun c hc => ?_, ?_⟩
      · exact Expr.namesIn_name (IsOneOf.of_mem hdiffer (hkeep c hc))
      · exact List.forall_mem_singleton.mpr (namesIn_collectedObjects hobject)
    · refine List.forall_mem_map.mpr fun c hc => ?_
      exact Expr.namesIn_name (IsOneOf.of_mem hdiffer (hkeep c hc))
    · rw [List.flatMap_append, flatMap_gives (fun _ => rfl) fun _ => rfl, List.map_id']
      rfl
    · refine h.fresh (sameName_originStage_array e.id) (fun d _ => ?_) fun x hx => ?_
      · exact sameName_objectStage_array d e.id
      · exact sameName_append_left "cte_array_" (hfits.ids_differ hx.1 hmem (hx.ne hdepth hdone))
  case differ =>
    refine fun _ _ _ => List.pairwise_append.mpr ⟨hdiffer.filter _, List.pairwise_singleton _ _, ?_⟩
    exact fun c hc => List.forall_mem_singleton.mpr (hfresh c (hkeep c hc))
  case named =>
    intro c hc
    rcases List.mem_append.mp hc with hc | hc
    · rcases h.named c hc with hname | ⟨x, hx, hname⟩
      · exact .inl hname
      · exact .inr ⟨x, hx.concat e, hname⟩
    · obtain rfl := List.mem_singleton.mp hc
      exact .inr ⟨e, hlast, harray, rfl⟩
  case made =>
    intro c hc
    rcases List.mem_append.mp hc with hc | hc
    · rcases h.made c (hkeep c hc) with hc | hc | ⟨x, hx, rfl⟩
      · exact .inl hc
      · exact .inr (.inl hc)
      · exact .inr (.inr ⟨x, hx.concat e, rfl⟩)
    · obtain rfl := List.mem_singleton.mp hc
      exact .inr (.inr ⟨e, hlast, rfl⟩)
  case needed =>
    intro c hc
    obtain ⟨horigin, -, -⟩ := hfits.resolves depth c hc
    -- the columns that are left out belong to the subtree, which nothing above it needs
    have hkept := hfits.keeps_needed hmem harray (hdepth ▸ hc)
    refine ((h.needed c hc).drop hkept).append (List.forall_mem_singleton.mpr ?_)
    exact hfits.arrays_free _ horigin e hmem harray
  case members =>
    intro x hx hxdepth
    by_cases hxe : x = e
    · subst hxe
      rw [if_pos (by simp), NestedEntity.memberColumn, harray]
      refine (IsOneOf.singleton _).append_left fun c hc => ?_
      exact (sameName_comm _ _).trans (hfresh c (hkeep c hc))
    · have hiff : x ∈ done ++ [e] ↔ x ∈ done := by simp [hxe]
      have hids := hfits.ids_differ hx hmem hxe
      have hmember := h.members x hx hxdepth
      simp only [hiff]
      have hcases := x.member_cases done
      have hkept := hfits.keeps_member hmem hx (hxdepth.trans hdepth.symm) hxe hcases
      refine (hmember.drop hkept).append (List.forall_mem_singleton.mpr ?_)
      -- the column of another member is that of an object, or of an array with another id
      rcases hcases with heq | ⟨-, heq⟩
      · rw [heq]
        exact sameName_objectColumn_array x.id e.id
      · rw [heq]
        exact sameName_append_right "_array" hids

/-! ## All stages -/

/-- The array stages of a depth, one after the other. -/
theorem foldl_addArray (hfits : m.Fits resolved origin) {es : List NestedEntity}
    (h : s.Ready m resolved origin depth done) (hes : ∀ e ∈ es, e ∈ m.arraysAt depth)
    (hnodup : (done ++ es).Nodup) :
    (es.foldl (Staging.addArray m resolved) s).Ready m resolved origin depth (done ++ es) := by
  induction es generalizing s done with
  | nil => simpa using h
  | cons e es ih =>
    obtain ⟨he, hes⟩ := List.forall_mem_cons.mp hes
    have hnew : e ∉ done := fun hmem =>
      List.disjoint_of_nodup_append hnodup hmem List.mem_cons_self
    have hsplit : done ++ e :: es = (done ++ [e]) ++ es := by simp
    rw [hsplit] at hnodup ⊢
    exact ih (h.addArray hfits he hnew) hes hnodup

/-- A depth without entities needs no stage. -/
theorem skip (h : s.Ready m resolved origin (depth + 1) (m.arraysAt (depth + 1)))
    (hempty : m.levelAt depth = []) : s.Ready m resolved origin depth [] := by
  constructor
  · exact h.lead
  · exact h.differ
  · intro c hc
    rcases h.named c hc with ⟨d, hd, hname⟩ | ⟨e, he, hname⟩
    · exact .inl ⟨d, by omega, hname⟩
    · exact .inr ⟨e, he.next, hname⟩
  · intro c hc
    rcases h.made c hc with hc | ⟨e, he, hdepth, rfl⟩ | ⟨e, he, rfl⟩
    · exact .inl hc
    · exact .inr (.inl ⟨e, he, by omega, rfl⟩)
    · exact .inr (.inr ⟨e, he.next, rfl⟩)
  · exact fun c hc => h.needed c (Mapping.neededAt_succ hc)
  · intro e he hdepth
    have hmem := Mapping.mem_levelAt.mpr ⟨he, hdepth⟩
    rw [hempty] at hmem
    simp at hmem

/-- **The stages of a depth.** -/
theorem addLevel (hfits : m.Fits resolved origin)
    (h : s.Ready m resolved origin (depth + 1) (m.arraysAt (depth + 1))) :
    (s.addLevel m resolved depth).Ready m resolved origin depth (m.arraysAt depth) := by
  have hnodup : (m.arraysAt depth).Nodup := by
    have hids := (List.nodup_cons.mp hfits.tree.ids_nodup).2
    exact ((List.Nodup.of_map _ hids).filter _).filter _
  unfold Staging.addLevel
  dsimp only
  split
  · next hempty =>
    have hnone : m.levelAt depth = [] := List.isEmpty_iff.mp hempty
    have hnoarrays : m.arraysAt depth = [] := by rw [Mapping.arraysAt, hnone, List.filter_nil]
    rw [hnoarrays]
    exact h.skip hnone
  · next hsome =>
    have hmax : depth ≤ m.maxDepth := by
      have hne : m.levelAt depth ≠ [] := fun hnil => hsome (List.isEmpty_iff.mpr hnil)
      obtain ⟨e, he⟩ := List.exists_mem_of_ne_nil _ hne
      obtain ⟨hnested, rfl⟩ := Mapping.mem_levelAt.mp he
      exact Mapping.depth_le_maxDepth hnested
    exact (h.addObjects hfits hmax).foldl_addArray hfits (fun e he => he) hnodup

/-- The stages from a depth up to the first. -/
theorem foldl_addLevel (hfits : m.Fits resolved origin)
    (h : s.Ready m resolved origin (depth + 1) (m.arraysAt (depth + 1))) :
    (((List.range depth).reverse.map (· + 1)).foldl (Staging.addLevel m resolved) s).Ready m resolved
      origin 1 (m.arraysAt 1) := by
  induction depth generalizing s with
  | zero => exact h
  | succ depth ih =>
    rw [List.range_succ, List.reverse_append, List.reverse_singleton, List.singleton_append,
      List.map_cons, List.foldl_cons]
    exact ih (h.addLevel hfits)

end Staging.Ready

/-- **After all object and array stages** the columns that the root needs are there. -/
theorem stagesOf_ready (hfits : m.Fits resolved origin) :
    (stagesOf m resolved origin).Ready m resolved origin 1 (m.arraysAt 1) := by
  rw [stagesOf, Mapping.depths]
  refine Staging.Ready.foldl_addLevel hfits ?_
  have hnone : ∀ e ∈ m.nested, m.depth e.id ≠ m.maxDepth + 1 := by
    intro e he
    have := Mapping.depth_le_maxDepth he
    omega
  constructor
  · exact .none
  · exact hfits.unambiguous.origin_differ
  · simp
  · exact fun c hc => .inl hc
  · exact fun c hc => (hfits.resolves _ c hc).2.1
  · exact fun e he hdepth => absurd hdepth (hnone e he)

/-- The root stage names only columns that are there. -/
theorem StagesLead.rootStage (hfits : m.Fits resolved origin) :
    StagesLead originStage origin
      ((stagesOf m resolved origin).stages
        ++ [rootStageOf m resolved (stagesOf m resolved origin).current])
      (Sql.rootStage m.rootName) [m.rootName] := by
  have hready := stagesOf_ready hfits
  have hcolumns : ∀ c ∈ m.root.columns.map Prod.snd,
      IsOneOf (resolvedName resolved c) (stagesOf m resolved origin).columns :=
    fun c hc => hready.needed c (Mapping.mem_neededAt.mpr (.inl hc))
  have hchildren := hready.isOneOf_children hfits (Mapping.depth_root hfits.tree)
  refine hready.lead.stage ?_ (by simp) rfl ?_
  · exact List.forall_mem_singleton.mpr (namesIn_buildObject hcolumns hchildren)
  · refine hready.fresh (sameName_originStage_root _) (fun d _ => ?_) fun e _ => ?_
    · exact sameName_objectStage_root d _
    · exact sameName_arrayStage_root e.id _

end

/-! ## Refusals -/

/-- Every needed column is a mapped column, up to case. -/
theorem Mapping.exists_mem_columns {m : Mapping} {depth : Nat} {c : String}
    (hc : c ∈ m.neededAt depth) : ∃ k ∈ m.columns, sameName k c = true := by
  refine @exists_mem_firstByName _ id c _ ?_
  rcases mem_neededAt.mp hc with hc | ⟨x, hx, -, hc⟩
  · exact List.mem_append_left _ hc
  · exact List.mem_append_right _ (List.mem_flatMap.mpr ⟨x, hx, hc⟩)

variable {resolved : ResolvedColumns}

/-- Every mapped column is resolved, to the one column of the origin with its name. -/
theorem resolveColumns_eq_ok {origin mapped : List String}
    (h : resolveColumns origin mapped = .ok resolved) :
    (∀ k ∈ mapped, ∃ r ∈ resolved, r.1 = k)
      ∧ ∀ r ∈ resolved, r.2 ∈ origin ∧ IsOneOf r.2 origin ∧ sameName r.2 r.1 = true := by
  unfold resolveColumns at h
  dsimp only at h
  split at h
  · simp at h
  next hsingle =>
  split at h
  · next hmissing =>
    -- every name has a column that it is the same as, and no name has two
    obtain rfl := Except.ok.inj h
    constructor
    · intro k hk
      have hne : (origin.filter fun n => sameName n k) ≠ [] := by
        intro hnil
        have hmem : k ∈ mapped.filter fun k => (origin.filter fun n => sameName n k).isEmpty :=
          List.mem_filter.mpr ⟨hk, List.isEmpty_iff.mpr hnil⟩
        rw [List.isEmpty_iff.mp hmissing] at hmem
        simp at hmem
      obtain ⟨hit, rest, hhits⟩ := List.exists_cons_of_ne_nil hne
      exact ⟨(k, hit), List.mem_filterMap.mpr ⟨k, hk, by rw [hhits]; rfl⟩, rfl⟩
    · intro r hr
      obtain ⟨k, hk, heq⟩ := List.mem_filterMap.mp hr
      obtain ⟨hit, hhit, rfl⟩ := Option.map_eq_some_iff.mp heq
      obtain ⟨horigin, hname⟩ := List.mem_filter.mp (List.mem_of_mem_head? hhit)
      have hpos : 0 < origin.countP (sameName hit) :=
        List.countP_pos_iff.mpr ⟨hit, horigin, sameName_refl hit⟩
      have hle : ¬ 1 < (origin.filter fun n => sameName n k).length := by
        simpa using List.find?_eq_none.mp hsingle k hk
      have hcount : origin.countP (sameName hit) = (origin.filter fun n => sameName n k).length := by
        rw [← List.countP_eq_length_filter]
        refine List.countP_congr fun n _ => ?_
        rw [sameName_congr (sameName_iff.mp hname), sameName_comm]
      have hone : IsOneOf hit origin := by
        unfold IsOneOf
        omega
      exact ⟨horigin, hone, hname⟩
  · simp at h

/-- Every column that an entity is mapped to is resolved. -/
theorem Mapping.resolves_of_resolveColumns {m : Mapping} {origin : List String}
    (hresolve : resolveColumns origin m.columns = .ok resolved) {depth : Nat} {c : String}
    (hc : c ∈ m.neededAt depth) :
    resolvedName resolved c ∈ origin ∧ IsOneOf (resolvedName resolved c) origin
      ∧ sameName (resolvedName resolved c) c = true := by
  obtain ⟨k, hk, hkc⟩ := exists_mem_columns hc
  obtain ⟨hfound, hhit⟩ := resolveColumns_eq_ok hresolve
  obtain ⟨r, hr, rfl⟩ := hfound k hk
  unfold resolvedName
  split
  · next r' hr' =>
    obtain ⟨hmem, hone, hsame⟩ := hhit r' (List.mem_of_find?_eq_some hr')
    have hname := List.find?_some (p := fun r : String × String => sameName r.1 c) hr'
    exact ⟨hmem, hone, sameName_trans hsame hname⟩
  · next hnone => exact absurd hkc (List.find?_eq_none.mp hnone r hr)

/-- A statement that is not refused has no CTE with the name of a stage. -/
theorem nameIn_stageNames_of_nameClash? {m : Mapping} {s : Statement} {origin : List String}
    (h : nameClash? m s origin = none) : ∀ c ∈ s.ctes, nameIn c.name m.stageNames = false := by
  unfold nameClash? at h
  split at h
  · simp at h
  · next hstages => exact fun c hc => Bool.eq_false_iff.mpr (List.find?_eq_none.mp hstages c hc)

/-- What the refusals leave to staging. -/
theorem Mapping.fits_of_checks {m : Mapping} {s : Statement} {origin : List String}
    (hvalid : m.validate = .ok ()) (hresolve : resolveColumns origin m.columns = .ok resolved)
    (hclash : nameClash? m s origin = none) (hunambiguous : m.Unambiguous origin) :
    m.Fits resolved origin ∧ ∀ c ∈ s.ctes, nameIn c.name m.stageNames = false := by
  have hstages := nameIn_stageNames_of_nameClash? hclash
  unfold nameClash? at hclash
  split at hclash
  · simp at hclash
  have hmade : ∀ n ∈ origin, ∀ k ∈ m.madeColumns, sameName n k = false := fun n hn =>
    nameIn_eq_false.mp
      (Bool.eq_false_iff.mpr (List.find?_eq_none.mp (Option.map_eq_none_iff.mp hclash) n hn))
  have hcolumns : ∀ e ∈ m.nested, ∀ k ∈ objectColumn e.id
      :: (if e.relationship == .array then [arrayColumn e.id] else []), k ∈ m.madeColumns :=
    fun e he k hk =>
      List.mem_cons_of_mem _ (List.mem_cons_of_mem _ (List.mem_flatMap.mpr ⟨e, he, hk⟩))
  refine ⟨⟨isTree_of_validate hvalid, hunambiguous,
    fun depth c hc => resolves_of_resolveColumns hresolve hc, ?_, ?_⟩, hstages⟩
  · exact fun n hn e he => hmade n hn _ (hcolumns e he _ List.mem_cons_self)
  · exact fun n hn e he harray => hmade n hn _ (hcolumns e he _ (by simp [harray]))

/-! ## The whole statement -/

/-- The name of each stage is one that the mapping may make. -/
theorem nameIn_stage {m : Mapping} {origin : List String} (hfits : m.Fits resolved origin)
    {n : String} (hn : nameIn n m.stageNames = false) :
    nameIn n (originStage :: ((stagesOf m resolved origin).stages
      ++ [rootStageOf m resolved (stagesOf m resolved origin).current]).map Cte.name) = false := by
  have hnames := nameIn_eq_false.mp hn
  refine nameIn_eq_false.mpr (List.forall_mem_cons.mpr ⟨hnames _ (by simp [Mapping.stageNames]), ?_⟩)
  refine List.forall_mem_map.mpr fun c hc => hnames _ ?_
  rcases List.mem_append.mp hc with hc | hc
  · rcases (stagesOf_ready hfits).named c hc with ⟨d, hd, hmax, heq⟩ | ⟨e, he, harray, heq⟩
    · have hmem : d - 1 ∈ List.range m.maxDepth := List.mem_range.mpr (by omega)
      have hstep : d - 1 + 1 = d := by omega
      have hname := List.mem_map_of_mem (f := fun d => objectStage (d + 1)) hmem
      rw [hstep] at hname
      rw [heq]
      exact List.mem_append_left _ (List.mem_cons_of_mem _ (List.mem_cons_of_mem _ hname))
    · rw [heq]
      exact List.mem_append_right _ (List.mem_map.mpr ⟨e, by simp [he.1, harray], rfl⟩)
  · obtain rfl := List.mem_singleton.mp hc
    exact List.mem_append_left _ (by simp [rootStageOf, stage])

/-- **Stages name only columns that are there.** Where nothing is ambiguous that the refusals leave
open, each stage of the document, and the final select, reads the stage before it; no other stage and
no CTE of the statement has that one's name, and each column that the stage names is exactly one of
those that the one before it gives. -/
theorem Statement.toDocument_stagesLead {s t : Statement} {m : Mapping} {lookup : Option Lookup}
    {origin : OutputColumns} (horigin : outputColumns lookup .empty s = .ok origin)
    (hunambiguous : m.Unambiguous origin.names) (h : s.toDocument m lookup = .ok t) :
    ∃ stages last input given,
      t = ⟨some ⟨s.isRecursive, s.ctes ++ ⟨originStage, [], ⟨none, s.body⟩⟩ :: stages⟩, .select last⟩
        ∧ (∀ c ∈ s.ctes, nameIn c.name (originStage :: stages.map Cte.name) = false)
        ∧ StagesLead originStage origin.names stages input given ∧ last.ReadsOnce input given := by
  unfold toDocument at h
  obtain ⟨⟨⟩, hvalid, h⟩ := ok_of_bind h
  obtain ⟨origin', horigin', h⟩ := ok_of_bind h
  obtain rfl := Except.ok.inj (horigin.symm.trans horigin')
  dsimp only at h
  split at h
  · cases h
  next resolved hresolve =>
  split at h
  · cases h
  next hclash =>
  obtain ⟨hfits, hctes⟩ := Mapping.fits_of_checks hvalid hresolve hclash hunambiguous
  refine ⟨_, documentSelect m, _, _, ?_, fun c hc => nameIn_stage hfits (hctes c hc),
    StagesLead.rootStage hfits, documentSelect_readsOnce m⟩
  rw [← Except.ok.inj h]
  simp [Statement.staged]

/-- Users with their orders, each with its item. -/
def userDocument : Mapping where
  rootName := "users"
  root := ⟨"user", "User", [("id", "id"), ("name", "name")]⟩
  nested := [⟨"order", "Order", "user", "orders", .array, [("no", "order_no")]⟩,
    ⟨"item", "Item", "order", "item", .object, [("sku", "sku")]⟩]
  format := .array

theorem toDocument_stagesLead_users : ∃ s t stages last input given,
    parse "select id, name, order_no, sku from t" = .ok s
      ∧ outputColumns none .empty s = .ok ⟨["id", "name", "order_no", "sku"], true⟩
      ∧ userDocument.Unambiguous ["id", "name", "order_no", "sku"]
      ∧ s.toDocument userDocument none = .ok t
      ∧ stages.map Cte.name
        = ["cte_object_depth_2", "cte_object_depth_1", "cte_array_order", "cte_root_users"]
      ∧ t = ⟨some ⟨s.isRecursive, s.ctes ++ ⟨originStage, [], ⟨none, s.body⟩⟩ :: stages⟩, .select last⟩
      ∧ (∀ c ∈ s.ctes, nameIn c.name (originStage :: stages.map Cte.name) = false)
      ∧ StagesLead originStage ["id", "name", "order_no", "sku"] stages input given
      ∧ last.ReadsOnce input given := by
  obtain ⟨s, hs, h⟩ := exists_ok_of_any
    (show (parse "select id, name, order_no, sku from t").toOption.any (fun s =>
      s.ctes.isEmpty && (outputColumns none .empty s).toOption.any fun origin =>
        decide (origin = ⟨["id", "name", "order_no", "sku"], true⟩)
          && (s.toDocument userDocument none).toOption.any fun t =>
            decide (t.ctes.map Cte.name = ["origin_query", "cte_object_depth_2",
              "cte_object_depth_1", "cte_array_order", "cte_root_users"])) = true
      by decide +kernel)
  obtain ⟨hctes, h⟩ := (Bool.and_eq_true _ _).mp h
  obtain ⟨origin, horigin, h⟩ := exists_ok_of_any h
  obtain ⟨hcolumns, h⟩ := (Bool.and_eq_true _ _).mp h
  obtain rfl := of_decide_eq_true hcolumns
  obtain ⟨t, ht, hnames⟩ := exists_ok_of_any h
  have hunambiguous : userDocument.Unambiguous ["id", "name", "order_no", "sku"] :=
    ⟨by unfold NamesDiffer; decide +kernel, by unfold NamesDiffer; decide +kernel, by decide +kernel⟩
  obtain ⟨stages, last, input, given, heq, hrest⟩ :=
    Statement.toDocument_stagesLead horigin hunambiguous ht
  refine ⟨s, t, stages, last, input, given, hs, horigin, hunambiguous, ht, ?_, heq, hrest⟩
  have hall : (s.ctes ++ ⟨originStage, [], ⟨none, s.body⟩⟩ :: stages).map Cte.name
      = ["origin_query", "cte_object_depth_2", "cte_object_depth_1", "cte_array_order",
        "cte_root_users"] := by
    rw [heq] at hnames
    exact of_decide_eq_true hnames
  rw [List.isEmpty_iff.mp hctes] at hall
  exact (List.cons.inj hall).2

end Sql
