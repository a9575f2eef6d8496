import Mathlib.Data.List.Nodup
import Sql.Document.Mapping

/-!
# The tree of a mapping

In a mapping without faults every entity is one step further from the root than its parent
(`Mapping.depth_eq`), no entity is further than `Mapping.maxDepth` and none of the depths up to it
is empty (`Mapping.exists_mem_depth`), and what is below an entity is further away than the entity
(`Mapping.mem_subtree`).
-/

namespace Sql.Mapping

variable {m : Mapping}

/-- The ids of all entities, the root's first. -/
def ids (m : Mapping) : List String := m.root.id :: m.nested.map NestedEntity.id

/-- The root is reached in at most so many steps from parent to parent. -/
def reachesRoot (m : Mapping) : Nat → String → Bool
  | 0, id => id == m.root.id
  | fuel + 1, id =>
    id == m.root.id ||
      match m.find? id with
      | none => false
      | some e => reachesRoot m fuel e.parentId

/-- What a mapping without faults promises about its entities. -/
structure IsTree (m : Mapping) : Prop where
  ids_nodup : m.ids.Nodup
  reaches : ∀ e ∈ m.nested, m.reachesRoot m.nested.length e.parentId = true

/-! ## What the checks establish -/

theorem validate_eq_ok : m.validate = .ok () ↔ m.fault? = none := by
  unfold validate
  cases m.fault? <;> simp

theorem fault?_eq_none : m.fault? = none ↔
    Text.trimBlank m.rootName ≠ "" ∧ m.root.columns ≠ []
      ∧ entityFault? [m.root.id] m.nested = none ∧ m.parentFault? = none ∧ m.cycleFault? = none
      ∧ m.childFault? m.root.id m.root.columns = none
      ∧ ∀ e ∈ m.nested, m.childFault? e.id e.columns = none := by
  unfold fault?
  by_cases hname : Text.trimBlank m.rootName = ""
  · simp [hname]
  by_cases hcolumns : m.root.columns = []
  · simp [hname, hcolumns]
  · simp [hname, hcolumns, Option.or_eq_none_iff, List.findSome?_eq_none_iff]

/-- Going through the entities finds no fault where each has columns and an id of its own. -/
theorem entityFault?_eq_none {seen : List String} {es : List NestedEntity} :
    entityFault? seen es = none ↔
      (∀ e ∈ es, e.columns ≠ []) ∧ (∀ e ∈ es, e.id ∉ seen) ∧ (es.map NestedEntity.id).Nodup := by
  induction es generalizing seen with
  | nil => simp [entityFault?]
  | cons e es ih =>
    rw [entityFault?]
    simp only [List.contains_iff_mem]
    by_cases hseen : e.id ∈ seen
    · simp [hseen]
    by_cases hcolumns : e.columns = []
    · simp [hseen, hcolumns]
    · rw [if_neg hseen, if_neg (by simpa using hcolumns), ih, List.forall_mem_cons,
        List.forall_mem_cons, List.map_cons, List.nodup_cons]
      -- the ids behind are not the one in front: once said of them, once of the one in front
      have hnew : (∀ x ∈ es, x.id ∉ e.id :: seen) ↔
          e.id ∉ es.map NestedEntity.id ∧ ∀ x ∈ es, x.id ∉ seen := by
        simp only [List.mem_cons, not_or, List.mem_map, not_exists, not_and, forall_and]
      rw [hnew]
      tauto

theorem cycleFault?_eq_none :
    m.cycleFault? = none ↔ ∀ e ∈ m.nested, m.climbs [e.id] e.parentId = true := by
  simp [cycleFault?, List.find?_eq_none]

theorem parentFault?_eq_none :
    m.parentFault? = none ↔ ∀ e ∈ m.nested, e.parentId ∈ m.ids := by
  simp [parentFault?, List.find?_eq_none, ids, or_iff_not_imp_left]

theorem find?_ne_none {id : String} (hid : id ∈ m.ids) (hroot : id ≠ m.root.id) :
    m.find? id ≠ none := by
  intro hnone
  obtain ⟨e, he, rfl⟩ := List.mem_map.mp ((List.mem_cons.mp hid).resolve_left hroot)
  exact List.find?_eq_none.mp hnone e he (beq_self_eq_true e.id)

/-- A chase that ends passes each unseen entity at most once. -/
theorem reachesRoot_of_climbs (hparents : ∀ e ∈ m.nested, e.parentId ∈ m.ids)
    {seen : List String} {id : String} (hid : id ∈ m.ids) (h : m.climbs seen id = true)
    {fuel : Nat} (hfuel : (m.unseen seen).length ≤ fuel) : m.reachesRoot fuel id = true := by
  fun_induction climbs m seen id generalizing fuel with
  | case1 => cases fuel <;> simp [reachesRoot]
  | case2 => simp at h
  | case3 seen id hroot hnew hnone => exact absurd hnone (find?_ne_none hid hroot)
  | case4 seen id hroot hnew e hfound ih =>
    have hless := length_unseen_lt hnew hfound
    cases fuel with
    | zero => omega
    | succ fuel =>
      simp only [reachesRoot, hfound, Bool.or_eq_true]
      exact .inr (ih (hparents e (find?_eq_some hfound).1) h (by omega))

theorem isTree_of_validate (h : m.validate = .ok ()) : m.IsTree := by
  obtain ⟨-, -, hentity, hparent, hcycle, -, -⟩ := fault?_eq_none.mp (validate_eq_ok.mp h)
  obtain ⟨-, hroot, hnodup⟩ := entityFault?_eq_none.mp hentity
  have hparents := parentFault?_eq_none.mp hparent
  constructor
  · apply List.nodup_cons.mpr ⟨?_, hnodup⟩
    intro hmem
    obtain ⟨e, he, hid⟩ := List.mem_map.mp hmem
    exact hroot e he (List.mem_singleton.mpr hid)
  · intro e he
    apply reachesRoot_of_climbs hparents (hparents e he) (cycleFault?_eq_none.mp hcycle e he)
    exact List.length_filter_le _ _

theorem rootName_ne_of_validate (h : m.validate = .ok ()) : m.rootName ≠ "" := by
  obtain ⟨hname, -⟩ := fault?_eq_none.mp (validate_eq_ok.mp h)
  intro hempty
  rw [hempty] at hname
  exact hname (by decide +kernel)

/-! ## Distances -/

theorem find?_of_nodup (hids : m.ids.Nodup) {e : NestedEntity} (he : e ∈ m.nested) :
    m.find? e.id = some e := by
  have hnodup := (List.nodup_cons.mp hids).2
  cases hfound : m.find? e.id with
  | none => exact absurd (beq_self_eq_true e.id) (List.find?_eq_none.mp hfound e he)
  | some x =>
    obtain ⟨hx, hid⟩ := find?_eq_some hfound
    rw [List.inj_on_of_nodup_map hnodup hx he hid]

theorem find?_of_mem (hm : m.IsTree) {e : NestedEntity} (he : e ∈ m.nested) :
    m.find? e.id = some e :=
  find?_of_nodup hm.ids_nodup he

theorem find?_root (hm : m.IsTree) : m.find? m.root.id = none := by
  refine List.find?_eq_none.mpr fun e he heq => ?_
  exact (List.nodup_cons.mp hm.ids_nodup).1 (List.mem_map.mpr ⟨e, he, beq_iff_eq.mp heq⟩)

/-- From an entity that reaches the root in so many steps, more steps lead no further. -/
theorem stepsUp_of_reachesRoot (hm : m.IsTree) {fuel : Nat} {id : String}
    (h : m.reachesRoot fuel id = true) : m.stepsUp (fuel + 1) id = m.stepsUp fuel id := by
  induction fuel generalizing id with
  | zero =>
    obtain rfl : id = m.root.id := beq_iff_eq.mp h
    simp only [stepsUp, find?_root hm]
  | succ fuel ih =>
    rw [stepsUp, stepsUp]
    cases hfound : m.find? id with
    | none => rfl
    | some e =>
      dsimp only
      rw [reachesRoot, hfound, Bool.or_eq_true] at h
      rcases h with h | h
      · rw [beq_iff_eq.mp h, find?_root hm] at hfound
        simp at hfound
      · rw [ih h]

theorem depth_root (hm : m.IsTree) : m.depth m.root.id = 0 := by
  rw [depth, stepsUp, find?_root hm]

/-- **An entity is one step further from the root than its parent.** -/
theorem depth_eq (hm : m.IsTree) {e : NestedEntity} (he : e ∈ m.nested) :
    m.depth e.id = m.depth e.parentId + 1 := by
  rw [depth, stepsUp, find?_of_mem hm he]
  dsimp only
  rw [depth, stepsUp_of_reachesRoot hm (hm.reaches e he), Nat.add_comm]

theorem le_foldl_max {ns : List Nat} {k n : Nat} (h : n ≤ k ∨ n ∈ ns) : n ≤ ns.foldl max k := by
  induction ns generalizing k with
  | nil => simpa using h
  | cons i ns ih =>
    refine ih ?_
    rcases h with h | h
    · exact .inl (Nat.le_trans h (Nat.le_max_left k i))
    · rcases List.mem_cons.mp h with rfl | h
      · exact .inl (Nat.le_max_right k n)
      · exact .inr h

theorem depth_le_maxDepth {e : NestedEntity} (he : e ∈ m.nested) : m.depth e.id ≤ m.maxDepth :=
  le_foldl_max (.inr (List.mem_map_of_mem he))

theorem foldl_max_mem (ns : List Nat) (k : Nat) : ns.foldl max k = k ∨ ns.foldl max k ∈ ns := by
  induction ns generalizing k with
  | nil => exact .inl rfl
  | cons n ns ih =>
    rw [List.foldl_cons]
    rcases ih (max k n) with h | h
    · rcases Nat.le_total k n with hle | hle
      · exact .inr (by rw [h, Nat.max_eq_right hle]; exact List.mem_cons_self)
      · exact .inl (by rw [h, Nat.max_eq_left hle])
    · exact .inr (List.mem_cons_of_mem n h)

/-- An entity below the root has a nested parent, one step nearer to the root. -/
theorem exists_parent {id : String} (h : 0 < m.depth id) : ∃ e ∈ m.nested, e.id = id := by
  rw [depth, stepsUp] at h
  cases hfound : m.find? id with
  | none =>
    rw [hfound] at h
    exact absurd h (Nat.lt_irrefl 0)
  | some e => exact ⟨e, find?_eq_some hfound⟩

/-- **Between the root and the deepest entity no depth is empty.** -/
theorem exists_mem_depth (hm : m.IsTree) {depth : Nat} (hpos : 0 < depth)
    (hle : depth ≤ m.maxDepth) : ∃ e ∈ m.nested, m.depth e.id = depth := by
  -- from the deepest entity up, one depth at a time
  have hup : ∀ k, depth + k = m.maxDepth → ∃ e ∈ m.nested, m.depth e.id = depth := by
    intro k hk
    induction k generalizing depth with
    | zero =>
      rcases foldl_max_mem (m.nested.map fun e => m.depth e.id) 0 with hzero | hmem
      · have : m.maxDepth = 0 := hzero
        omega
      · obtain ⟨e, he, hdepth⟩ := List.mem_map.mp hmem
        exact ⟨e, he, hdepth.trans hk.symm⟩
    | succ k ih =>
      obtain ⟨e, he, hdepth⟩ := @ih (depth + 1) (by omega) (by omega) (by omega)
      have hstep := depth_eq hm he
      obtain ⟨p, hp, hid⟩ := exists_parent (show 0 < m.depth e.parentId by omega)
      exact ⟨p, hp, by rw [hid]; omega⟩
  exact hup (m.maxDepth - depth) (by omega)

/-! ## Children and subtrees -/

theorem mem_children {id : String} {e : NestedEntity} :
    e ∈ m.children id ↔ e ∈ m.nested ∧ e.parentId = id := by
  simp [children]

/-- What holds of the entities on the list and passes on to children holds of all below. -/
theorem descend_induction {P : NestedEntity → Prop}
    (hchildren : ∀ e, P e → ∀ c ∈ m.children e.id, P c) (fuel : Nat) (queue : List NestedEntity)
    (h : ∀ e ∈ queue, P e) : ∀ s ∈ m.descend fuel queue, P s := by
  fun_induction descend m fuel queue with
  | case1 => simp
  | case2 => simp
  | case3 fuel e queue ih =>
    obtain ⟨he, hqueue⟩ := List.forall_mem_cons.mp h
    exact List.forall_mem_cons.mpr
      ⟨he, ih (List.forall_mem_append.mpr ⟨hqueue, hchildren e he⟩)⟩

/-- **What is below an entity is further from the root.** -/
theorem mem_subtree (hm : m.IsTree) {e s : NestedEntity} (he : e ∈ m.nested)
    (hs : s ∈ m.subtree e.id) : s ∈ m.nested ∧ (s = e ∨ m.depth e.id < m.depth s.id) := by
  refine descend_induction (P := fun s => s ∈ m.nested ∧ (s = e ∨ m.depth e.id < m.depth s.id))
    ?_ _ _ ?_ s hs
  · intro x hbelow c hc
    obtain ⟨hx, hdepth⟩ := hbelow
    obtain ⟨hc, hparent⟩ := mem_children.mp hc
    have hstep := depth_eq hm hc
    rw [hparent] at hstep
    refine ⟨hc, .inr ?_⟩
    rcases hdepth with rfl | hdepth <;> omega
  · rw [find?_of_mem hm he]
    simpa using he

end Sql.Mapping
