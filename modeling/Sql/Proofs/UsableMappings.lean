import Mathlib.Data.List.DropRight
import Mathlib.Data.List.Perm.Subperm
import Mathlib.Data.List.TakeWhile
import Mathlib.Logic.Relation
import Sql.Proofs.MappingTree

/-!
# Usable mappings

* `Mapping.IsUsable` says what is asked of a mapping, without the checks: among other things that
  finitely many steps from parent to parent lead from each entity to the root. The checks refuse
  exactly the mappings that are not usable (`Mapping.isUsable_of_validate`,
  `Mapping.validate_of_isUsable`), although the chase of parents knows nothing but the ids that it
  has seen.
* `Mapping.Walks` is the walk from an entity to those below it, with no bound on its length. From an
  entity of a usable mapping it ends, and lists what has the entity among its ancestors once each
  (`Mapping.walks_subtree`, `Mapping.mem_subtree_iff`).
-/

namespace Sql.Mapping

open Relation (ReflTransGen TransGen)

variable {m : Mapping}

/-! ## Steps from parent to parent -/

/-- The first id is that of an entity whose parent has the second. -/
def StepUp (m : Mapping) (child parent : String) : Prop :=
  ∃ e ∈ m.nested, e.id = child ∧ e.parentId = parent

theorem stepUp_of_mem {e : NestedEntity} (he : e ∈ m.nested) : m.StepUp e.id e.parentId :=
  ⟨e, he, rfl, rfl⟩

theorem eq_parentId_of_stepUp (hids : m.ids.Nodup) {e : NestedEntity} {parent : String}
    (he : e ∈ m.nested) (h : m.StepUp e.id parent) : parent = e.parentId := by
  obtain ⟨x, hx, hid, rfl⟩ := h
  rw [List.inj_on_of_nodup_map (List.nodup_cons.mp hids).2 hx he hid]

theorem not_stepUp_root (hids : m.ids.Nodup) (parent : String) : ¬ m.StepUp m.root.id parent := by
  rintro ⟨e, he, hid, -⟩
  exact (List.nodup_cons.mp hids).1 (List.mem_map.mpr ⟨e, he, hid⟩)

theorem stepUp_unique (hids : m.ids.Nodup) {id a b : String} (ha : m.StepUp id a)
    (hb : m.StepUp id b) : a = b := by
  obtain ⟨e, he, rfl, rfl⟩ := ha
  exact (eq_parentId_of_stepUp hids he hb).symm

/-- What reaches the root is not on a cycle: there is one way up, and no way on from the root. -/
theorem not_transGen_self (hids : m.ids.Nodup) {id : String}
    (h : ReflTransGen m.StepUp id m.root.id) : ¬ TransGen m.StepUp id id := by
  induction h using ReflTransGen.head_induction_on with
  | refl =>
    intro hcycle
    obtain ⟨parent, hstep, -⟩ := TransGen.head'_iff.mp hcycle
    exact not_stepUp_root hids parent hstep
  | @head id parent hstep _ ih =>
    intro hcycle
    obtain ⟨next, hnext, hback⟩ := TransGen.head'_iff.mp hcycle
    obtain rfl := stepUp_unique hids hstep hnext
    -- the cycle through the id is one through its parent
    exact ih (TransGen.tail' hback hstep)

/-! ## The chase of parents is exact -/

theorem reaches_of_climbs (hparents : ∀ e ∈ m.nested, e.parentId ∈ m.ids) {seen : List String}
    {id : String} (hid : id ∈ m.ids) (h : m.climbs seen id = true) :
    ReflTransGen m.StepUp id m.root.id := by
  fun_induction climbs m seen id with
  | case1 => exact .refl
  | case2 => cases h
  | case3 seen id hroot hnew hnone => exact absurd hnone (find?_ne_none hid hroot)
  | case4 seen id hroot hnew e hfound ih =>
    obtain ⟨he, rfl⟩ := find?_eq_some hfound
    exact .head (stepUp_of_mem he) (ih (hparents e he) h)

/-- Where the root is reached, the chase meets no id that it has seen: what was seen is below the id
that the chase is at, so such an id would be on a cycle. -/
theorem climbs_of_reaches (hids : m.ids.Nodup) {seen : List String} {id : String}
    (h : ReflTransGen m.StepUp id m.root.id) (hseen : ∀ s ∈ seen, TransGen m.StepUp s id) :
    m.climbs seen id = true := by
  fun_induction climbs m seen id with
  | case1 => rfl
  | case2 seen id hroot hold =>
    exact absurd (hseen id (List.contains_iff_mem.mp hold)) (not_transGen_self hids h)
  | case3 => rfl
  | case4 seen id hroot hnew e hfound ih =>
    obtain ⟨he, rfl⟩ := find?_eq_some hfound
    apply ih
    · obtain heq | ⟨parent, hstep, hrest⟩ := ReflTransGen.cases_head h
      · exact absurd heq hroot
      · rwa [eq_parentId_of_stepUp hids he hstep] at hrest
    · refine List.forall_mem_cons.mpr ⟨.single (stepUp_of_mem he), fun s hs => ?_⟩
      exact (hseen s hs).tail (stepUp_of_mem he)

/-! ## The other checks are exact -/

theorem trimBlank_eq_empty {s : String} :
    Text.trimBlank s = "" ↔ ∀ c ∈ s.toList, Text.isBlank c = true := by
  show String.ofList ((s.toList.dropWhile Text.isBlank).rdropWhile Text.isBlank) = "" ↔ _
  rw [String.ofList_eq_empty_iff, List.rdropWhile_eq_nil_iff]
  constructor
  · intro h c hc
    rw [← List.takeWhile_append_dropWhile (p := Text.isBlank) (l := s.toList)] at hc
    rcases List.mem_append.mp hc with hc | hc
    · exact List.mem_takeWhile_imp hc
    · exact h c hc
  · exact fun h c hc => h c ((List.dropWhile_sublist _).subset hc)

theorem propertyFault?_eq_none {parent : String} {used : List String} {es : List NestedEntity} :
    propertyFault? parent used es = none ↔
      (∀ e ∈ es, e.property ∉ used) ∧ (es.map NestedEntity.property).Nodup := by
  induction es generalizing used with
  | nil => simp [propertyFault?]
  | cons e es ih =>
    rw [propertyFault?]
    simp only [List.contains_iff_mem]
    by_cases hused : e.property ∈ used
    · simp [hused]
    · rw [if_neg hused, ih, List.forall_mem_cons, List.map_cons, List.nodup_cons]
      have hnew : (∀ x ∈ es, x.property ∉ e.property :: used) ↔
          e.property ∉ es.map NestedEntity.property ∧ ∀ x ∈ es, x.property ∉ used := by
        simp only [List.mem_cons, not_or, List.mem_map, not_exists, not_and, forall_and]
      rw [hnew]
      tauto

/-- The children of an entity stand under properties of their own, and under none of its keys. -/
structure FitsChildren (m : Mapping) (id : String) (columns : ColumnMap) : Prop where
  distinct : ((m.children id).map NestedEntity.property).Nodup
  no_key : ∀ c ∈ m.children id, c.property ∉ columns.map Prod.fst

theorem childFault?_eq_none {id : String} {columns : ColumnMap} :
    m.childFault? id columns = none ↔ m.FitsChildren id columns := by
  rw [childFault?, propertyFault?_eq_none]
  exact ⟨fun h => ⟨h.2, h.1⟩, fun h => ⟨h.no_key, h.distinct⟩⟩

/-- What is asked of a mapping. -/
structure IsUsable (m : Mapping) : Prop where
  root_name : ∃ c ∈ m.rootName.toList, Text.isBlank c = false
  root_columns : m.root.columns ≠ []
  columns : ∀ e ∈ m.nested, e.columns ≠ []
  ids_distinct : m.ids.Nodup
  reaches_root : ∀ e ∈ m.nested, ReflTransGen m.StepUp e.id m.root.id
  root_children : m.FitsChildren m.root.id m.root.columns
  children : ∀ e ∈ m.nested, m.FitsChildren e.id e.columns

namespace IsUsable

theorem parent_reaches_root (h : m.IsUsable) {e : NestedEntity} (he : e ∈ m.nested) :
    ReflTransGen m.StepUp e.parentId m.root.id := by
  obtain heq | ⟨parent, hstep, hrest⟩ := ReflTransGen.cases_head (h.reaches_root e he)
  · exact absurd (heq ▸ stepUp_of_mem he) (not_stepUp_root h.ids_distinct e.parentId)
  · rwa [eq_parentId_of_stepUp h.ids_distinct he hstep] at hrest

theorem parentId_mem_ids (h : m.IsUsable) : ∀ e ∈ m.nested, e.parentId ∈ m.ids := by
  intro e he
  obtain heq | ⟨_, ⟨x, hx, hid, -⟩, -⟩ := ReflTransGen.cases_head (h.parent_reaches_root he)
  · exact heq ▸ List.mem_cons_self
  · exact List.mem_cons_of_mem _ (List.mem_map.mpr ⟨x, hx, hid⟩)

end IsUsable

theorem isUsable_of_validate (h : m.validate = .ok ()) : m.IsUsable := by
  have hids := (isTree_of_validate h).ids_nodup
  obtain ⟨hname, hroot, hentity, hparent, hcycle, hrootChildren, hchildren⟩ :=
    fault?_eq_none.mp (validate_eq_ok.mp h)
  have hparents := parentFault?_eq_none.mp hparent
  exact {
    root_name := by simpa [trimBlank_eq_empty] using hname
    root_columns := hroot
    columns := (entityFault?_eq_none.mp hentity).1
    ids_distinct := hids
    reaches_root := fun e he => .head (stepUp_of_mem he)
      (reaches_of_climbs hparents (hparents e he) (cycleFault?_eq_none.mp hcycle e he))
    root_children := childFault?_eq_none.mp hrootChildren
    children := fun e he => childFault?_eq_none.mp (hchildren e he) }

theorem validate_of_isUsable (h : m.IsUsable) : m.validate = .ok () := by
  obtain ⟨hroot, hnodup⟩ := List.nodup_cons.mp h.ids_distinct
  refine validate_eq_ok.mpr (fault?_eq_none.mpr ⟨?_, h.root_columns, ?_, ?_, ?_, ?_, ?_⟩)
  · intro hblank
    obtain ⟨c, hc, hshown⟩ := h.root_name
    rw [trimBlank_eq_empty.mp hblank c hc] at hshown
    cases hshown
  · refine entityFault?_eq_none.mpr ⟨h.columns, fun e he hmem => ?_, hnodup⟩
    exact hroot (List.mem_map.mpr ⟨e, he, List.mem_singleton.mp hmem⟩)
  · exact parentFault?_eq_none.mpr h.parentId_mem_ids
  · apply cycleFault?_eq_none.mpr
    intro e he
    apply climbs_of_reaches h.ids_distinct (h.parent_reaches_root he)
    exact List.forall_mem_singleton.mpr (.single (stepUp_of_mem he))
  · exact childFault?_eq_none.mpr h.root_children
  · exact fun e he => childFault?_eq_none.mpr (h.children e he)

/-! ## The walk to what is below an entity -/

/-- The walk through a queue, where each entity's children are put behind: what it lists until the
queue is empty. -/
inductive Walks (m : Mapping) : List NestedEntity → List NestedEntity → Prop
  | done : Walks m [] []
  | next {e : NestedEntity} {queue listed : List NestedEntity} :
      Walks m (queue ++ m.children e.id) listed → Walks m (e :: queue) (e :: listed)

/-- What is in the queue is listed, and the children of what is listed. -/
theorem Walks.closed {queue listed : List NestedEntity} (h : m.Walks queue listed) :
    (∀ e ∈ queue, e ∈ listed) ∧ ∀ e ∈ listed, ∀ c ∈ m.children e.id, c ∈ listed := by
  induction h with
  | done => exact ⟨fun _ he => he, by simp⟩
  | @next e queue listed _ ih =>
    obtain ⟨hqueue, hchildren⟩ := ih
    obtain ⟨hqueue, hfirst⟩ := List.forall_mem_append.mp hqueue
    constructor
    · exact List.forall_mem_cons.mpr
        ⟨List.mem_cons_self, fun x hx => List.mem_cons_of_mem e (hqueue x hx)⟩
    · refine List.forall_mem_cons.mpr ⟨fun c hc => List.mem_cons_of_mem e (hfirst c hc), ?_⟩
      exact fun x hx c hc => List.mem_cons_of_mem e (hchildren x hx c hc)

/-- What a walk from an entity has listed and has in its queue: entities that are not nearer to the
root than the start, each once, and each with a parent that is listed, the start apart. -/
structure Frontier (m : Mapping) (start : NestedEntity) (listed queue : List NestedEntity) :
    Prop where
  nodup : (listed ++ queue).Nodup
  nested : ∀ e ∈ listed ++ queue, e ∈ m.nested
  below : ∀ e ∈ listed ++ queue, m.depth start.id ≤ m.depth e.id
  parent_listed : ∀ e ∈ listed ++ queue, e = start ∨ ∃ p ∈ listed, p.id = e.parentId

namespace Frontier

variable {start : NestedEntity} {listed queue : List NestedEntity}

theorem of_start (h : start ∈ m.nested) : m.Frontier start [] [start] where
  nodup := List.nodup_singleton start
  nested := List.forall_mem_singleton.mpr h
  below := List.forall_mem_singleton.mpr (Nat.le_refl _)
  parent_listed := List.forall_mem_singleton.mpr (.inl rfl)

/-- A child of what is next in the queue was not met yet: its parent is not listed. -/
theorem child_new (hm : m.IsTree) {e c : NestedEntity} (h : m.Frontier start listed (e :: queue))
    (hc : c ∈ m.children e.id) : c ∉ listed ++ e :: queue := by
  intro hmet
  obtain ⟨hnested, hparent⟩ := mem_children.mp hc
  have hmem : e ∈ listed ++ e :: queue := List.mem_append_right listed List.mem_cons_self
  rcases h.parent_listed c hmet with rfl | ⟨p, hp, hid⟩
  · have hstep := depth_eq hm hnested
    rw [hparent] at hstep
    have := h.below e hmem
    omega
  · have hpmem : p ∈ listed ++ e :: queue := List.mem_append_left (e :: queue) hp
    obtain rfl : p = e := List.inj_on_of_nodup_map (List.nodup_cons.mp hm.ids_nodup).2
      (h.nested p hpmem) (h.nested e hmem) (hid.trans hparent)
    exact (List.disjoint_of_nodup_append h.nodup) hp List.mem_cons_self

theorem next (hm : m.IsTree) {e : NestedEntity} (h : m.Frontier start listed (e :: queue)) :
    m.Frontier start (listed ++ [e]) (queue ++ m.children e.id) := by
  have hsame : (listed ++ [e]) ++ (queue ++ m.children e.id)
      = (listed ++ e :: queue) ++ m.children e.id := by simp
  have hmem : e ∈ listed ++ e :: queue := List.mem_append_right listed List.mem_cons_self
  have hnodup : (m.children e.id).Nodup :=
    (List.Nodup.of_map _ (List.nodup_cons.mp hm.ids_nodup).2).filter _
  constructor <;> rw [hsame]
  · refine List.nodup_append'.mpr ⟨h.nodup, hnodup, fun x hx hchild => ?_⟩
    exact h.child_new hm hchild hx
  · exact List.forall_mem_append.mpr ⟨h.nested, fun c hc => (mem_children.mp hc).1⟩
  · refine List.forall_mem_append.mpr ⟨h.below, fun c hc => ?_⟩
    obtain ⟨hnested, hparent⟩ := mem_children.mp hc
    have hstep := depth_eq hm hnested
    have := h.below e hmem
    rw [hparent] at hstep
    omega
  · refine List.forall_mem_append.mpr ⟨fun x hx => ?_, fun c hc => .inr ⟨e, ?_, ?_⟩⟩
    · rcases h.parent_listed x hx with hstart | ⟨p, hp, hid⟩
      · exact .inl hstart
      · exact .inr ⟨p, List.mem_append_left [e] hp, hid⟩
    · exact List.mem_append_right listed (List.mem_singleton_self e)
    · exact (mem_children.mp hc).2.symm

/-- As many steps as there are entities that are not listed are enough, and list none twice. -/
theorem walks_descend (hm : m.IsTree) {fuel : Nat} (h : m.Frontier start listed queue)
    (hfuel : m.nested.length ≤ listed.length + fuel) :
    m.Walks queue (m.descend fuel queue) ∧ (listed ++ m.descend fuel queue).Nodup := by
  fun_induction descend m fuel queue generalizing listed with
  | case1 queue =>
    have hle : (listed ++ queue).length ≤ m.nested.length :=
      (List.subperm_of_subset h.nodup h.nested).length_le
    rw [List.length_append] at hle
    obtain rfl : queue = [] := List.eq_nil_of_length_eq_zero (by omega)
    exact ⟨.done, h.nodup⟩
  | case2 => exact ⟨.done, h.nodup⟩
  | case3 fuel e queue ih =>
    obtain ⟨hwalks, hnodup⟩ := ih (h.next hm) (by rw [List.length_append]; simp; omega)
    exact ⟨.next hwalks, by simpa using hnodup⟩

end Frontier

theorem walks_subtree (hm : m.IsTree) {e : NestedEntity} (he : e ∈ m.nested) :
    m.Walks (m.find? e.id).toList (m.subtree e.id) ∧ (m.subtree e.id).Nodup := by
  rw [subtree, find?_of_mem hm he]
  exact (Frontier.of_start he).walks_descend hm (Nat.le_add_left _ _)

/-- What is listed is the entity, and what has it among its ancestors. -/
theorem mem_subtree_iff (hm : m.IsTree) {e x : NestedEntity} (he : e ∈ m.nested) :
    x ∈ m.subtree e.id ↔ x = e ∨ x ∈ m.nested ∧ TransGen m.StepUp x.id e.id := by
  have hstart := find?_of_mem hm he
  constructor
  · -- what passes from parents to children holds of all below
    refine descend_induction (P := fun x => x = e ∨ x ∈ m.nested ∧ TransGen m.StepUp x.id e.id)
      ?_ _ _ ?_ x
    · intro p hp c hc
      obtain ⟨hnested, hparent⟩ := mem_children.mp hc
      have hstep := stepUp_of_mem hnested
      rw [hparent] at hstep
      rcases hp with rfl | ⟨-, habove⟩
      · exact .inr ⟨hnested, .single hstep⟩
      · exact .inr ⟨hnested, .head hstep habove⟩
    · rw [hstart]
      exact List.forall_mem_singleton.mpr (.inl rfl)
  · obtain ⟨hqueue, hchildren⟩ := (walks_subtree hm he).1.closed
    have hself : e ∈ m.subtree e.id := hqueue e (by rw [hstart]; exact List.mem_singleton_self e)
    have hlisted : ∀ {id}, TransGen m.StepUp x.id id → x ∈ m.nested →
        ∀ p ∈ m.subtree e.id, p.id = id → x ∈ m.subtree e.id := by
      intro id habove hx
      induction habove with
      | single hstep =>
        intro p hp hid
        obtain rfl := eq_parentId_of_stepUp hm.ids_nodup hx hstep
        exact hchildren p hp x (mem_children.mpr ⟨hx, hid.symm⟩)
      | tail _ hstep ih =>
        rintro p hp rfl
        obtain ⟨c, hc, hid, hparent⟩ := hstep
        exact ih c (hchildren p hp c (mem_children.mpr ⟨hc, hparent⟩)) hid
    rintro (rfl | ⟨hx, habove⟩)
    · exact hself
    · exact hlisted habove hx e hself rfl

/-! ## Validated mappings -/

/-- **A mapping passes the checks exactly when it is usable.** The distances in it are then those of
a tree without an empty level, and the walk from any entity ends with the entity and what has it
among its ancestors, each once. -/
theorem validate_exact_and_walks_sound (m : Mapping) :
    (m.validate = .ok () ↔ m.IsUsable) ∧
    (m.validate = .ok () →
      (∀ e ∈ m.nested, e.parentId = m.root.id → m.depth e.id = 1)
        ∧ (∀ e ∈ m.nested, e.parentId ≠ m.root.id →
            ∃ p ∈ m.nested, p.id = e.parentId ∧ m.depth e.id = m.depth p.id + 1)
        ∧ (∀ depth, (∃ e ∈ m.nested, m.depth e.id = depth) ↔ 1 ≤ depth ∧ depth ≤ m.maxDepth)
        ∧ ∀ e ∈ m.nested,
            m.Walks (m.find? e.id).toList (m.subtree e.id) ∧ (m.subtree e.id).Nodup
              ∧ ∀ x, x ∈ m.subtree e.id ↔
                  x = e ∨ x ∈ m.nested ∧ TransGen m.StepUp x.id e.id) := by
  refine ⟨⟨isUsable_of_validate, validate_of_isUsable⟩, fun h => ?_⟩
  have hm := isTree_of_validate h
  have husable := isUsable_of_validate h
  refine ⟨?_, ?_, ?_, ?_⟩
  · intro e he hparent
    rw [depth_eq hm he, hparent, depth_root hm]
  · intro e he hparent
    have hmem := (List.mem_cons.mp (husable.parentId_mem_ids e he)).resolve_left hparent
    obtain ⟨p, hp, hid⟩ := List.mem_map.mp hmem
    exact ⟨p, hp, hid, by rw [hid, depth_eq hm he]⟩
  · intro depth
    constructor
    · rintro ⟨e, he, rfl⟩
      exact ⟨by rw [depth_eq hm he]; omega, depth_le_maxDepth he⟩
    · exact fun ⟨hpos, hle⟩ => exists_mem_depth hm hpos hle
  · intro e he
    obtain ⟨hwalks, hnodup⟩ := walks_subtree hm he
    exact ⟨hwalks, hnodup, fun x => mem_subtree_iff hm he⟩

/-- Orders with their customer and their lines, and the product of each line. -/
def orders : Mapping where
  rootName := "orders"
  root := { id := "order", name := "Order", columns := [("id", "order_id")] }
  nested :=
    [{ id := "product", name := "Product", parentId := "line", property := "product",
       relationship := .object, columns := [("sku", "product_sku")] },
     { id := "customer", name := "Customer", parentId := "order", property := "customer",
       relationship := .object, columns := [("name", "customer_name")] },
     { id := "line", name := "Line", parentId := "order", property := "lines",
       relationship := .array, columns := [("quantity", "line_quantity")] }]
  format := .array

theorem orders_validate : orders.validate = .ok () :=
  validate_eq_ok.mpr (by decide +kernel)

theorem orders_walks :
    orders.IsUsable
      ∧ (∀ depth, (∃ e ∈ orders.nested, orders.depth e.id = depth) ↔
          1 ≤ depth ∧ depth ≤ orders.maxDepth)
      ∧ (orders.subtree "line").map NestedEntity.id = ["line", "product"] := by
  obtain ⟨hexact, hwalks⟩ := validate_exact_and_walks_sound orders
  exact ⟨hexact.mp orders_validate, (hwalks orders_validate).2.2.1, by decide⟩

end Sql.Mapping
