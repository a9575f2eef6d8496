import Sql.Dialect

/-!
# Document mappings

How flat rows fold into a JSON document: a root entity, and entities nested in it or in one another,
each as one object or as an array of objects. Every entity says which keys of its object come from
which columns. `Mapping.fault?` says what makes a mapping unusable; an entity of a usable mapping
reaches the root by going from parent to parent.
-/

namespace Sql

/-- The keys of an object and the columns that they come from, in order. -/
abbrev ColumnMap := List (String × String)

/-- How an entity stands in its parent. -/
inductive Relationship
  | object | array
deriving DecidableEq, Repr

/-- Whether a document holds all root objects or only the first. -/
inductive ResultFormat
  | array | single
deriving DecidableEq, Repr

/-- The root of a document. -/
structure RootEntity where
  id : String
  name : String
  columns : ColumnMap
deriving DecidableEq, Repr

/-- An entity that stands in its parent under a property. -/
structure NestedEntity where
  id : String
  name : String
  parentId : String
  property : String
  relationship : Relationship
  columns : ColumnMap
deriving DecidableEq, Repr

/-- How rows fold into a document. -/
structure Mapping where
  rootName : String
  root : RootEntity
  nested : List NestedEntity
  format : ResultFormat
deriving DecidableEq, Repr

namespace Mapping

/-! ## The tree of entities -/

/-- The nested entity of that id. -/
def find? (m : Mapping) (id : String) : Option NestedEntity := m.nested.find? fun e => e.id == id

theorem find?_eq_some {m : Mapping} {id : String} {e : NestedEntity} (h : m.find? id = some e) :
    e ∈ m.nested ∧ e.id = id :=
  ⟨List.mem_of_find?_eq_some h,
    beq_iff_eq.mp (List.find?_some (p := fun x : NestedEntity => x.id == id) h)⟩

/-- The entities whose parent has that id, in order. -/
def children (m : Mapping) (id : String) : List NestedEntity :=
  m.nested.filter fun e => e.parentId == id

/-- The number of steps from parent to parent until no nested entity is left, at most so many. -/
def stepsUp (m : Mapping) : Nat → String → Nat
  | 0, _ => 0
  | fuel + 1, id =>
    match m.find? id with
    | none => 0
    | some e => 1 + stepsUp m fuel e.parentId

/-- The distance of an entity from the root. It never exceeds the number of nested entities by more
than one. -/
def depth (m : Mapping) (id : String) : Nat := m.stepsUp (m.nested.length + 1) id

/-- The greatest distance of an entity from the root. -/
def maxDepth (m : Mapping) : Nat := (m.nested.map fun e => m.depth e.id).foldl max 0

/-- The entities on the list and all below them, level by level, at most so many. -/
def descend (m : Mapping) : Nat → List NestedEntity → List NestedEntity
  | 0, _ => []
  | _, [] => []
  | fuel + 1, e :: queue => e :: descend m fuel (queue ++ m.children e.id)

/-- The nested entity of that id and all below it. -/
def subtree (m : Mapping) (id : String) : List NestedEntity :=
  m.descend m.nested.length (m.find? id).toList

/-- The nested entities whose ids were not seen. -/
def unseen (m : Mapping) (seen : List String) : List NestedEntity :=
  m.nested.filter fun e => !seen.contains e.id

/-- Where an entity of an unseen id is found, seeing the id leaves fewer entities unseen. -/
theorem length_unseen_lt {m : Mapping} {seen : List String} {id : String} {e : NestedEntity}
    (hnew : ¬ seen.contains id = true) (hfound : m.find? id = some e) :
    (m.unseen (id :: seen)).length < (m.unseen seen).length := by
  obtain ⟨he, hid⟩ := find?_eq_some hfound
  have hsplit : m.unseen (id :: seen) = (m.unseen seen).filter fun x => x.id != id := by
    simp only [unseen, List.filter_filter, List.contains_cons, Bool.not_or, bne]
  rw [hsplit]
  apply List.length_filter_lt_length_iff_exists.mpr
  refine ⟨e, List.mem_filter.mpr ⟨he, ?_⟩, ?_⟩
  · simpa [hid] using hnew
  · simp [hid]

/-- From parent to parent the root is reached, or an id without an entity. The chase is given up
where it comes to an id that it has seen. -/
def climbs (m : Mapping) (seen : List String) (id : String) : Bool :=
  if id = m.root.id then true
  else if seen.contains id then false
  else
    match _ : m.find? id with
    | none => true
    | some e => climbs m (id :: seen) e.parentId
termination_by (m.unseen seen).length
decreasing_by exact length_unseen_lt ‹_› ‹_›

/-- The columns that the mapping reads, each once, in the order of first mention. -/
def columns (m : Mapping) : List String :=
  distinctNames (m.root.columns.map Prod.snd ++ m.nested.flatMap fun e => e.columns.map Prod.snd)

/-! ## What makes a mapping unusable -/

/-- What makes a mapping unusable. -/
inductive Fault
  | blankRootName
  | noColumns (id : String)
  | duplicateId (id : String)
  | unknownParent (id parent : String)
  | parentCycle (id : String)
  | duplicateProperty (property parent : String)
deriving DecidableEq, Repr

/-- The message of a fault. -/
def Fault.message : Fault → String
  | blankRootName => "rootName must not be empty"
  | noColumns id => "entity '" ++ id ++ "' maps no columns"
  | duplicateId id => "duplicate entity id '" ++ id ++ "'"
  | unknownParent id parent =>
    "entity '" ++ id ++ "' references unknown parent '" ++ parent ++ "'"
  | parentCycle id => "entity '" ++ id ++ "' is part of a parent cycle"
  | duplicateProperty property parent =>
    "property '" ++ property ++ "' is defined twice on entity '" ++ parent ++ "'"

/-- The first entity with the id of one before it, or without columns. -/
def entityFault? (seen : List String) : List NestedEntity → Option Fault
  | [] => none
  | e :: es =>
    if seen.contains e.id then some (.duplicateId e.id)
    else if e.columns.isEmpty then some (.noColumns e.id)
    else entityFault? (e.id :: seen) es

/-- The first entity whose parent does not exist. -/
def parentFault? (m : Mapping) : Option Fault :=
  let ids := m.root.id :: m.nested.map NestedEntity.id
  (m.nested.find? fun e => !ids.contains e.parentId).map fun e => .unknownParent e.id e.parentId

/-- The first entity from which the chase of parents comes to an id twice. -/
def cycleFault? (m : Mapping) : Option Fault :=
  (m.nested.find? fun e => !m.climbs [e.id] e.parentId).map fun e => .parentCycle e.id

/-- The first property that is used twice, given the keys in use. -/
def propertyFault? (parent : String) (used : List String) : List NestedEntity → Option Fault
  | [] => none
  | e :: es =>
    if used.contains e.property then some (.duplicateProperty e.property parent)
    else propertyFault? parent (e.property :: used) es

/-- The first property of an entity's children that is used twice. -/
def childFault? (m : Mapping) (id : String) (columns : ColumnMap) : Option Fault :=
  propertyFault? id (columns.map Prod.fst) (m.children id)

/-- The first fault of a mapping, if it has any. -/
def fault? (m : Mapping) : Option Fault :=
  if Text.trimBlank m.rootName = "" then some .blankRootName
  else if m.root.columns.isEmpty then some (.noColumns m.root.id)
  else
    entityFault? [m.root.id] m.nested
      <|> m.parentFault?
      <|> m.cycleFault?
      <|> m.childFault? m.root.id m.root.columns
      <|> m.nested.findSome? fun e => m.childFault? e.id e.columns

/-- Refuse a mapping with a fault. -/
def validate (m : Mapping) : Except Error Unit :=
  match m.fault? with
  | some f => .error (.mapping f.message)
  | none => .ok ()

/-! ## Mappings as JSON -/

/-- A member that is a string. -/
def stringMember (ms : List (String × Value)) (key : String) : Option String :=
  (Value.lookup key ms).bind Value.string?

/-- The columns of a JSON object of strings. -/
def columnsOfJson : Value → Option ColumnMap
  | .object ms => ms.mapM fun (key, v) => do return (key, ← v.string?)
  | _ => none

/-- The member that holds the columns. -/
def columnsMember (ms : List (String × Value)) : Option ColumnMap :=
  (Value.lookup "columns" ms).bind columnsOfJson

/-- A relationship by its name. -/
def relationshipOfJson (v : Value) : Option Relationship :=
  match v.constant? with
  | some "object" => some .object
  | some "array" => some .array
  | _ => none

/-- A result format by its name. -/
def formatOfJson (v : Value) : Option ResultFormat :=
  match v.constant? with
  | some "array" => some .array
  | some "single" => some .single
  | _ => none

/-- The root of a JSON object. -/
def rootOfJson : Value → Option RootEntity
  | .object ms => do
    let id ← stringMember ms "id"
    let name ← stringMember ms "name"
    let columns ← columnsMember ms
    return { id, name, columns }
  | _ => none

/-- The nested entity of a JSON object. -/
def nestedOfJson : Value → Option NestedEntity
  | .object ms => do
    let id ← stringMember ms "id"
    let name ← stringMember ms "name"
    let parentId ← stringMember ms "parentId"
    let property ← stringMember ms "propertyName"
    let relationship ← (Value.lookup "relationshipType" ms).bind relationshipOfJson
    let columns ← columnsMember ms
    return { id, name, parentId, property, relationship, columns }
  | _ => none

/-- The nested entities of a JSON array. -/
def nestedListOfJson : Value → Option (List NestedEntity)
  | .array vs => vs.mapM nestedOfJson
  | _ => none

/-- The mapping of a JSON object. -/
def ofJson? : Value → Option Mapping
  | .object ms => do
    let rootName ← stringMember ms "rootName"
    let root ← (Value.lookup "rootEntity" ms).bind rootOfJson
    let nested ← Value.memberOr ms "nestedEntities" [] nestedListOfJson
    let format ← Value.memberOr ms "resultFormat" .array formatOfJson
    return { rootName, root, nested, format }
  | _ => none

/-- The mapping of a JSON object, or a refusal. -/
def ofJson (v : Value) : Except Error Mapping :=
  match ofJson? v with
  | some m => .ok m
  | none => .error (.mapping "mapping json")

/-- Columns as a JSON object. -/
def columnsToJson (columns : ColumnMap) : Value :=
  .object (columns.map fun (key, column) => (key, .string column))

/-- The name of a relationship. -/
def relationshipName : Relationship → String
  | .object => "object"
  | .array => "array"

/-- The name of a result format. -/
def formatName : ResultFormat → String
  | .array => "array"
  | .single => "single"

/-- A nested entity as a JSON object. -/
def nestedToJson (e : NestedEntity) : Value :=
  .object
    [("id", .string e.id), ("name", .string e.name), ("parentId", .string e.parentId),
     ("propertyName", .string e.property),
     ("relationshipType", .string (relationshipName e.relationship)),
     ("columns", columnsToJson e.columns)]

/-- The mapping as a JSON object with all members. -/
def toJson (m : Mapping) : Value :=
  .object
    [("rootName", .string m.rootName),
     ("rootEntity", .object
        [("id", .string m.root.id), ("name", .string m.root.name),
         ("columns", columnsToJson m.root.columns)]),
     ("nestedEntities", .array (m.nested.map nestedToJson)),
     ("resultFormat", .string (formatName m.format))]

end Mapping

end Sql
