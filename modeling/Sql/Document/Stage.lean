import Sql.Document.Mapping
import Sql.Scope.Columns

/-!
# Folding rows into a document

A statement is turned into one that gives JSON, by stages that are CTEs of its WITH clause, each
reading the one before it:

1. `origin_query` is the statement's own body, after its own CTEs;
2. for each depth from the deepest up, an object stage adds one object column for every entity of
   that depth; then, for every entity of that depth that stands in its parent as an array, an array
   stage groups by all columns outside the entity's subtree and collects the objects;
3. the root stage makes one object of each row;
4. the final select collects the root objects, or takes the first.

All refusals come before the first stage is made.
-/

namespace Sql

/-! ## Names of stages and columns -/

/-- The stage of the statement's own body. -/
def originStage : String := "origin_query"

/-- The object stage of a depth. -/
def objectStage (depth : Nat) : String := "cte_object_depth_" ++ toString depth

/-- The array stage of an entity. -/
def arrayStage (id : String) : String := "cte_array_" ++ id

/-- The root stage. -/
def rootStage (root : String) : String := "cte_root_" ++ root

/-- The column of an entity's object. -/
def objectColumn (id : String) : String := id ++ "_json"

/-- The column of an entity's objects. -/
def arrayColumn (id : String) : String := id ++ "_array"

/-- A column of the origin for a mapped column name. -/
abbrev ResolvedColumns := List (String × String)

/-- The origin's column for a mapped name, or the name itself. -/
def resolvedName (resolved : ResolvedColumns) (mapped : String) : String :=
  match resolved.find? fun r => sameName r.1 mapped with
  | some r => r.2
  | none => mapped

/-! ## Expressions -/

/-- The objects, or an empty array when there are none. -/
def orEmptyArray (e : Expr) : Expr :=
  .apply "coalesce" [e, .cast (.string "[]") "jsonb" true]

/-- The column of an entity as a member of its parent. -/
def NestedEntity.memberColumn (e : NestedEntity) : String :=
  match e.relationship with
  | .object => objectColumn e.id
  | .array => arrayColumn e.id

/-- The object of an entity: its own keys, then its children. -/
def buildObject (resolved : ResolvedColumns) (columns : ColumnMap) (children : List NestedEntity) :
    Expr :=
  .apply "jsonb_build_object"
    (columns.flatMap (fun (key, column) => [.string key, .name (resolvedName resolved column)])
      ++ children.flatMap fun c => [.string c.property, .name c.memberColumn])

/-- Every one of the columns is null. -/
def allNull? (resolved : ResolvedColumns) : List String → Option Expr
  | [] => none
  | c :: cs =>
    let isNull (c : String) : Expr := .isNull (.name (resolvedName resolved c)) false
    some (cs.foldl (fun e c => .and e (isNull c)) (isNull c))

/-- The object of a nested entity, or null when all its columns are null. -/
def guardedObject (resolved : ResolvedColumns) (e : NestedEntity) (children : List NestedEntity) :
    Expr :=
  let object := buildObject resolved e.columns children
  match allNull? resolved (e.columns.map Prod.snd) with
  | some isNull => .case none [⟨isNull, .null⟩] (some object)
  | none => object

/-! ## Stages -/

/-- A stage that selects items from the stage before it. -/
def stage (name : String) (items : List SelectItem) (input : String) (groupBy : List Expr) : Cte :=
  ⟨name, [], .ofSelect { Select.simple items (some (.table [] input none)) with groupBy }⟩

/-- The object stage of the entities of one depth. -/
def objectStageOf (m : Mapping) (resolved : ResolvedColumns) (depth : Nat)
    (level : List NestedEntity) (input : String) : Cte :=
  let objects := level.map fun e =>
    (⟨guardedObject resolved e (m.children e.id), some (objectColumn e.id)⟩ : SelectItem)
  stage (objectStage depth) (.bare (.star none) :: objects) input []

/-- The columns that an array stage drops: the objects and arrays of the subtree, and the mapped
columns that no entity outside it uses. -/
def subtreeColumns (m : Mapping) (resolved : ResolvedColumns) (e : NestedEntity) : List String :=
  let subtree := m.subtree e.id
  let outside := m.nested.filter fun o => !subtree.any fun s => s.id == o.id
  let used := m.root.columns.map Prod.snd ++ outside.flatMap fun o => o.columns.map Prod.snd
  subtree.flatMap fun s =>
    ((s.columns.map Prod.snd).filter fun c => !nameIn c used).map (resolvedName resolved)
      ++ [objectColumn s.id, arrayColumn s.id]

/-- The objects of an entity that are there, as one array. -/
def collectedObjects (e : NestedEntity) : Expr :=
  let object : Expr := .name (objectColumn e.id)
  orEmptyArray (.call "jsonb_agg" [object] false (some (.isNull object true)) none)

/-- The array stage of an entity, which keeps the given columns. -/
def arrayStageOf (e : NestedEntity) (keep : List String) (input : String) : Cte :=
  stage (arrayStage e.id)
    (keep.map (fun c => .bare (.name c)) ++ [⟨collectedObjects e, some (arrayColumn e.id)⟩])
    input (keep.map .name)

/-- The stages made so far, the name of the last and its columns. -/
structure Staging where
  stages : List Cte
  current : String
  columns : List String

/-- Add the object stage of a depth. -/
def Staging.addObjects (m : Mapping) (resolved : ResolvedColumns) (depth : Nat)
    (level : List NestedEntity) (s : Staging) : Staging where
  stages := s.stages ++ [objectStageOf m resolved depth level s.current]
  current := objectStage depth
  columns := s.columns ++ level.map fun e => objectColumn e.id

/-- Add the array stage of an entity. -/
def Staging.addArray (m : Mapping) (resolved : ResolvedColumns) (s : Staging) (e : NestedEntity) :
    Staging :=
  let keep := s.columns.filter fun c => !nameIn c (subtreeColumns m resolved e)
  { stages := s.stages ++ [arrayStageOf e keep s.current]
    current := arrayStage e.id
    columns := keep ++ [arrayColumn e.id] }

/-- Add the stages of a depth, if it has entities. -/
def Staging.addLevel (m : Mapping) (resolved : ResolvedColumns) (s : Staging) (depth : Nat) :
    Staging :=
  let level := m.nested.filter fun e => m.depth e.id == depth
  if level.isEmpty then s
  else
    (level.filter fun e => e.relationship == .array).foldl (Staging.addArray m resolved)
      (s.addObjects m resolved depth level)

/-- The depths of a mapping from the deepest up. -/
def Mapping.depths (m : Mapping) : List Nat := (List.range m.maxDepth).reverse.map (· + 1)

/-- The object and array stages over the origin's columns. -/
def stagesOf (m : Mapping) (resolved : ResolvedColumns) (columns : List String) : Staging :=
  m.depths.foldl (Staging.addLevel m resolved) ⟨[], originStage, columns⟩

/-- The root stage. -/
def rootStageOf (m : Mapping) (resolved : ResolvedColumns) (input : String) : Cte :=
  stage (rootStage m.rootName)
    [⟨buildObject resolved m.root.columns (m.children m.root.id), some m.rootName⟩] input []

/-- The final select. -/
def documentSelect (m : Mapping) : Select :=
  let input : Source := .table [] (rootStage m.rootName) none
  match m.format with
  | .array =>
    let objects := orEmptyArray (.apply "jsonb_agg" [.name m.rootName])
    .simple [⟨objects, some (arrayColumn m.rootName)⟩] (some input)
  | .single =>
    { Select.simple [.bare (.name m.rootName)] (some input) with
      limit := some (.literal (.number "1")) }

/-! ## Refusals -/

/-- Why a statement does not go with a mapping. -/
inductive StagingFault
  | repeatedColumn (name : String)
  | missingColumns (names : List String)
  | stageNameTaken (name : String)
  | columnNameTaken (name : String)
deriving DecidableEq, Repr

/-- The refusal of a statement. -/
def StagingFault.toError : StagingFault → Error
  | repeatedColumn name =>
    .mapping ("column '" ++ name ++ "' appears more than once in " ++ originStage
      ++ "; alias it in the query")
  | missingColumns names => .unresolvedColumns names originStage
  | stageNameTaken name =>
    .mapping ("existing CTE '" ++ name ++ "' collides with a generated stage name")
  | columnNameTaken name =>
    .mapping ("origin column '" ++ name ++ "' collides with a generated JSON column")

/-- The origin's columns for the mapped names. A name must be that of exactly one column. -/
def resolveColumns (origin mapped : List String) : Except StagingFault ResolvedColumns :=
  let hits (name : String) := origin.filter fun n => sameName n name
  match mapped.find? fun name => (hits name).length > 1 with
  | some name => .error (.repeatedColumn name)
  | none =>
    let missing := mapped.filter fun name => (hits name).isEmpty
    if missing.isEmpty then
      .ok (mapped.filterMap fun name => (hits name).head?.map fun hit => (name, hit))
    else .error (.missingColumns missing)

/-- The names of all stages that a mapping may make. -/
def Mapping.stageNames (m : Mapping) : List String :=
  originStage :: rootStage m.rootName
    :: (List.range m.maxDepth).map (fun d => objectStage (d + 1))
    ++ (m.nested.filter fun e => e.relationship == .array).map fun e => arrayStage e.id

/-- The names of all columns that a mapping may make. -/
def Mapping.madeColumns (m : Mapping) : List String :=
  m.rootName :: arrayColumn m.rootName
    :: m.nested.flatMap fun e =>
      objectColumn e.id :: (if e.relationship == .array then [arrayColumn e.id] else [])

/-- A name of the statement that a stage or a column of the mapping would take. -/
def nameClash? (m : Mapping) (s : Statement) (origin : List String) : Option StagingFault :=
  match s.ctes.find? fun c => nameIn c.name m.stageNames with
  | some c => some (.stageNameTaken c.name)
  | none => (origin.find? fun n => nameIn n m.madeColumns).map .columnNameTaken

/-! ## The whole statement -/

/-- The stages of a statement over the resolved columns. -/
def Statement.staged (s : Statement) (m : Mapping) (resolved : ResolvedColumns)
    (origin : List String) : Statement :=
  let staging := stagesOf m resolved origin
  let ctes := s.ctes ++ ⟨originStage, [], ⟨none, s.body⟩⟩ :: staging.stages
    ++ [rootStageOf m resolved staging.current]
  ⟨some ⟨s.isRecursive, ctes⟩, .select (documentSelect m)⟩

/-- Turn a statement into one that gives the document of a mapping. -/
def Statement.toDocument (s : Statement) (m : Mapping) (lookup : Option Lookup) :
    Except Error Statement := do
  m.validate
  let origin := (← outputColumns lookup .empty s).names
  match resolveColumns origin m.columns with
  | .error f => throw f.toError
  | .ok resolved =>
    match nameClash? m s origin with
    | some f => throw f.toError
    | none => return s.staged m resolved origin

end Sql
