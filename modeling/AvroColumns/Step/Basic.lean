import AvroColumns.Config.Basic
import AvroColumns.Plan.Discovery
import AvroColumns.Plan.Expansion
import AvroColumns.Schema.Cache
import AvroColumns.Schema.Loading

namespace AvroColumns

structure Step where
  config : Config
  plan : Plan
  default : Option Document

structure Binding where
  plain : List BoundMember
  group : Option BoundGroup

namespace Step

def loadDefault (fs : Files) (c : Config) : Except Failure (Option Document) :=
  match c.schemaText.filter fun text => !Text.isBlankText text, c.schemaPath with
  | some text, _ => ((Document.ofText text).map some).mapError Failure.schema
  | none, some name => ((Document.ofFile fs name).map some).mapError Failure.schema
  | none, none => .ok none

/-- The columns of a configuration, or those of the default schema if it has none. -/
def columnsFor (c : Config) (default : Option Document) : Except Failure (List Column) :=
  match c.columns, default with
  | [], none => .error (.configuration .noColumns)
  | [], some d => d.discover.mapError Failure.ofUnknown
  | columns, _ => .ok columns

/-- The step for a configuration whose default schema is loaded. Its groups share one container. -/
def assemble (c : Config) (default : Option Document) : Except Failure Step := do
  let columns ← columnsFor c default
  if columns.isEmpty then throw (.configuration .noLeaves)
  let plan ← (Plan.compile columns).mapError Failure.configuration
  if 1 < plan.groups.length then
    throw (.configuration (.manyContainers (plan.groups.map (·.container.raw))))
  return ⟨c, plan, default⟩

def ofConfig (fs : Files) (c : Config) : Except Failure Step := do
  let default ← loadDefault fs c
  if default.isNone ∧ c.schemaColumn.isNone then throw (.configuration .noSchema)
  assemble c default

def forContainer (fs : Files) (c : Config) (own : Document) : Except Failure Step := do
  assemble c (some ((← loadDefault fs c).getD own))

def columns (s : Step) : List Column :=
  s.plan.columns

def width (s : Step) : Nat :=
  s.plan.width

def bind (s : Step) (vars : Variables) : Binding :=
  ⟨s.plan.plain.map fun p => ⟨p.column, p.ordinal, p.path.bind vars⟩,
    s.plan.groups.head?.map (·.bind vars)⟩

/-- What leads the walks through a value. The defaults of the default schema count for values of any
other schema. -/
def guide (s : Step) (d : Document) (isDefault : Bool) : Guide :=
  ⟨d, if isDefault then none else s.default, s.config.tolerateMissing⟩

def put (cells : List (Nat × Option Cell)) (r : Row) : Row :=
  cells.foldl (fun r (i, c) => r.set i c) r

def plainCells (g : Guide) (b : Binding) (v : Datum) : Except Failure (List (Nat × Option Cell)) :=
  b.plain.mapM fun m => do
    let c ← (g.extract v m.path m.column.target).mapError (Failure.column m.column.name)
    return (m.ordinal, c)

def cells (s : Step) (g : Guide) (b : Binding) (v : Datum) : Except Failure (List Row) := do
  let base := put (← plainCells g b v) (List.replicate s.width none)
  match b.group with
  | none => return [base]
  | some group =>
    match ← g.expand group v with
    | .absent => return [base]
    | .rows rows =>
      return rows.map fun r => put ((group.members.map (·.ordinal)).zip r) base

def decodeValue (s : Step) (binding : Option Binding) (passed : Row) (v : Datum) (d : Document)
    (isDefault : Bool) : Except Failure (List Row) :=
  match binding with
  | none =>
    .error (.column ((s.columns.head?.map (·.name)).getD "") (.unresolved "$" .pathsUnbound))
  | some b => (s.cells (s.guide d isDefault) b v).map fun rows => rows.map (passed ++ ·)

end Step

end AvroColumns
