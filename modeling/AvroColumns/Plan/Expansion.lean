import AvroColumns.Column.Extraction
import AvroColumns.Failure.Basic
import AvroColumns.Plan.Basic

namespace AvroColumns

structure BoundMember where
  column : Column
  ordinal : Nat
  path : BoundPath

structure BoundGroup where
  container : BoundPath
  members : List BoundMember

/-- What a group gives for a value: nothing where its container is missing, else a row of cells for
each entry. -/
inductive Expansion
  | absent
  | rows (rows : List Row)

namespace Group

def check (g : Group) : Except Misconfiguration Unit :=
  if g.members.isEmpty then .error (.emptyGroup g.container.raw) else .ok ()

def bind (g : Group) (vars : Variables) : BoundGroup :=
  ⟨g.container.bind vars, g.members.map fun m => ⟨m.column, m.ordinal, m.path.bind vars⟩⟩

def lead (g : Group) : String :=
  (g.members.head?.map (·.column.name)).getD ""

end Group

namespace BoundGroup

def lead (g : BoundGroup) : String :=
  (g.members.head?.map (·.column.name)).getD ""

end BoundGroup

namespace Guide

variable (g : Guide)

def entries? (n : Node) (v : Datum) : Option (Schema × List Datum) :=
  match n, v with
  | .map values, .map entries => some (values, entries.map (·.2))
  | .array items, .array vs => some (items, vs)
  | _, _ => none

def entryRow (p : Position) (members : List BoundMember) : Except Failure Row :=
  members.mapM fun m =>
    (g.extractFrom p m.path.segments m.column.target).mapError (Failure.column m.column.name)

def expandAt (group : BoundGroup) (p : Position) : Except Failure Expansion := do
  let n ← (g.node p.schema).mapError (Failure.column group.lead)
  match entries? n p.value with
  | none =>
    throw (.column group.lead (.incompatible Segment.wildcard.text (.notExpandable n.label)))
  | some (schema, vs) =>
    let fallback := g.entryFallback p.fallback
    return .rows (← vs.mapM fun v => g.entryRow ⟨v, schema, fallback⟩ group.members)

def expand (group : BoundGroup) (v : Datum) : Except Failure Expansion := do
  match ← (g.walk group.container.segments (g.start v)).mapError (Failure.column group.lead) with
  | .reached p => g.expandAt group p
  | .absent | .defaulted .. => return .absent

end Guide

end AvroColumns
