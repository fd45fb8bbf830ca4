import AvroColumns.Column.Basic
import AvroColumns.Failure.Misconfiguration

namespace AvroColumns

structure Placed where
  column : Column
  ordinal : Nat
  path : Path

structure Group where
  container : Path
  members : List Placed

structure Plan where
  columns : List Column
  plain : List Placed
  groups : List Group

/-- Where a column has its place: among the plain ones, or in the group of a container. -/
inductive Placement
  | plain (p : Placed)
  | grouped (container : Path) (p : Placed)

namespace Path

def beforeWildcard : List Char → List Char
  | '[' :: '*' :: ']' :: _ => []
  | c :: cs => c :: beforeWildcard cs
  | [] => []

def container (p : Path) (wildcard : Nat) : Path :=
  ⟨String.ofList (beforeWildcard p.raw.toList), p.root, p.segments.take wildcard⟩

def behind (p : Path) (wildcard : Nat) : Path :=
  let segments := p.segments.drop (wildcard + 1)
  let root :=
    match segments with
    | [] | .member _ :: _ => Root.record
    | _ => .container
  ⟨String.ofList ('$' :: rendered segments), root, segments⟩

end Path

namespace Plan

def place (ordinal : Nat) (c : Column) : Except Misconfiguration Placement := do
  if Text.isBlankText c.path then throw (.noPath c.name)
  let path ← (Path.compile c.path).mapError Misconfiguration.path
  let count := path.segments.countP Segment.isWildcard
  if 1 < count then throw (.manyWildcards c.name count c.path)
  match path.wildcard? with
  | none => return .plain ⟨c, ordinal, path⟩
  | some i => return .grouped (path.container i) ⟨c, ordinal, path.behind i⟩

def addMember (container : Path) (p : Placed) : List Group → List Group
  | [] => [⟨container, [p]⟩]
  | g :: gs =>
    if g.container.segments = container.segments then ⟨g.container, g.members ++ [p]⟩ :: gs
    else g :: addMember container p gs

def groupsOf (ps : List Placement) : List Group :=
  ps.foldl (fun gs p =>
    match p with
    | .plain _ => gs
    | .grouped container p => addMember container p gs) []

def plainOf (ps : List Placement) : List Placed :=
  ps.filterMap fun
    | .plain p => some p
    | .grouped .. => none

def compile (columns : List Column) : Except Misconfiguration Plan := do
  let ps ← columns.zipIdx.mapM fun (c, i) => place i c
  return ⟨columns, plainOf ps, groupsOf ps⟩

def width (p : Plan) : Nat :=
  p.columns.length

end Plan

end AvroColumns
