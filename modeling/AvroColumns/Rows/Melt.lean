import AvroColumns.Rows.Input
import AvroColumns.Rows.Writer
import AvroColumns.Step.Worker

namespace AvroColumns

structure Progress where
  cache : Cache
  writer : Writer
  count : Nat

namespace Step

variable (s : Step) (fs : Files)

def decodeInput (w : Worker) (seen cache : Cache) (input : Input.Numbered) :
    Except Input.Fault (List Row) × Cache :=
  let (rows, cache) := s.workRowSince w fs seen cache input.row
  (rows.mapError (.undecoded input.number), cache)

def meltBy (w : Worker) (p : Progress) :
    List (Except Input.Fault Input.Numbered) → Option Input.Fault × Progress
  | [] => (none, p)
  | .error f :: _ => (some f, p)
  | .ok input :: rest =>
    match s.decodeInput fs w p.cache p.cache input with
    | (.error f, cache) => (some f, { p with cache })
    | (.ok rows, cache) => meltBy w ⟨cache, p.writer.writeRows rows, p.count + 1⟩ rest

def meltRows (vars : Variables) (p : Progress) (rows : List (Except Input.Fault Input.Numbered)) :
    Option Input.Fault × Progress :=
  match s.worker with
  | .error cause => (some (.worker cause), p)
  | .ok w => s.meltBy fs (s.bindWorker w vars) p rows

end Step

/-- Decodes the rows of an input and writes them. Gives the number of input rows, and the writer as
it is at the end or at the fault. -/
def melt (fs : Files) (c : Config) (vars : Variables) (input : List UInt8) (w : Writer) :
    Except Input.Fault Nat × Writer :=
  match Step.ofConfig fs c with
  | .error cause => (.error (.step cause), w)
  | .ok s =>
    match s.meltRows fs vars ⟨.empty, w, 0⟩ (Input.rows Json.read? c input) with
    | (some f, p) => (.error f, p.writer)
    | (none, p) => (.ok p.count, p.writer.flush)

namespace Step

def meltValues (s : Step) (b : Option Binding) (d : Document) :
    List Datum → Option Failure × List (List Row)
  | [] => (none, [])
  | v :: vs =>
    match s.decodeValue b [] v d false with
    | .error f => (some f, [])
    | .ok rows =>
      let (failure, more) := meltValues s b d vs
      (failure, rows :: more)

/-- The rows for the values of a container, up to the first failure, and the number of values. A value
that cannot be decoded comes before the place at which the container cannot be read on. -/
def meltContainer (s : Step) (b : Option Binding) (c : Container) :
    (Except Failure Nat) × List Row :=
  let (vs, fault) := c.contents
  let (failure, rows) := s.meltValues b c.document vs
  let result :=
    match failure, fault with
    | some f, _ => .error f
    | none, some f => .error (.payload (.container f))
    | none, none => .ok vs.length
  (result, rows.flatten)

end Step

namespace Container

def ofFile (fs : Files) (name : String) : Except Failure Container :=
  match fs name with
  | .error .isDirectory => .error (.payload (.container .shortHeader))
  | .error fault => .error (.file fault)
  | .ok bytes => (Container.ofBytes bytes).mapError fun f => .payload (.container f)

end Container

end AvroColumns
