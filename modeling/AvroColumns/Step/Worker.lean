import AvroColumns.Step.Row

/-!
# Workers

A worker is bound to variables again and again, and decodes rows with the paths that it has at the time.
It holds the paths of its plain columns and the engine of its group apart. The workers of a step share
one cache.
-/

namespace AvroColumns

structure Engine where
  group : Group
  bound : Option BoundGroup

namespace Engine

def init (group : Group) : Except Misconfiguration Engine := do
  group.check
  return ⟨group, none⟩

def reset (e : Engine) (vars : Variables) : Engine :=
  { e with bound := some (e.group.bind vars) }

end Engine

structure Worker where
  plain : Option (List BoundMember)
  engine : Option Engine

namespace Step

variable (s : Step)

def worker : Except Failure Worker :=
  match s.plan.groups.head? with
  | none => .ok ⟨none, none⟩
  | some group => ((Engine.init group).mapError Failure.configuration).map fun e => ⟨none, some e⟩

def bindWorker (w : Worker) (vars : Variables) : Worker :=
  ⟨some (s.bind vars).plain, w.engine.map (·.reset vars)⟩

def workValue (w : Worker) (passed : Row) (v : Datum) (d : Document) (isDefault : Bool) :
    Except Failure (List Row) :=
  match w.plain, w.engine with
  | none, _ => s.decodeValue none passed v d isDefault
  | some plain, none => s.decodeValue (some ⟨plain, none⟩) passed v d isDefault
  | some plain, some ⟨_, some group⟩ =>
    s.decodeValue (some ⟨plain, some group⟩) passed v d isDefault
  | some plain, some ⟨group, none⟩ => do
    discard (plainCells (s.guide d isDefault) ⟨plain, none⟩ v)
    throw (.column group.lead (.unresolved group.container.raw .groupUnbound))

def workRowSince (w : Worker) (fs : Files) (seen cache : Cache) (r : Row) :
    Except Failure (List Row) × Cache :=
  s.decodeRowBy (fun v chosen => s.workValue w r v chosen.document chosen.isDefault) fs seen cache r

def workRow (w : Worker) (fs : Files) (cache : Cache) (r : Row) :
    Except Failure (List Row) × Cache :=
  s.workRowSince w fs cache cache r

end Step

inductive Session.Request
  | bind (worker : Nat) (vars : Variables)
  | decode (worker : Nat) (r : Row)
  | clear

/-- The workers of a step with the cache that they share. -/
structure Session where
  cache : Cache
  workers : List Worker

namespace Step

variable (s : Step)

def respond (fs : Files) (σ : Session) : Session.Request → Option (Except Failure (List Row)) × Session
  | .bind i vars => (none, { σ with workers := σ.workers.modify i (s.bindWorker · vars) })
  | .decode i r =>
    match σ.workers[i]? with
    | none => (none, σ)
    | some w =>
      let (rows, cache) := s.workRow w fs σ.cache r
      (some rows, { σ with cache := cache })
  | .clear => (none, { σ with cache := σ.cache.clear })

def responses (fs : Files) (σ : Session) : List Session.Request → List (Option (Except Failure (List Row)))
  | [] => []
  | request :: requests =>
    let (answer, σ) := s.respond fs σ request
    answer :: responses fs σ requests

end Step

end AvroColumns
