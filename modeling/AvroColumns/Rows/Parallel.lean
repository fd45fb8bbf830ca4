import AvroColumns.Rows.Melt

/-!
# Melting by several workers

The rows of an input are read in batches, and a batch is split into chunks, one for each task. Every task
decodes the rows of its chunk with a worker of its own, and all share one cache. For a row a task takes
two turns: it looks through the cache, and later it loads the schema if it has to and decodes the row, by
when other tasks may have changed the cache. Whose turn it is nothing decides, so a run has the turns as
an argument. A batch is written when all its tasks are over, chunk by chunk, unless one has failed.
-/

namespace AvroColumns

def chunks {α : Type} (size : Nat) (l : List α) : List (List α) :=
  if _h : size = 0 ∨ l = [] then []
  else l.take size :: chunks size (l.drop size)
termination_by l.length
decreasing_by
  have := List.length_pos_iff.2 (fun e => _h (.inr e))
  simp only [List.length_drop]
  omega

inductive Task
  /-- The worker has decoded some rows and is left with others, for the first of which it may have looked
  through the cache already. -/
  | decoding (w : Worker) (seen : Option Cache) (rows : List Row) (rest : List Input.Numbered)
  | ended (outcome : Except Input.Fault (List Row))

def Task.turnsLeft : Task → Nat
  | .decoding _ none _ rest => 2 * rest.length + 2
  | .decoding _ (some _) _ rest => 2 * rest.length + 1
  | .ended _ => 0

namespace Step

variable (s : Step) (fs : Files)

def task (vars : Variables) (inputs : List Input.Numbered) : Task :=
  match s.worker with
  | .error cause => .ended (.error (.worker cause))
  | .ok w => .decoding (s.bindWorker w vars) none [] inputs

def turn (cache : Cache) : Task → Task × Cache
  | .ended outcome => (.ended outcome, cache)
  | .decoding _ _ rows [] => (.ended (.ok rows), cache)
  | .decoding w none rows (input :: rest) => (.decoding w (some cache) rows (input :: rest), cache)
  | .decoding w (some seen) rows (input :: rest) =>
    match s.decodeInput fs w seen cache input with
    | (.error f, cache) => (.ended (.error f), cache)
    | (.ok more, cache) => (.decoding w none (rows ++ more) rest, cache)

theorem turnsLeft_turn_lt {cache : Cache} {w : Worker} {seen : Option Cache} {rows : List Row}
    {rest : List Input.Numbered} :
    (s.turn fs cache (.decoding w seen rows rest)).1.turnsLeft <
      (Task.decoding w seen rows rest).turnsLeft := by
  cases rest with
  | nil => cases seen <;> simp [turn, Task.turnsLeft]
  | cons input rest =>
    cases seen with
    | none => simp [turn, Task.turnsLeft]
    | some seen =>
      simp only [turn]
      split <;> simp only [Task.turnsLeft, List.length_cons] <;> omega

/-- Tasks after some turns, each of them given to the task at a position. -/
def takeTurns (cache : Cache) (tasks : List Task) : List Nat → List Task × Cache
  | [] => (tasks, cache)
  | i :: turns =>
    match tasks[i]? with
    | none => takeTurns cache tasks turns
    | some t =>
      let (t, cache) := s.turn fs cache t
      takeTurns cache (tasks.set i t) turns

def finish (cache : Cache) : Task → Except Input.Fault (List Row) × Cache
  | .ended outcome => (outcome, cache)
  | .decoding w seen rows rest =>
    let turned := s.turn fs cache (.decoding w seen rows rest)
    finish turned.2 turned.1
termination_by t => t.turnsLeft
decreasing_by exact s.turnsLeft_turn_lt fs

def join (cache : Cache) : List Task → List (Except Input.Fault (List Row)) × Cache
  | [] => ([], cache)
  | t :: tasks =>
    let (outcome, cache) := s.finish fs cache t
    let (outcomes, cache) := join cache tasks
    (outcome :: outcomes, cache)

def decodeBatch (vars : Variables) (workers : Nat) (turns : List Nat) (cache : Cache)
    (inputs : List Input.Numbered) : Except Input.Fault (List (List Row)) × Cache :=
  let size := max ((inputs.length + workers - 1) / workers) 1
  let (tasks, cache) := s.takeTurns fs cache ((chunks size inputs).map (s.task vars)) turns
  let (outcomes, cache) := s.join fs cache tasks
  (outcomes.mapM id, cache)

def meltBatch (vars : Variables) (workers : Nat) (turns : List Nat) (p : Progress)
    (batch : List (Except Input.Fault Input.Numbered)) : Option Input.Fault × Progress :=
  match batch.mapM id with
  | .error f => (some f, p)
  | .ok inputs =>
    match s.decodeBatch fs vars workers turns p.cache inputs with
    | (.error f, cache) => (some f, { p with cache })
    | (.ok parts, cache) =>
      (none, ⟨cache, parts.foldl Writer.writeRows p.writer, p.count + inputs.length⟩)

def meltBatches (vars : Variables) (workers : Nat) (turns : Nat → List Nat) (p : Progress) :
    List (List (Except Input.Fault Input.Numbered)) → Option Input.Fault × Progress
  | [] => (none, p)
  | batch :: batches =>
    match s.meltBatch fs vars workers (turns 0) p batch with
    | (some f, p) => (some f, p)
    | (none, p) => meltBatches vars workers (fun i => turns (i + 1)) p batches

def rowsPerWorker : Nat := 1024

def batchSize (workers : Nat) : Nat :=
  workers * rowsPerWorker % twoTo 64

def meltParallel (vars : Variables) (workers : Nat) (turns : Nat → List Nat) (p : Progress)
    (rows : List (Except Input.Fault Input.Numbered)) : Option Input.Fault × Progress :=
  s.meltBatches fs vars workers turns p (chunks (batchSize workers) rows)

end Step

end AvroColumns
