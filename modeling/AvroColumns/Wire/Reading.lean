import AvroColumns.Wire.Fault

namespace AvroColumns.Wire

abbrev Reading := StateT (List UInt8) (Except Fault)

namespace Reading

def fail {α : Type} (f : Fault) : Reading α := throw f

def take? (count : Nat) : Reading (Option (List UInt8)) := do
  let bytes ← get
  let front := bytes.take count
  set (bytes.drop count)
  return if front.length = count then some front else none

def take (count : Nat) (short : Fault) : Reading (List UInt8) := do
  match ← take? count with
  | some front => return front
  | none => fail short

/-- The natural number that groups of seven bits stand for, of which `done` have been read. There
are at most ten groups, and bits beyond the sixty-fourth are dropped. -/
def groups (done : Nat) : List UInt8 → Except Fault (Nat × List UInt8)
  | [] => .error (if 9 < done then .numeralTooLong else .numeralEnds)
  | b :: bytes =>
    if 9 < done then .error .numeralTooLong
    else
      let part := b.toNat % 128 * twoTo (7 * done) % twoTo 64
      if b < 128 then .ok (part, bytes)
      else (groups (done + 1) bytes).map fun (n, rest) => (n + part, rest)

def unfold (n : Nat) : Int :=
  if n % 2 = 0 then (n / 2 : Nat) else -((n / 2 : Nat) : Int) - 1

def long : Reading Int := do
  let (n, rest) ← groups 0 (← get)
  set rest
  return unfold n

def int : Reading Int := do
  let n ← long
  if fitsInt32 n then return n
  fail (.notInt32 n)

def checkLength (n : Int) : Reading Nat := do
  if n < 0 then fail (.negativeLength n)
  if largestLength < n then fail (.tooLong n)
  return n.toNat

def length : Reading Nat := do
  checkLength (← long)

/-- The number of items in the next block. A negative one is followed by the size of the block. -/
def blockCount : Reading Nat := do
  let n ← long
  if n < 0 then
    let _ ← long
    if -n = 9223372036854775808 then fail .numeralTooLong
    checkLength (-n)
  else checkLength n

def timesAfter {α : Type} (item : Reading α) (done : List α) : Nat → Reading (List α)
  | 0 => return done.reverse
  | n + 1 => do
    let a ← item
    timesAfter item (a :: done) n

def times {α : Type} (item : Reading α) (count : Nat) : Reading (List α) :=
  timesAfter item [] count

theorem timesAfter_eq {α : Type} (item : Reading α) (done : List α) (count : Nat) :
    timesAfter item done count = (done.reverse ++ ·) <$> times item count := by
  induction count generalizing done with
  | zero => simp [times, timesAfter]
  | succ count ih =>
    simp only [times, timesAfter, map_bind]
    congr 1
    funext a
    rw [ih (a :: done), ih [a]]
    simp [Functor.map_map]

@[simp] theorem times_zero {α : Type} (item : Reading α) : times item 0 = pure [] := rfl

@[simp] theorem times_succ {α : Type} (item : Reading α) (count : Nat) :
    times item (count + 1) = item >>= fun a => (a :: ·) <$> times item count := by
  simp only [times, timesAfter]
  congr 1
  funext a
  rw [timesAfter_eq item [a]]
  simp [times]

/-- Blocks of things up to an empty block. Every block takes at least one byte, so the number of
bytes bounds how many there are. -/
def blocksFrom {α : Type} (item : Reading α) : (fuel : Nat) → Reading (List α)
  | 0 => fail .endless
  | fuel + 1 => do
    let count ← blockCount
    if count = 0 then return []
    let front ← times item count
    return front ++ (← blocksFrom item fuel)

def blocks {α : Type} (item : Reading α) : Reading (List α) := do
  blocksFrom item ((← get).length + 1)

def littleEndian (bytes : List UInt8) : Nat :=
  bytes.foldr (fun b n => b.toNat + 256 * n) 0

end Reading

end AvroColumns.Wire
