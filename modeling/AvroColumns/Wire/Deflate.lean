namespace AvroColumns.Deflate

abbrev Reading := StateT (List Bool) Option

def bitsOf (b : UInt8) : List Bool :=
  (List.range 8).map fun i => b.toNat.testBit i

def fail {α : Type} : Reading α := failure

def bit : Reading Bool := do
  match ← get with
  | [] => fail
  | b :: bits =>
    set bits
    return b

def number : (count : Nat) → Reading Nat
  | 0 => return 0
  | count + 1 => do
    let b ← bit
    let n ← number count
    return 2 * n + b.toNat

structure Code where
  counts : List Nat
  symbols : List Nat

namespace Code

/-- The code in which each symbol has a codeword of a given length, or none if that is zero. Shorter
codewords come first, and those of one length in the order of their symbols. -/
def ofLengths (lengths : List Nat) : Code :=
  let marked := lengths.zipIdx
  let ofLength (l : Nat) : List Nat := (marked.filter (·.1 == l)).map (·.2)
  let bySize := (List.range 15).map fun l => ofLength (l + 1)
  ⟨bySize.map List.length, bySize.flatten⟩

/-- Reads a codeword bit by bit. `offset` is its distance from the first one of its length. -/
def symbolFrom : (counts : List Nat) → (offset : Nat) → (symbols : List Nat) → Reading Nat
  | [], _, _ => fail
  | n :: counts, offset, symbols => do
    let b ← bit
    let offset := 2 * offset + b.toNat
    if offset < n then
      match symbols[offset]? with
      | some s => return s
      | none => fail
    else symbolFrom counts (offset - n) (symbols.drop n)

def symbol (c : Code) : Reading Nat :=
  symbolFrom c.counts 0 c.symbols

end Code

def lengths : List (Nat × Nat) :=
  [(3, 0), (4, 0), (5, 0), (6, 0), (7, 0), (8, 0), (9, 0), (10, 0), (11, 1), (13, 1), (15, 1),
    (17, 1), (19, 2), (23, 2), (27, 2), (31, 2), (35, 3), (43, 3), (51, 3), (59, 3), (67, 4),
    (83, 4), (99, 4), (115, 4), (131, 5), (163, 5), (195, 5), (227, 5), (258, 0)]

def distances : List (Nat × Nat) :=
  [(1, 0), (2, 0), (3, 0), (4, 0), (5, 1), (7, 1), (9, 2), (13, 2), (17, 3), (25, 3), (33, 4),
    (49, 4), (65, 5), (97, 5), (129, 6), (193, 6), (257, 7), (385, 7), (513, 8), (769, 8),
    (1025, 9), (1537, 9), (2049, 10), (3073, 10), (4097, 11), (6145, 11), (8193, 12), (12289, 12),
    (16385, 13), (24577, 13)]

def extended (table : List (Nat × Nat)) (symbol : Nat) : Reading Nat := do
  match table[symbol]? with
  | none => fail
  | some (least, extra) => return least + (← number extra)

def repeatBack (distance : Nat) : (length : Nat) → Array UInt8 → Option (Array UInt8)
  | 0, out => some out
  | length + 1, out =>
    if distance ≤ out.size then
      match out[out.size - distance]? with
      | some b => repeatBack distance length (out.push b)
      | none => none
    else none

/-- Expands the symbols of a block up to its end. Each of them takes at least one bit, so the number
of bits bounds how many there are. -/
def symbols (literal distance : Code) : (fuel : Nat) → Array UInt8 → Reading (Array UInt8)
  | 0, _ => fail
  | fuel + 1, out => do
    let s ← literal.symbol
    if s < 256 then symbols literal distance fuel (out.push (UInt8.ofNat s))
    else if s = 256 then return out
    else
      let length ← extended lengths (s - 257)
      let back ← extended distances (← distance.symbol)
      match repeatBack back length out with
      | some out => symbols literal distance fuel out
      | none => fail

def fixedLiteral : Code :=
  .ofLengths (List.replicate 144 8 ++ List.replicate 112 9 ++ List.replicate 24 7
    ++ List.replicate 8 8)

def fixedDistance : Code :=
  .ofLengths (List.replicate 30 5)

def lengthOrder : List Nat :=
  [16, 17, 18, 0, 8, 7, 9, 6, 10, 5, 11, 4, 12, 3, 13, 2, 14, 1, 15]

def codeLengths (c : Code) (count : Nat) : (fuel : Nat) → (done : List Nat) → Reading (List Nat)
  | 0, _ => fail
  | fuel + 1, done => do
    if count = done.length then return done.reverse
    if count < done.length then fail
    let s ← c.symbol
    if s < 16 then codeLengths c count fuel (s :: done)
    else if s = 16 then
      match done with
      | [] => fail
      | l :: _ =>
        let n ← number 2
        codeLengths c count fuel (List.replicate (n + 3) l ++ done)
    else if s = 17 then
      let n ← number 3
      codeLengths c count fuel (List.replicate (n + 3) 0 ++ done)
    else
      let n ← number 7
      codeLengths c count fuel (List.replicate (n + 11) 0 ++ done)

def describedCodes : Reading (Code × Code) := do
  let literals := (← number 5) + 257
  let distances := (← number 5) + 1
  if 30 < distances then fail
  let count := (← number 4) + 4
  let given ← (List.range count).mapM fun _ => number 3
  let ordered := (List.range 19).map fun s =>
    match lengthOrder.findIdx? (· == s) with
    | some i => given.getD i 0
    | none => 0
  let all ← codeLengths (.ofLengths ordered) (literals + distances) (literals + distances + 1) []
  return (.ofLengths (all.take literals), .ofLengths (all.drop literals))

def stored (out : Array UInt8) : Reading (Array UInt8) := do
  modify fun bits => bits.drop (bits.length % 8)
  let length ← number 16
  let complement ← number 16
  if length + complement ≠ 65535 then fail
  let bytes ← (List.range length).mapM fun _ => number 8
  return bytes.foldl (fun out n => out.push (UInt8.ofNat n)) out

def blocks : (fuel : Nat) → Array UInt8 → Reading (Array UInt8)
  | 0, _ => fail
  | fuel + 1, out => do
    let isLast ← bit
    let form ← number 2
    let out ←
      if form = 0 then stored out
      else if form = 1 then symbols fixedLiteral fixedDistance ((← get).length + 1) out
      else if form = 2 then do
        let (literal, distance) ← describedCodes
        symbols literal distance ((← get).length + 1) out
      else fail
    if isLast then return out
    blocks fuel out

def expand? (bytes : List UInt8) : Option (List UInt8) :=
  let bits := bytes.flatMap bitsOf
  ((blocks (bits.length + 1) #[]).run bits).map (·.1.toList)

end AvroColumns.Deflate
