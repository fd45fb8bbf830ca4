namespace AvroColumns.Utf8

inductive Front
  | char (c : Char) (rest : List UInt8)
  | illFormed (rest : List UInt8)
  deriving Repr

def lead (b : UInt8) : Option (Nat × UInt8 × UInt8) :=
  if 0xC2 ≤ b && b ≤ 0xDF then some (1, 0x80, 0xBF)
  else if b == 0xE0 then some (2, 0xA0, 0xBF)
  else if b == 0xED then some (2, 0x80, 0x9F)
  else if 0xE1 ≤ b && b ≤ 0xEF then some (2, 0x80, 0xBF)
  else if b == 0xF0 then some (3, 0x90, 0xBF)
  else if 0xF1 ≤ b && b ≤ 0xF3 then some (3, 0x80, 0xBF)
  else if b == 0xF4 then some (3, 0x80, 0x8F)
  else none

def leadBits (count : Nat) (b : UInt8) : Nat :=
  match count with
  | 1 => b.toNat % 32
  | 2 => b.toNat % 16
  | _ => b.toNat % 8

def takeTail : (count : Nat) → (low high : UInt8) → (code : Nat) → List UInt8 → Front
  | 0, _, _, code, rest => .char (Char.ofNat code) rest
  | _ + 1, _, _, _, [] => .illFormed []
  | count + 1, low, high, code, b :: rest =>
    if low ≤ b && b ≤ high then
      takeTail count 0x80 0xBF (code * 64 + b.toNat % 64) rest
    else .illFormed (b :: rest)

def take (b : UInt8) (rest : List UInt8) : Front :=
  if b < 0x80 then .char (Char.ofNat b.toNat) rest
  else
    match lead b with
    | some (count, low, high) => takeTail count low high (leadBits count b) rest
    | none => .illFormed rest

def Front.rest : Front → List UInt8
  | .char _ rest => rest
  | .illFormed rest => rest

theorem length_rest_takeTail (count : Nat) (low high : UInt8) (code : Nat) (bs : List UInt8) :
    (takeTail count low high code bs).rest.length ≤ bs.length := by
  induction count generalizing low high code bs with
  | zero => simp [takeTail, Front.rest]
  | succ n ih =>
    cases bs with
    | nil => simp [takeTail, Front.rest]
    | cons b bs =>
      simp only [takeTail]
      split
      · exact Nat.le_trans (ih _ _ _ _) (by simp)
      · simp [Front.rest]

theorem length_rest_take (b : UInt8) (bs : List UInt8) : (take b bs).rest.length ≤ bs.length := by
  unfold take
  split
  · simp [Front.rest]
  · split
    · exact length_rest_takeTail _ _ _ _ _
    · simp [Front.rest]

def decodeChars? (bs : List UInt8) : Option (List Char) :=
  match bs with
  | [] => some []
  | b :: rest =>
    match _h : take b rest with
    | .char c tail => (decodeChars? tail).map (c :: ·)
    | .illFormed _ => none
termination_by bs.length
decreasing_by
  have := length_rest_take b rest
  simp only [_h, Front.rest] at this
  simp only [List.length_cons]; omega

def decode? (bs : List UInt8) : Option String :=
  (decodeChars? bs).map String.ofList

def decodeLossyChars (bs : List UInt8) : List Char :=
  match bs with
  | [] => []
  | b :: rest =>
    match _h : take b rest with
    | .char c tail => c :: decodeLossyChars tail
    | .illFormed tail => '\uFFFD' :: decodeLossyChars tail
termination_by bs.length
decreasing_by
  all_goals
    have := length_rest_take b rest
    simp only [_h, Front.rest] at this
    simp only [List.length_cons]; omega

def decodeLossy (bs : List UInt8) : String :=
  String.ofList (decodeLossyChars bs)

def encode (s : String) : List UInt8 :=
  s.toUTF8.data.toList

def takeBytes (limit : Nat) : List Char → List Char
  | [] => []
  | c :: cs => if c.utf8Size ≤ limit then c :: takeBytes (limit - c.utf8Size) cs else []

end AvroColumns.Utf8
