import AvroColumns.Text.Hexadecimal

namespace AvroColumns

structure Uuid where
  bytes : List UInt8
  deriving DecidableEq, Repr

namespace Uuid

def ofHex? : List Char → Option (List UInt8)
  | [] => some []
  | a :: b :: cs => do
    let n := (← Text.hexValue? a) * 16 + (← Text.hexValue? b)
    return UInt8.ofNat n :: (← ofHex? cs)
  | _ => none

def ofGroups? (cs : List Char) : Option Uuid :=
  let isHyphen (i : Nat) : Bool := i == 8 || i == 13 || i == 18 || i == 23
  let marked := cs.zipIdx
  if cs.length = 36 ∧ marked.all (fun (c, i) => !isHyphen i || c == '-') then
    (ofHex? ((marked.filter (fun (_, i) => !isHyphen i)).map (·.1))).map Uuid.mk
  else none

def ofChars? (cs : List Char) : Option Uuid :=
  if cs.length = 32 then (ofHex? cs).map Uuid.mk
  else if cs.length = 38 ∧ cs.head? = some '\x7b' ∧ cs.getLast? = some '\x7d' then
    ofGroups? (cs.drop 1).dropLast
  else if cs.length = 45 ∧ cs.take 9 = "urn:uuid:".toList then ofGroups? (cs.drop 9)
  else ofGroups? cs

def hexChars (bytes : List UInt8) : List Char :=
  bytes.flatMap fun b =>
    [Text.hexDigit (b.toNat / 16), Text.hexDigit (b.toNat % 16)]

def text (u : Uuid) : String :=
  let h := hexChars u.bytes
  String.ofList (h.take 8 ++ '-' :: (h.drop 8).take 4 ++ '-' :: (h.drop 12).take 4
    ++ '-' :: (h.drop 16).take 4 ++ '-' :: h.drop 20)

end Uuid

end AvroColumns
