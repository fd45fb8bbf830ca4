namespace AvroColumns

def twoTo (n : Nat) : Nat := (@instHPow Nat Nat instPowNat).hPow 2 n

def fiveTo (n : Nat) : Nat := (@instHPow Nat Nat instPowNat).hPow 5 n

def tenTo (n : Nat) : Nat := (@instHPow Nat Nat instPowNat).hPow 10 n

theorem twoTo_pos (n : Nat) : 0 < twoTo n :=
  Nat.pow_pos (by decide)

theorem tenTo_pos (n : Nat) : 0 < tenTo n :=
  Nat.pow_pos (by decide)

theorem twoTo_succ (n : Nat) : twoTo (n + 1) = twoTo n * 2 := rfl

end AvroColumns
