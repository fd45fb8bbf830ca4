import AvroColumns.Json.Basic
import AvroColumns.Proofs.Numeric.Numerals

namespace AvroColumns.Json

variable {cs ds : List Char} {c : Char}

@[simp] theorem itemsChars_cons (j j' : Json) (js : List Json) :
    itemsChars (j :: j' :: js) = chars j ++ ',' :: itemsChars (j' :: js) :=
  rfl

@[simp] theorem membersChars_cons (n : String) (j : Json) (m : String × Json) (ms : List (String × Json)) :
    membersChars ((n, j) :: m :: ms) =
      quoted n ++ ':' :: (chars j ++ ',' :: membersChars (m :: ms)) :=
  rfl

def Printable (cs : List Char) : Prop :=
  ∀ c ∈ cs, 32 ≤ c.toNat

instance (cs : List Char) : Decidable (Printable cs) :=
  List.decidableBAll _ cs

@[simp] theorem printable_nil : Printable [] :=
  nofun

@[simp] theorem printable_cons : Printable (c :: cs) ↔ 32 ≤ c.toNat ∧ Printable cs :=
  List.forall_mem_cons

@[simp] theorem printable_append : Printable (cs ++ ds) ↔ Printable cs ∧ Printable ds :=
  List.forall_mem_append

theorem printable_of_isDigit (h : ∀ c ∈ cs, c.isDigit) : Printable cs := by
  intro c hc
  have := Numeral.digit_bounds (h c hc)
  omega

@[simp] theorem printable_toDigits (k : Nat) : Printable (Nat.toDigits 10 k) :=
  printable_of_isDigit fun _ => Nat.isDigit_of_mem_toDigits (by decide) (by decide)

@[simp] theorem printable_ofInt (i : Int) : Printable (Numeral.ofInt i) := by
  rw [Numeral.ofInt]
  split <;> simp

@[simp] theorem printable_replicate (k : Nat) : Printable (List.replicate k '0') := by
  intro c hc
  rw [List.eq_of_mem_replicate hc]
  decide

theorem printable_positionalChars {integral : List Char} (hi : Printable integral) (hds : Printable ds)
    (k : Int) : Printable (Shortest.positionalChars integral ds k) := by
  rw [Shortest.positionalChars]
  split
  · simp [hds]
  · split
    · simp [hds, hi]
    · have htake : Printable (ds.take k.toNat) := fun c hc => hds c (List.mem_of_mem_take hc)
      have hdrop : Printable (ds.drop k.toNat) := fun c hc => hds c (List.mem_of_mem_drop hc)
      simp [htake, hdrop]

theorem printable_exponentChars {mark : List Char} (hm : Printable mark) (hds : Printable ds) (e : Int) :
    Printable (Shortest.exponentChars mark ds e) := by
  rw [Shortest.exponentChars.eq_def, printable_append]
  constructor
  · split
    · exact hds
    · exact hds
    · simpa using hds
  · split <;> simp [hm]

theorem printable_document (x : Binary64) : Printable (Shortest.document.chars x) := by
  have hnull : Printable "null".toList := by decide
  have hintegral : Printable ['.', '0'] := by decide
  have hmark : Printable ['e', '+'] := by decide
  have hsigned (negative : Bool) {cs : List Char} (h : Printable cs) :
      Printable (if negative then '-' :: cs else cs) := by
    split <;> simp [h]
  rw [Shortest.Layout.chars]
  split
  · exact hnull
  · exact hsigned _ hnull
  · refine hsigned _ ?_
    split
    · exact printable_cons.mpr ⟨by decide, hintegral⟩
    · simp only
      split
      · exact printable_positionalChars hintegral (printable_toDigits _) _
      · exact printable_exponentChars hmark (printable_toDigits _) _

theorem printable_hexDigit {k : Nat} (h : k < 16) : 32 ≤ (Text.hexDigit k).toNat := by
  revert k
  decide

@[simp] theorem printable_charEscape (c : Char) : Printable (charEscape c) := by
  rw [charEscape]
  repeat
    split
    · simp
  split
  next hcontrol =>
    have hhigh := printable_hexDigit (k := c.toNat / 16) (by omega)
    have hlow := printable_hexDigit (k := c.toNat % 16) (by omega)
    simp [hhigh, hlow]
  next hcontrol => simpa using hcontrol

@[simp] theorem printable_quoted (s : String) : Printable (quoted s) := by
  have hcs : Printable (s.toList.flatMap charEscape) := by
    intro c hc
    obtain ⟨d, -, hc⟩ := List.mem_flatMap.mp hc
    exact printable_charEscape d c hc
  simp [quoted, hcs]

@[simp] theorem printable_scalarChars (j : Json) : Printable (scalarChars j) := by
  have hnull : Printable "null".toList := by decide
  cases j with
  | bool b =>
    cases b with
    | true => exact (by decide : Printable "true".toList)
    | false => exact (by decide : Printable "false".toList)
  | int n => exact printable_ofInt n
  | real x =>
    rw [scalarChars]
    split
    · exact printable_document x
    · exact hnull
  | str s => exact printable_quoted s
  | _ => exact hnull

mutual

theorem printable_chars : (j : Json) → Printable (chars j)
  | .arr items => by
    simp [chars, printable_itemsChars items]
  | .obj members => by
    simp [chars, printable_membersChars members]
  | .null => printable_scalarChars .null
  | .bool b => printable_scalarChars (.bool b)
  | .int n => printable_scalarChars (.int n)
  | .real x => printable_scalarChars (.real x)
  | .str s => printable_scalarChars (.str s)

theorem printable_itemsChars : (js : List Json) → Printable (itemsChars js)
  | [] => printable_nil
  | [j] => printable_chars j
  | j :: j' :: js => by
    simp [printable_chars j, printable_itemsChars (j' :: js)]

theorem printable_membersChars : (ms : List (String × Json)) → Printable (membersChars ms)
  | [] => printable_nil
  | [(n, j)] => by
    simp [membersChars, printable_chars j]
  | (n, j) :: m :: ms => by
    simp [printable_chars j, printable_membersChars (m :: ms)]

end

end AvroColumns.Json
