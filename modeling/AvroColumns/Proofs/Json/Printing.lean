import Mathlib.Data.List.TakeWhile
import AvroColumns.Json.Reader
import AvroColumns.Proofs.Json.Characters

/-!
# Printed arrays are read back

A scalar that stands in a printed array is read back from there, whatever quotes, backslashes and control
characters its text holds, and so the whole array is. A real number is, if it is read back on its own.
-/

namespace AvroColumns.Json

variable {cs ds rest left : List Char} {c d : Char} {n : Numerals}

theorem hexValue?_hexDigit {k : Nat} (h : k < 16) : Text.hexValue? (Text.hexDigit k) = some k := by
  revert k
  decide

theorem hex4?_control {k : Nat} (h : k < 32) :
    Reader.hex4? '0' '0' (Text.hexDigit (k / 16)) (Text.hexDigit (k % 16)) = some k := by
  rw [Reader.hex4?, hexValue?_hexDigit (by omega), hexValue?_hexDigit (by omega),
    show Text.hexValue? '0' = some 0 by decide]
  simp only [Option.bind_eq_bind, Option.bind_some, Option.pure_def, Option.some.injEq]
  omega

theorem string_escape (isLax : Bool) (done : List Char) (h : Reader.escape? d = some c) :
    Reader.string isLax done ('\\' :: d :: rest) = Reader.string isLax (c :: done) rest := by
  have hmark : d ≠ 'u' := by
    rintro rfl
    cases h
  rw [Reader.string, h]
  intro _ _ _ _ _ h
  exact absurd h hmark

theorem string_plain (isLax : Bool) (done : List Char) (hquote : c ≠ '"') (hbackslash : c ≠ '\\')
    (hc : ¬ c.toNat < 32) :
    Reader.string isLax done (c :: rest) = Reader.string isLax (c :: done) rest := by
  rw [Reader.string]
  · exact if_neg (not_or.mpr ⟨hc, hbackslash⟩)
  · exact hquote
  · intro _ _ _ _ _ h
    exact absurd h hbackslash
  · intro _ _ h
    exact absurd h hbackslash

@[simp] theorem string_charEscape (isLax : Bool) (done : List Char) :
    Reader.string isLax done (charEscape c ++ rest) = Reader.string isLax (c :: done) rest := by
  rw [charEscape]
  split_ifs with hquote hbackslash hnewline hreturn htab hback hfeed hcontrol
  · exact string_escape isLax done (by rw [hquote]; rfl)
  · exact string_escape isLax done (by rw [hbackslash]; rfl)
  · exact string_escape isLax done (by rw [hnewline]; rfl)
  · exact string_escape isLax done (by rw [hreturn]; rfl)
  · exact string_escape isLax done (by rw [htab]; rfl)
  · exact string_escape isLax done (by rw [hback]; rfl)
  · exact string_escape isLax done (by rw [hfeed]; rfl)
  · have hfirst : ¬ (0xD800 ≤ c.toNat ∧ c.toNat ≤ 0xDBFF) := by omega
    have hsecond : ¬ (0xDC00 ≤ c.toNat ∧ c.toNat ≤ 0xDFFF) := by omega
    simp only [List.cons_append, List.nil_append, Reader.string, hex4?_control hcontrol, if_neg hfirst,
      if_neg hsecond, Char.ofNat_toNat]
  · exact string_plain isLax done hquote hbackslash hcontrol

@[simp] theorem string_flatMap_charEscape (isLax : Bool) (done cs : List Char) :
    Reader.string isLax done (cs.flatMap charEscape ++ '"' :: rest) =
      some (String.ofList (done.reverse ++ cs), rest) := by
  induction cs generalizing done with
  | nil => simp [Reader.string]
  | cons c cs ih => simp [ih]

def IsMark (c : Char) : Prop :=
  c = ',' ∨ c = ']'

@[simp] theorem IsMark.not_isDigit (hd : IsMark d) : d.isDigit = false := by
  rcases hd with rfl | rfl <;> decide

@[simp] theorem takeWhile_append_cons {p : Char → Bool} (hd : p d = false) :
    (cs ++ d :: rest).takeWhile p = cs.takeWhile p := by
  induction cs with
  | nil => simp [hd]
  | cons c cs ih => simp [List.takeWhile_cons, ih]

@[simp] theorem dropWhile_append_cons {p : Char → Bool} (hd : p d = false) :
    (cs ++ d :: rest).dropWhile p = cs.dropWhile p ++ d :: rest := by
  induction cs with
  | nil => simp [hd]
  | cons c cs ih =>
    rw [List.cons_append, List.dropWhile_cons, List.dropWhile_cons, ih]
    split <;> rfl

namespace Numerals

@[simp] theorem takeSign_append (hd : IsMark d) :
    takeSign (cs ++ d :: rest) = ((takeSign cs).1, (takeSign cs).2 ++ d :: rest) := by
  cases cs with
  | nil => rcases hd with rfl | rfl <;> rfl
  | cons c cs =>
    by_cases hc : c = '-'
    · subst hc
      rfl
    · simp [takeSign, hc]

theorem takeWhole_append (hd : IsMark d) (h : takeWhole cs = some (ds, left)) :
    takeWhole (cs ++ d :: rest) = some (ds, left ++ d :: rest) := by
  rw [takeWhole, Option.ite_none_left_eq_some] at h
  obtain ⟨hwhole, h⟩ := h
  cases h
  rw [takeWhole, takeWhile_append_cons hd.not_isDigit, dropWhile_append_cons hd.not_isDigit, if_neg hwhole]

theorem takeFraction_append (hd : IsMark d) {f : Option (List Char)}
    (h : takeFraction cs = some (f, left)) :
    takeFraction (cs ++ d :: rest) = some (f, left ++ d :: rest) := by
  have hpoint : d ≠ '.' := by rcases hd with rfl | rfl <;> decide
  unfold takeFraction at h
  split at h
  next cs =>
    rw [Option.ite_none_left_eq_some] at h
    obtain ⟨hds, h⟩ := h
    cases h
    rw [List.cons_append, takeFraction, takeWhile_append_cons hd.not_isDigit,
      dropWhile_append_cons hd.not_isDigit, if_neg hds]
  next hcs =>
    cases h
    rw [takeFraction]
    intro after hafter
    rcases List.append_eq_cons_iff.mp hafter with ⟨-, h⟩ | ⟨ds, rfl, -⟩
    · exact hpoint (List.cons.inj h).1
    · exact hcs ds rfl

@[simp] theorem takeExponentSign_append (hd : IsMark d) :
    takeExponentSign (cs ++ d :: rest) =
      ((takeExponentSign cs).1, (takeExponentSign cs).2 ++ d :: rest) := by
  cases cs with
  | nil => rcases hd with rfl | rfl <;> rfl
  | cons c cs =>
    by_cases hminus : c = '-'
    · subst hminus
      rfl
    · by_cases hplus : c = '+'
      · subst hplus
        rfl
      · simp [takeExponentSign, hminus, hplus]

theorem takeExponent_append (hd : IsMark d) {e : Option Int} (h : takeExponent cs = some (e, left)) :
    takeExponent (cs ++ d :: rest) = some (e, left ++ d :: rest) := by
  have hmark : ¬ (d = 'e' ∨ d = 'E') := by rcases hd with rfl | rfl <;> decide
  cases cs with
  | nil =>
    cases h
    exact if_neg hmark
  | cons c cs =>
    rw [takeExponent] at h
    rw [List.cons_append, takeExponent]
    split at h
    · rename_i hc
      rw [Option.ite_none_left_eq_some] at h
      obtain ⟨hds, h⟩ := h
      cases h
      rw [if_pos hc, takeExponentSign_append hd]
      simp only
      rw [takeWhile_append_cons hd.not_isDigit, dropWhile_append_cons hd.not_isDigit, if_neg hds]
    · rename_i hc
      cases h
      exact if_neg hc

theorem take_append (hd : IsMark d) (h : take cs = some (n, left)) :
    take (cs ++ d :: rest) = some (n, left ++ d :: rest) := by
  simp only [take, Option.bind_eq_bind, Option.pure_def] at h
  obtain ⟨⟨ds, behind⟩, hwhole, h⟩ := Option.bind_eq_some_iff.mp h
  obtain ⟨⟨f, behind'⟩, hfraction, h⟩ := Option.bind_eq_some_iff.mp h
  obtain ⟨⟨e, left⟩, hexponent, h⟩ := Option.bind_eq_some_iff.mp h
  cases h
  simp only [take, takeSign_append hd, takeWhole_append hd hwhole, takeFraction_append hd hfraction,
    takeExponent_append hd hexponent, Option.bind_eq_bind, Option.bind_some, Option.pure_def]

theorem isDigit_of_mem_toDigits {k : Nat} (hc : c ∈ Nat.toDigits 10 k) : c.isDigit :=
  Nat.isDigit_of_mem_toDigits (by decide) (by decide) hc

@[simp] theorem takeWhole_toDigits (k : Nat) :
    takeWhole (Nat.toDigits 10 k) = some (Nat.toDigits 10 k, []) := by
  have hfilled := (Numeral.toDigits_value_eq_iff (Numeral.isDigits_toDigits k)).mp
    (by rw [Numeral.value_toDigits])
  rw [takeWhole, List.takeWhile_eq_self_iff.mpr fun _ => isDigit_of_mem_toDigits,
    List.dropWhile_eq_nil_iff.mpr fun _ => isDigit_of_mem_toDigits, if_neg]
  rintro (hnil | ⟨hlength, hzero⟩)
  · exact Nat.toDigits_ne_nil hnil
  · obtain ⟨ds, hds⟩ := List.head?_eq_some_iff.mp hzero
    refine hfilled ⟨ds, ?_, hds⟩
    rintro rfl
    rw [hds] at hlength
    exact absurd hlength (by decide)

@[simp] theorem takeSign_toDigits (k : Nat) :
    takeSign (Nat.toDigits 10 k) = (false, Nat.toDigits 10 k) := by
  rw [takeSign]
  intro cs hcs
  have hminus : '-' ∈ Nat.toDigits 10 k := hcs ▸ List.mem_cons_self
  exact absurd (isDigit_of_mem_toDigits hminus) (by decide)

@[simp] theorem take_ofInt (i : Int) :
    take (Numeral.ofInt i) = some (⟨decide (i < 0), Nat.toDigits 10 i.natAbs, none, none⟩, []) := by
  have hsign : takeSign (Numeral.ofInt i) = (decide (i < 0), Nat.toDigits 10 i.natAbs) := by
    rw [Numeral.ofInt]
    split
    · rename_i hi
      rw [takeSign, decide_eq_true hi]
    · rename_i hi
      rw [takeSign_toDigits, decide_eq_false hi]
  simp only [take, hsign, takeWhole_toDigits, takeFraction, takeExponent, Option.bind_eq_bind,
    Option.bind_some, Option.pure_def]

theorem staged_ofInt {i : Int} (hlow : -(twoTo 63 : Int) ≤ i) (hhigh : i < twoTo 64) :
    staged ⟨decide (i < 0), Nat.toDigits 10 i.natAbs, none, none⟩ = some (.int i) := by
  have hwhole : whole? ⟨decide (i < 0), Nat.toDigits 10 i.natAbs, none, none⟩ = some i := by
    rw [whole?, Numeral.value_toDigits]
    by_cases hi : i < 0
    · have hfits : i.natAbs ≤ twoTo 63 := by omega
      simp only [decide_eq_true hi, if_true, if_pos hfits, Option.some.injEq]
      omega
    · have hfits : i.natAbs < twoTo 64 := by omega
      simp only [decide_eq_false hi, Bool.false_eq_true, if_false, if_pos hfits, Option.some.injEq]
      omega
  have hminus : ¬ (decide (i < 0) = true ∧ i = 0) := by
    rw [decide_eq_true_eq]
    omega
  simp only [staged, isWhole, Option.isNone_none, Bool.and_self, hwhole, if_neg hminus]

end Numerals

variable {depth fuel : Nat} {j : Json} {js done : List Json} {x : Binary64} {i : Int}

@[simp] theorem skipSpace_append (hd : IsMark d) :
    Reader.skipSpace (cs ++ d :: rest) = Reader.skipSpace cs ++ d :: rest :=
  dropWhile_append_cons (by rcases hd with rfl | rfl <;> decide)

def ReadsAs (depth : Nat) (cs : List Char) (j : Json) : Prop :=
  ∀ ⦃d rest⦄, IsMark d → ∃ left,
    Reader.value false Numerals.staged depth (Reader.skipSpace cs ++ d :: rest) = some (j, left) ∧
      Reader.skipSpace left = d :: rest

theorem head_of_take (h : Numerals.take cs = some (n, left)) :
    ∃ c ds, cs = c :: ds ∧ (c = '-' ∨ c.isDigit) := by
  simp only [Numerals.take, Option.bind_eq_bind] at h
  obtain ⟨⟨ds, behind⟩, hwhole, -⟩ := Option.bind_eq_some_iff.mp h
  rw [Numerals.takeWhole, Option.ite_none_left_eq_some] at hwhole
  cases cs with
  | nil => exact absurd (.inl rfl) hwhole.1
  | cons c cs =>
    refine ⟨c, cs, rfl, or_iff_not_imp_left.mpr fun hc => ?_⟩
    by_contra hdigit
    refine hwhole.1 (.inl ?_)
    simp [Numerals.takeSign, hc, hdigit]

theorem value_of_take {isLax : Bool} {number : Numerals → Option Json}
    (h : Numerals.take cs = some (n, left)) (hn : number n = some j) :
    Reader.value isLax number depth cs = some (j, Reader.afterWord isLax left) := by
  obtain ⟨c, ds, rfl, hc⟩ := head_of_take h
  have hne : c ≠ '[' ∧ c ≠ '\x7b' ∧ c ≠ 'n' ∧ c ≠ 't' ∧ c ≠ 'f' ∧ c ≠ '"' := by
    refine ⟨?_, ?_, ?_, ?_, ?_, ?_⟩ <;> rintro rfl <;> exact absurd hc (by decide)
  obtain ⟨hbracket, hbrace, hnull, htrue, hfalse, hquote⟩ := hne
  simp [Reader.value, Reader.scalar, hbracket, hbrace, hnull, htrue, hfalse, hquote, h, hn]

@[simp] theorem skipSpace_mark (hd : IsMark d) : Reader.skipSpace (d :: rest) = d :: rest := by
  rw [← List.nil_append (d :: rest), skipSpace_append hd]
  rfl

theorem readsAs_null : ReadsAs depth (chars .null) .null := by
  intro d rest hd
  refine ⟨d :: rest, ?_, skipSpace_mark hd⟩
  rw [show Reader.skipSpace (chars .null) = ['n', 'u', 'l', 'l'] by decide]
  simp [Reader.value, Reader.scalar, Reader.afterWord]

theorem readsAs_bool (b : Bool) : ReadsAs depth (chars (.bool b)) (.bool b) := by
  intro d rest hd
  refine ⟨d :: rest, ?_, skipSpace_mark hd⟩
  cases b with
  | true =>
    rw [show Reader.skipSpace (chars (.bool true)) = ['t', 'r', 'u', 'e'] by decide]
    simp [Reader.value, Reader.scalar, Reader.afterWord]
  | false =>
    rw [show Reader.skipSpace (chars (.bool false)) = ['f', 'a', 'l', 's', 'e'] by decide]
    simp [Reader.value, Reader.scalar, Reader.afterWord]

theorem readsAs_str (s : String) : ReadsAs depth (chars (.str s)) (.str s) := by
  intro d rest hd
  refine ⟨d :: rest, ?_, skipSpace_mark hd⟩
  have hskip : Reader.skipSpace (chars (.str s)) = '"' :: (s.toList.flatMap charEscape ++ ['"']) := rfl
  rw [hskip, List.cons_append, List.append_assoc, List.singleton_append]
  simp [Reader.value, Reader.scalar]

theorem readsAs_int (hlow : -(twoTo 63 : Int) ≤ i) (hhigh : i < twoTo 64) :
    ReadsAs depth (chars (.int i)) (.int i) := by
  intro d rest hd
  have htake := Numerals.take_ofInt i
  obtain ⟨c, ds, hcs, hc⟩ := head_of_take htake
  have hskip : Reader.skipSpace (chars (.int i)) = Numeral.ofInt i := by
    change Reader.skipSpace (Numeral.ofInt i) = Numeral.ofInt i
    rw [hcs, Reader.skipSpace, List.dropWhile_cons_of_neg]
    simp only [Reader.isSpace, Bool.or_eq_true, decide_eq_true_eq]
    rintro (((rfl | rfl) | rfl) | rfl) <;> exact absurd hc (by decide)
  refine ⟨d :: rest, ?_, skipSpace_mark hd⟩
  rw [hskip]
  exact value_of_take (Numerals.take_append hd htake) (Numerals.staged_ofInt hlow hhigh)

theorem take_of_value (h : Reader.value false Numerals.staged depth cs = some (.real x, left)) :
    ∃ n, Numerals.take cs = some (n, left) ∧ Numerals.staged n = some (.real x) := by
  unfold Reader.value at h
  split at h
  · cases h
  · cases h
  · split at h
    · cases h
    · obtain ⟨_, -, hs⟩ := Option.map_eq_some_iff.mp h
      cases hs
  · split at h
    · cases h
    · obtain ⟨_, -, hs⟩ := Option.map_eq_some_iff.mp h
      cases hs
  · unfold Reader.scalar at h
    split at h
    · cases h
    · cases h
    · cases h
    · obtain ⟨_, -, hs⟩ := Option.map_eq_some_iff.mp h
      cases hs
    · obtain ⟨⟨n, behind⟩, htake, h⟩ := Option.bind_eq_some_iff.mp h
      obtain ⟨j, hj, hs⟩ := Option.bind_eq_some_iff.mp h
      cases hs
      exact ⟨n, htake, hj⟩

theorem eq_real_of_normalize (h : j.normalize = .real x) : j = .real x := by
  cases j with
  | arr items => cases h
  | obj members => cases h
  | _ => exact h

theorem value_of_read? {text : String} (h : read? text = some (.real x)) :
    ∃ left, Reader.value false Numerals.staged 127 (Reader.skipSpace text.toList) =
      some (.real x, left) ∧ Reader.skipSpace left = [] := by
  obtain ⟨j, hj, hnormal⟩ := Option.map_eq_some_iff.mp h
  obtain rfl := eq_real_of_normalize hnormal
  obtain ⟨⟨j, left⟩, hvalue, hread⟩ := Option.bind_eq_some_iff.mp hj
  obtain ⟨hleft, hread⟩ := Option.ite_none_right_eq_some.mp hread
  cases hread
  exact ⟨left, hvalue, hleft⟩

theorem readsAs_real (h : read? (Json.real x).text = some (.real x)) :
    ReadsAs depth (chars (.real x)) (.real x) := by
  intro d rest hd
  obtain ⟨left, hvalue, hleft⟩ := value_of_read? h
  rw [text, String.toList_ofList] at hvalue
  obtain ⟨n, htake, hn⟩ := take_of_value hvalue
  refine ⟨left ++ d :: rest, value_of_take (Numerals.take_append hd htake) hn, ?_⟩
  simp [hd, hleft]

@[simp] theorem value_bracket : Reader.value false Numerals.staged depth (']' :: rest) = none := by
  simp [Reader.value, Reader.scalar, Numerals.take, Numerals.takeSign, Numerals.takeWhole]

theorem items_itemsChars (hjs : js ≠ []) (h : ∀ j ∈ js, ReadsAs depth (chars j) j)
    (hfuel : js.length ≤ fuel) :
    Reader.items (Reader.value false Numerals.staged depth) fuel done
        (Reader.skipSpace (itemsChars js ++ ']' :: rest)) =
      some (done.reverse ++ js, rest) := by
  -- What was read before stands in front, so the induction runs over any such items.
  induction js generalizing done fuel with
  | nil => exact absurd rfl hjs
  | cons j js ih =>
    obtain ⟨fuel, rfl⟩ :=
      Nat.exists_eq_add_one_of_ne_zero (Nat.ne_of_gt (Nat.lt_of_lt_of_le (Nat.succ_pos _) hfuel))
    have hj := h j List.mem_cons_self
    cases js with
    | nil =>
      obtain ⟨left, hvalue, hleft⟩ := hj (.inr rfl)
      rw [itemsChars, skipSpace_append (.inr rfl), Reader.items, hvalue]
      simp only [hleft, List.reverse_cons]
    | cons j' js =>
      obtain ⟨left, hvalue, hleft⟩ := hj (.inl rfl)
      rw [itemsChars_cons, List.append_assoc, List.cons_append, skipSpace_append (.inl rfl),
        Reader.items, hvalue]
      simp only [hleft]
      rw [ih (List.cons_ne_nil _ _) (fun k hk => h k (List.mem_cons_of_mem _ hk))
        (Nat.le_of_succ_le_succ hfuel), List.reverse_cons, List.append_assoc, List.singleton_append]

theorem length_le_length_itemsChars (js : List Json) : js.length ≤ (itemsChars js).length + 1 := by
  induction js with
  | nil => exact Nat.zero_le _
  | cons j js ih =>
    cases js with
    | nil => exact Nat.le_add_left _ _
    | cons j' js =>
      rw [itemsChars_cons]
      simp only [List.length_append, List.length_cons] at ih ⊢
      omega

theorem length_le_length_skipSpace (js : List Json) :
    js.length ≤ (Reader.skipSpace (itemsChars js ++ [']'])).length := by
  cases js with
  | nil => exact Nat.zero_le _
  | cons j js =>
    cases js with
    | nil =>
      rw [itemsChars, skipSpace_append (.inr rfl), List.length_append]
      exact Nat.le_add_left _ _
    | cons j' js =>
      have hlength := length_le_length_itemsChars (j' :: js)
      rw [itemsChars_cons, List.append_assoc, List.cons_append, skipSpace_append (.inl rfl)]
      simp only [List.length_append, List.length_cons, List.length_nil] at hlength ⊢
      omega

theorem value_arr (h : ∀ j ∈ js, ReadsAs depth (chars j) j) :
    Reader.value false Numerals.staged (depth + 1) (chars (.arr js)) = some (.arr js, []) := by
  rw [chars, Reader.value]
  by_cases hjs : js = []
  · subst hjs
    rfl
  · have hfuel := length_le_length_skipSpace js
    have hitems : Reader.items (Reader.value false Numerals.staged depth)
        ((Reader.skipSpace (itemsChars js ++ [']'])).length + 1) []
        (Reader.skipSpace (itemsChars js ++ [']'])) = some (js, []) :=
      items_itemsChars hjs h (Nat.le_succ_of_le hfuel)
    -- The reader looks for an empty array first, but no item starts with a bracket that closes one.
    split
    · rename_i hmark
      rw [hmark, Reader.items, value_bracket] at hitems
      cases hitems
    · rw [hitems]
      rfl

/-- A scalar is read back from an array: a whole number that fits 64 bits, with a sign or without, and a
real one that is read back on its own. -/
def ReadsBack : Json → Prop
  | .int n => -(twoTo 63 : Int) ≤ n ∧ n < twoTo 64
  | .real x => read? (Json.real x).text = some (.real x)
  | .arr _ | .obj _ => False
  | _ => True

theorem ReadsBack.readsAs (h : j.ReadsBack) : ReadsAs depth (chars j) j := by
  cases j with
  | null => exact readsAs_null
  | bool b => exact readsAs_bool b
  | int n => exact readsAs_int h.1 h.2
  | real x => exact readsAs_real h
  | str s => exact readsAs_str s
  | arr items => cases h
  | obj members => cases h

theorem ReadsBack.normalize (h : j.ReadsBack) : j.normalize = j := by
  cases j with
  | arr items => cases h
  | obj members => cases h
  | _ => rfl

theorem normalizeItems_eq_self (h : ∀ j ∈ js, j.normalize = j) : normalizeItems js = js := by
  induction js with
  | nil => rfl
  | cons j js ih =>
    rw [List.forall_mem_cons] at h
    rw [normalizeItems, h.1, ih h.2]

theorem read?_text_arr (h : ∀ j ∈ js, j.ReadsBack) : read? (Json.arr js).text = some (.arr js) := by
  have hvalue : Reader.value false Numerals.staged (126 + 1) (chars (.arr js)) = some (.arr js, []) :=
    value_arr fun j hj => (h j hj).readsAs
  have hskip : Reader.skipSpace (chars (.arr js)) = chars (.arr js) := rfl
  have hwritten : readWritten? strict (chars (.arr js)) = some (.arr js) := by
    rw [readWritten?, hskip]
    exact Option.bind_eq_some_iff.mpr ⟨_, hvalue, rfl⟩
  rw [read?, text, String.toList_ofList, hwritten, Option.map_some, normalize,
    normalizeItems_eq_self fun j hj => (h j hj).normalize]

end AvroColumns.Json
