import AvroColumns.Path.Reader
import AvroColumns.Proofs.Outcome

namespace AvroColumns

namespace Numeral

variable {cs : List Char} {i : Int}

def Writes (cs : List Char) (i : Int) : Prop :=
  fitsInt64 i ∧ ∃ ds, isDigits ds ∧ (cs = ds ∧ i = value ds ∨ cs = '-' :: ds ∧ i = -(value ds : Int))

@[simp] theorem not_isDigits_minus (ds : List Char) : isDigits ('-' :: ds) = false := by
  simp [isDigits]

theorem signed?_eq_some_iff :
    signed? cs = some i ↔
      ∃ ds, isDigits ds ∧ (cs = ds ∧ i = value ds ∨ cs = '-' :: ds ∧ i = -(value ds : Int)) := by
  rw [signed?.eq_def]
  split
  next ds => by_cases h : isDigits ds <;> grind [not_isDigits_minus]
  next hne => by_cases h : isDigits cs <;> grind

theorem index?_eq_some_iff : index? cs = some i ↔ Writes cs i := by
  simp [index?, Writes, Option.filter_eq_some_iff, signed?_eq_some_iff, and_comm]

theorem index?_eq_none_iff : index? cs = none ↔ ∀ i, ¬ Writes cs i := by
  simp [Option.eq_none_iff_forall_ne_some, index?_eq_some_iff]

end Numeral

namespace Placeholder

variable {vars : Variables}

@[simp] theorem substituteFrom_eq_self {cs : List Char} (h : occurs cs = false) :
    substituteFrom vars none cs = cs := by
  fun_induction occurs cs with
  | case1 => cases h
  | case2 c cs hne ih =>
    rw [substituteFrom.eq_2, ih h]
    exact hne
  | case3 => rfl

@[simp] theorem substitute_eq_self {s : String} (h : occurs s.toList = false) :
    substitute vars s = s := by
  simp [substitute, h]

end Placeholder

namespace Segment

variable {vars : Variables} {s t : Segment}

inductive Canonical : Segment → Prop
  | member (name : String) : Canonical (.member name)
  | key {k : String} : Numeral.index? k.toList = none → Canonical (.key k)
  | index (i : Int) : Canonical (.index i)
  | wildcard : Canonical .wildcard

/-- What variables make of a segment. Only a key may change its form, to the position that it is the
number of. -/
inductive Becomes (vars : Variables) : Segment → Segment → Prop
  | member (name : String) : Becomes vars (.member name) (.member (Placeholder.substitute vars name))
  | position {k : String} {i : Int} :
      Numeral.Writes (Placeholder.substitute vars k).toList i → Becomes vars (.key k) (.index i)
  | key {k : String} : (∀ i, ¬ Numeral.Writes (Placeholder.substitute vars k).toList i) →
      Becomes vars (.key k) (.key (Placeholder.substitute vars k))
  | index (i : Int) : Becomes vars (.index i) (.index i)
  | wildcard : Becomes vars .wildcard .wildcard

theorem canonical_ofBracket (content : List Char) : (ofBracket content).Canonical := by
  rw [ofBracket]
  split
  · exact .wildcard
  · split
    next i _ => exact .index i
    next h => exact .key (by simpa using h)

theorem becomes_bind (vars : Variables) (s : Segment) : Becomes vars s (s.bind vars) := by
  cases s with
  | member name => exact .member name
  | key k =>
    simp only [bind]
    split
    next h => exact .position (Numeral.index?_eq_some_iff.mp h)
    next h => exact .key (Numeral.index?_eq_none_iff.mp h)
  | index i => exact .index i
  | wildcard => exact .wildcard

theorem Canonical.bind_eq_self (h : s.Canonical) (hp : s.hasPlaceholder = false) :
    s.bind vars = s := by
  cases h with
  | member name => simpa using Placeholder.substitute_eq_self hp
  | key hk => simp [bind, Placeholder.substitute_eq_self hp, hk]
  | index i => rfl
  | wildcard => rfl

@[simp] theorem bind_eq_wildcard_iff : s.bind vars = .wildcard ↔ s = .wildcard := by
  cases s with
  | key k =>
    simp only [bind]
    split <;> simp
  | _ => simp

end Segment

namespace Path

open Outcome

variable {vars : Variables} {p : Path} {raw : String} {text part : List Char}
  {parts : List (List Char)} {segments : List Segment} {root : Root}

theorem canonical_bracketsFrom {content : Option (List Char)}
    (h : bracketsFrom content text = .ok segments) : ∀ s ∈ segments, s.Canonical := by
  fun_induction bracketsFrom content text generalizing segments with
  | case1 =>
    cases h
    simp
  | case2 cs ih => exact ih h
  | case3 => cases h
  | case4 content cs ih =>
    obtain ⟨rest, hr, rfl⟩ := map_eq_ok_iff.mp h
    exact List.forall_mem_cons.mpr ⟨Segment.canonical_ofBracket _, ih hr⟩
  | case5 content c cs _ ih => exact ih h
  | case6 => cases h

theorem canonical_partSegments (h : partSegments part = .ok segments) :
    ∀ s ∈ segments, s.Canonical := by
  rw [partSegments] at h
  split at h
  · cases h
  · dsimp only at h
    split at h
    · exact canonical_bracketsFrom h
    · obtain ⟨rest, hr, rfl⟩ := map_eq_ok_iff.mp h
      exact List.forall_mem_cons.mpr ⟨.member _, canonical_bracketsFrom hr⟩

theorem canonical_partsSegments (h : partsSegments parts = .ok segments) :
    ∀ s ∈ segments, s.Canonical := by
  induction parts generalizing segments with
  | nil =>
    cases h
    simp
  | cons part parts ih =>
    obtain ⟨first, hf, h⟩ := bind_eq_ok_iff.mp h
    obtain ⟨rest, hr, h⟩ := bind_eq_ok_iff.mp h
    cases h
    exact List.forall_mem_append.mpr ⟨canonical_partSegments hf, ih hr⟩

inductive Starts : List (List Char) → Root → List (List Char) → Prop
  | record {rest} : Starts (['$'] :: rest) .record rest
  | container {cs rest} : Starts (('$' :: '[' :: cs) :: rest) .container (('[' :: cs) :: rest)
  | bareContainer {cs rest} : Starts (('[' :: cs) :: rest) .container (('[' :: cs) :: rest)
  | bareRecord {c cs rest} : c ≠ '$' → c ≠ '[' → Starts ((c :: cs) :: rest) .record ((c :: cs) :: rest)

theorem ofChars_eq_ok_iff :
    ofChars text = .ok (root, segments) ↔
      ∃ parts, Starts (text.splitOn '.') root parts ∧ partsSegments parts = .ok segments := by
  have hne := List.splitOn_ne_nil '.' text
  rw [ofChars]
  generalize text.splitOn '.' = split at hne
  constructor
  · intro h
    split at h
    next =>
      obtain ⟨_, hp, ⟨⟩⟩ := map_eq_ok_iff.mp h
      exact ⟨_, .record, hp⟩
    next =>
      obtain ⟨_, hp, ⟨⟩⟩ := map_eq_ok_iff.mp h
      exact ⟨_, .container, hp⟩
    next => cases h
    next =>
      obtain ⟨_, hp, ⟨⟩⟩ := map_eq_ok_iff.mp h
      exact ⟨_, .bareContainer, hp⟩
    next hdollar hbracket =>
      obtain ⟨_, hp, ⟨⟩⟩ := map_eq_ok_iff.mp h
      match split, hne with
      | [] :: parts, _ => cases hp
      | (c :: part) :: parts, _ =>
        refine ⟨_, .bareRecord ?_ ?_, hp⟩
        · rintro rfl
          exact hdollar _ _ rfl
        · rintro rfl
          exact hbracket _ _ rfl
  · rintro ⟨parts, hs, hp⟩
    cases hs with
    | bareRecord hdollar hbracket => split <;> simp_all
    | _ => simp [hp]

theorem compile_eq_ok_iff :
    compile raw = .ok p ↔
      Text.trimChars raw.toList ≠ [] ∧ p.raw = raw ∧
        ofChars (Placeholder.cleanse (Text.trimChars raw.toList)) = .ok (p.root, p.segments) := by
  obtain ⟨raw', root, segments⟩ := p
  simp only [compile]
  by_cases hb : Text.trimChars raw.toList = []
  · simp [hb]
  · rw [if_neg hb]
    cases ofChars (Placeholder.cleanse (Text.trimChars raw.toList)) <;> grind

theorem canonical_of_compile (h : compile raw = .ok p) : ∀ s ∈ p.segments, s.Canonical := by
  obtain ⟨-, -, h⟩ := compile_eq_ok_iff.mp h
  obtain ⟨parts, -, hp⟩ := ofChars_eq_ok_iff.mp h
  exact canonical_partsSegments hp

theorem bind_segments (h : ∀ s ∈ p.segments, s.Canonical) (vars : Variables) :
    (p.bind vars).segments = p.segments.map (Segment.bind vars) := by
  simp only [bind]
  split
  · rfl
  next hnone =>
    simp only [Bool.not_eq_true, List.any_eq_false] at hnone
    have hself : ∀ s ∈ p.segments, s.bind vars = s := fun s hs =>
      (h s hs).bind_eq_self (by simpa using hnone s hs)
    rw [List.map_congr_left hself, List.map_id']

@[simp] theorem wildcard_mem_bind :
    .wildcard ∈ (p.bind vars).segments ↔ .wildcard ∈ p.segments := by
  simp only [bind]
  split
  · simp
  · rfl

end Path

end AvroColumns
