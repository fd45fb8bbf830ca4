import AvroColumns.Path.Reader
import AvroColumns.Proofs.Outcome
import AvroColumns.Proofs.Text.Blank

namespace AvroColumns

def Path.isPlain (c : Char) : Bool :=
  c != '.' && c != '[' && c != ']' && c != '\x7b' && !Text.isBlank c

inductive Segment.Legible : Segment → Prop
  | member {name} (hn : name ≠ "") (hd : '.' ∉ name.toList) (hb : '[' ∉ name.toList) :
      Legible (.member name)
  | bracket {s content} (hs : s.chars = '[' :: (content ++ [']']))
    (ho : Segment.ofBracket content = s) (hd : '.' ∉ content) (hb : ']' ∉ content) : Legible s

inductive Segment.Plain : Segment → Prop
  | member {name} (hn : name ≠ "") (hc : ∀ c ∈ name.toList, Path.isPlain c) : Plain (.member name)
  | bracket {s content} (hs : s.chars = '[' :: (content ++ [']']))
    (ho : Segment.ofBracket content = s) (hc : ∀ c ∈ content, Path.isPlain c) : Plain s

namespace Placeholder

variable {cs : List Char}

@[simp] theorem cleanse_eq_self (h : occurs cs = false) : cleanse cs = cs := by
  suffices cleanseFrom false cs = some cs by rw [cleanse, this, Option.getD_some]
  induction cs with
  | nil => rfl
  | cons c cs ih =>
    have hne (ds : List Char) (hc : c = '$') (hcs : cs = '\x7b' :: ds) : False := by
      subst hc hcs
      cases h
    rw [occurs.eq_2 _ _ hne] at h
    rw [cleanseFrom.eq_2 _ _ hne, ih h, Option.map_some]

@[simp] theorem occurs_eq_false (h : '\x7b' ∉ cs) : occurs cs = false := by
  induction cs with
  | nil => rfl
  | cons c cs ih =>
    rw [List.mem_cons, not_or] at h
    rw [occurs.eq_2, ih h.2]
    rintro ds rfl rfl
    exact h.2 List.mem_cons_self

end Placeholder

namespace Path

open Outcome

variable {s : Segment} {segments : List Segment} {c : Char} {cs content : List Char}

theorem not_mem_of_isPlain (h : ∀ c ∈ cs, isPlain c) (hc : isPlain c = false) : c ∉ cs := by
  intro hm
  simp [h c hm] at hc

theorem legible_of_plain (h : s.Plain) : s.Legible := by
  cases h with
  | member hn hc => exact .member hn (not_mem_of_isPlain hc rfl) (not_mem_of_isPlain hc rfl)
  | bracket hs ho hc => exact .bracket hs ho (not_mem_of_isPlain hc rfl) (not_mem_of_isPlain hc rfl)

theorem isBlank_of_isPlain (h : isPlain c) : Text.isBlank c = false := by
  simp only [isPlain, Bool.and_eq_true, Bool.not_eq_eq_eq_not, Bool.not_true] at h
  exact h.2

theorem isPlain_of_word {c : Char} (h : c.isAlphanum || c == '_') : isPlain c := by
  have hn : (48 ≤ c.toNat ∧ c.toNat ≤ 57) ∨ (65 ≤ c.toNat ∧ c.toNat ≤ 90) ∨ c.toNat = 95 ∨
      (97 ≤ c.toNat ∧ c.toNat ≤ 122) := by
    delta Char.isAlphanum Char.isAlpha Char.isUpper Char.isLower Char.isDigit at h
    simp only [Bool.or_eq_true, Bool.and_eq_true, decide_eq_true_eq, beq_iff_eq, UInt32.le_iff_toNat_le,
      ge_iff_le] at h
    rcases h with ((h | h) | h) | rfl
    · exact .inr (.inl h)
    · exact .inr (.inr (.inr h))
    · exact .inl h
    · decide
  have hne (x : Char) (hx : x.toNat ≠ c.toNat) : (c != x) = true := by
    simp only [bne_iff_ne, ne_eq]
    rintro rfl
    exact hx rfl
  have hb : Text.isBlank c = false := by
    simp only [Text.isBlank, Bool.or_eq_false_iff, Bool.and_eq_false_iff, decide_eq_false_iff_not,
      beq_eq_false_iff_ne]
    omega
  rw [isPlain, hne '.' (by change 46 ≠ _; omega), hne '[' (by change 91 ≠ _; omega),
    hne ']' (by change 93 ≠ _; omega), hne '\x7b' (by change 123 ≠ _; omega), hb]
  rfl

@[simp] theorem splitOn_cons_dot (cs : List Char) :
    ('.' :: cs).splitOn '.' = [] :: cs.splitOn '.' := by
  simp [List.splitOn_cons_eq_if_modifyHead]

theorem splitOn_append {ds head : List Char} {tail : List (List Char)} (h : '.' ∉ cs)
    (hd : ds.splitOn '.' = head :: tail) : (cs ++ ds).splitOn '.' = (cs ++ head) :: tail := by
  induction cs with
  | nil => exact hd
  | cons c cs ih =>
    rw [List.mem_cons, not_or] at h
    rw [List.cons_append, List.splitOn_cons_eq_if_modifyHead, if_neg (by simpa using Ne.symm h.1), ih h.2]
    rfl

theorem bracketsFrom_append {before : List Char} (h : ']' ∉ content) (cs : List Char) :
    bracketsFrom (some before) (content ++ ']' :: cs) =
      (bracketsFrom none cs).map (Segment.ofBracket (before.reverse ++ content) :: ·) := by
  induction content generalizing before with
  | nil => rw [List.nil_append, bracketsFrom, List.append_nil]
  | cons c content ih =>
    rw [List.mem_cons, not_or] at h
    rw [List.cons_append, bracketsFrom.eq_5, ih h.2, List.reverse_cons, List.append_assoc]
    · rfl
    · exact Ne.symm h.1

theorem partSegments_append {name : List Char} (hn : name ≠ []) (h : '[' ∉ name)
    (hc : cs = [] ∨ ∃ ds, cs = '[' :: ds) :
    partSegments (name ++ cs) =
      (bracketsFrom none cs).map (.member (String.ofList name) :: ·) := by
  have all (c : Char) (hm : c ∈ name) : decide (c ≠ '[') = true := by
    apply decide_eq_true
    rintro rfl
    exact h hm
  have htake : cs.takeWhile (· ≠ '[') = [] := by
    rcases hc with rfl | ⟨ds, rfl⟩ <;> rfl
  have hdrop : cs.dropWhile (· ≠ '[') = cs := by
    rcases hc with rfl | ⟨ds, rfl⟩ <;> rfl
  rw [partSegments, if_neg (by simp [hn]), List.takeWhile_append_of_pos all,
    List.dropWhile_append_of_pos all, htake, hdrop, List.append_nil, if_neg hn]

structure Split (segments : List Segment) (head : List Char) (tail : List (List Char)) : Prop where
  parts : (rendered segments).splitOn '.' = head :: tail
  start : head = [] ∨ ∃ ds, head = '[' :: ds
  read : ∃ lead rest, bracketsFrom none head = .ok lead ∧ partsSegments tail = .ok rest ∧
    lead ++ rest = segments

theorem exists_split (h : ∀ s ∈ segments, s.Legible) : ∃ head tail, Split segments head tail := by
  induction segments with
  | nil => exact ⟨[], [], rfl, .inl rfl, [], [], rfl, rfl, rfl⟩
  | cons s segments ih =>
    rw [List.forall_mem_cons] at h
    obtain ⟨head, tail, hparts, hstart, lead, rest, hl, hr, rfl⟩ := ih h.2
    cases h.1 with
    | @member name hn hd hb =>
      refine ⟨[], (name.toList ++ head) :: tail, ?_, .inl rfl, [],
        .member name :: (lead ++ rest), rfl, ?_, rfl⟩
      · simpa using splitOn_append hd hparts
      · rw [partsSegments, partSegments_append (by simpa using hn) hb hstart, hl, hr]
        simp
    | @bracket _ content hs ho hd hb =>
      refine ⟨s.chars ++ head, tail, ?_, ?_, s :: lead, rest, ?_, hr, rfl⟩
      · rw [rendered_cons]
        refine splitOn_append ?_ hparts
        simpa [hs] using hd
      · rw [hs]
        exact .inr ⟨_, rfl⟩
      · rw [hs, List.cons_append, bracketsFrom, List.append_assoc, List.singleton_append,
          bracketsFrom_append hb, hl]
        simp [ho]

theorem mem_rendered (h : c ∈ rendered segments) : ∃ s ∈ segments, c ∈ s.chars :=
  List.mem_flatMap.mp h

theorem rendered_of_plain (h : ∀ s ∈ segments, s.Plain) (hc : c ∈ rendered segments) :
    c ≠ '\x7b' ∧ Text.isBlank c = false := by
  obtain ⟨s, hs, hc⟩ := mem_rendered hc
  have plain {cs : List Char} (hp : ∀ c ∈ cs, isPlain c) (hc : c ∈ cs) :
      c ≠ '\x7b' ∧ Text.isBlank c = false := by
    refine ⟨?_, isBlank_of_isPlain (hp c hc)⟩
    rintro rfl
    exact not_mem_of_isPlain hp rfl hc
  cases h s hs with
  | member hn hp =>
    rcases List.mem_cons.mp hc with rfl | hc
    · decide
    · exact plain hp hc
  | bracket hchars ho hp =>
    rw [hchars, List.mem_cons, List.mem_append, List.mem_singleton] at hc
    rcases hc with rfl | hc | rfl
    · decide
    · exact plain hp hc
    · decide

def rootOf : List Segment → Root
  | [] | .member _ :: _ => .record
  | _ => .container

def written (segments : List Segment) : Path :=
  ⟨String.ofList ('$' :: rendered segments), rootOf segments, segments⟩

@[simp] theorem partSegments_bracket (cs : List Char) :
    partSegments ('[' :: cs) = bracketsFrom none ('[' :: cs) :=
  rfl

theorem ofChars_rendered (h : ∀ s ∈ segments, s.Legible) :
    ofChars ('$' :: rendered segments) = .ok (rootOf segments, segments) := by
  cases segments with
  | nil => rfl
  | cons s segments =>
    obtain ⟨head, tail, hparts, -, lead, rest, hl, hr, he⟩ := exists_split h
    have hsplit : ('$' :: rendered (s :: segments)).splitOn '.' = ('$' :: head) :: tail :=
      splitOn_append (show '.' ∉ ['$'] by decide) hparts
    rw [ofChars, hsplit]
    cases h s List.mem_cons_self with
    | member hn hd hb =>
      rw [rendered_cons, Segment.chars_member, List.cons_append, splitOn_cons_dot] at hparts
      obtain ⟨rfl, -⟩ := List.cons.inj hparts
      cases hl
      rw [List.nil_append] at he
      simp only [hr, he]
      rfl
    | bracket hs ho hd hb =>
      obtain ⟨part, rfl⟩ : ∃ part, head = '[' :: part := by
        rw [rendered_cons, hs, List.cons_append] at hparts
        obtain ⟨part, parts, hsplit⟩ := List.exists_cons_of_ne_nil (List.splitOn_ne_nil '.' _)
        have hopen := splitOn_append (show '.' ∉ ['['] by decide) hsplit
        exact ⟨part, (List.cons.inj (hparts.symm.trans hopen)).1⟩
      have hroot : rootOf (s :: segments) = .container := by
        cases s with
        | member name => cases hs
        | _ => rfl
      simp [partsSegments, hl, hr, he, hroot]

theorem compile_written (h : ∀ s ∈ segments, s.Plain) :
    compile (written segments).raw = .ok (written segments) := by
  have hplain (c : Char) (hc : c ∈ '$' :: rendered segments) :
      c ≠ '\x7b' ∧ Text.isBlank c = false := by
    rcases List.mem_cons.mp hc with rfl | hc
    · decide
    · exact rendered_of_plain h hc
  have hoccurs : Placeholder.occurs ('$' :: rendered segments) = false :=
    Placeholder.occurs_eq_false fun hc => (hplain _ hc).1 rfl
  rw [compile, written, String.toList_ofList, (Text.trimmed_of_forall fun c hc => (hplain c hc).2).trimChars_eq_self,
    if_neg nofun, Placeholder.cleanse_eq_self hoccurs]
  simp only [ofChars_rendered fun s hs => legible_of_plain (h s hs)]

theorem hasPlaceholder_of_plain (h : s.Plain) : s.hasPlaceholder = false := by
  cases h with
  | member hn hc => exact Placeholder.occurs_eq_false (not_mem_of_isPlain hc rfl)
  | @bracket _ content hs ho hc =>
    cases s with
    | key k =>
      rw [Segment.chars, List.cons.injEq, List.append_cancel_right_eq] at hs
      rw [Segment.hasPlaceholder, hs.2]
      exact Placeholder.occurs_eq_false (not_mem_of_isPlain hc rfl)
    | member name => cases hs
    | _ => rfl

theorem bind_written (h : ∀ s ∈ segments, s.Plain) (vars : Variables) :
    (written segments).bind vars = ⟨rootOf segments, segments⟩ := by
  rw [bind, if_neg]
  · rfl
  · intro hany
    obtain ⟨s, hs, hp⟩ := List.any_eq_true.mp hany
    simp [hasPlaceholder_of_plain (h s hs)] at hp

end Path

end AvroColumns
