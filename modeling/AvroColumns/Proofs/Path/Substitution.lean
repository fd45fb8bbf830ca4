import AvroColumns.Proofs.Path.Binding
import AvroColumns.Proofs.Path.Weaving

namespace AvroColumns

namespace Segment

variable {vars : Variables} {cs : List Char}

open Placeholder

theorem brace_not_mem_of_writes {i : Int} (h : Numeral.Writes cs i) : '\x7b' ∉ cs := by
  obtain ⟨-, ds, hds, hcs⟩ := h
  have hnot : '\x7b' ∉ ds := by
    intro hm
    simp only [Numeral.isDigits, Bool.and_eq_true, List.all_eq_true] at hds
    exact absurd (hds.2 _ hm) (by decide)
  rcases hcs with ⟨rfl, -⟩ | ⟨rfl, -⟩
  · exact hnot
  · simp [hnot]

theorem ofBracket_substitute (h : Woven cs) (hv : vars.Wordy) :
    ofBracket (substituteFrom vars none cs) = (ofBracket cs).bind vars := by
  by_cases hstar : cs = ['*']
  · subst hstar
    rfl
  · have hstar' : substituteFrom vars none cs ≠ ['*'] := by
      intro hs
      obtain ⟨ds, rfl⟩ := List.head?_eq_some_iff.mp (h.head?_of_substitute hv rfl (by rw [hs]; rfl))
      cases h with
      | char hd hw =>
        rw [substituteFrom_char hd] at hs
        exact hstar (congrArg _ (hw.substitute_eq_nil hv (List.cons.inj hs).2))
    rw [ofBracket, if_neg hstar', ofBracket, if_neg hstar]
    cases hi : Numeral.index? cs with
    | some i =>
      have hnone := occurs_eq_false (brace_not_mem_of_writes (Numeral.index?_eq_some_iff.mp hi))
      rw [substituteFrom_eq_self hnone, hi]
      rfl
    | none => simp [bind, substitute]

end Segment

namespace Path

open Outcome Placeholder

variable {vars : Variables} {text part : List Char} {segments : List Segment}
  {parts split : List (List Char)} {root : Root} {raw : String} {p : Path}

inductive Brackets : List Char → List Segment → Prop
  | nil : Brackets [] []
  | cons {content cs segments} : ']' ∉ content → Brackets cs segments →
      Brackets ('[' :: (content ++ ']' :: cs)) (.ofBracket content :: segments)

/-- The segments of one part: those of brackets, which a member's name may precede. -/
inductive Part : List Char → List Segment → Prop
  | brackets {cs segments} : Brackets ('[' :: cs) segments → Part ('[' :: cs) segments
  | member {title cs segments} : title ≠ [] → '[' ∉ title → Brackets cs segments →
      Part (title ++ cs) (.member (String.ofList title) :: segments)

theorem Brackets.start (h : Brackets text segments) : text = [] ∨ ∃ cs, text = '[' :: cs := by
  cases h with
  | nil => exact .inl rfl
  | cons => exact .inr ⟨_, rfl⟩

def BracketsFrom : Option (List Char) → List Char → List Segment → Prop
  | none, text, segments => Brackets text segments
  | some before, text, segments => ∃ content cs rest, text = content ++ ']' :: cs ∧ ']' ∉ content ∧
      segments = .ofBracket (before.reverse ++ content) :: rest ∧ Brackets cs rest

theorem bracketsFrom_of_eq_ok {content : Option (List Char)}
    (h : bracketsFrom content text = .ok segments) : BracketsFrom content text segments := by
  fun_induction bracketsFrom content text generalizing segments with
  | case1 =>
    cases h
    exact .nil
  | case2 cs ih =>
    obtain ⟨content, cs, rest, rfl, hcontent, rfl, hrest⟩ := ih h
    exact .cons hcontent hrest
  | case3 => cases h
  | case4 content cs ih =>
    obtain ⟨rest, hr, rfl⟩ := map_eq_ok_iff.mp h
    exact ⟨[], cs, rest, rfl, by simp, by simp, ih hr⟩
  | case5 content c cs hc ih =>
    obtain ⟨after, cs, rest, rfl, hafter, rfl, hrest⟩ := ih h
    exact ⟨c :: after, cs, rest, rfl, by simp [hafter, Ne.symm hc], by simp, hrest⟩
  | case6 => cases h

theorem bracketsFrom_eq_ok_iff : bracketsFrom none text = .ok segments ↔ Brackets text segments := by
  constructor
  · exact bracketsFrom_of_eq_ok
  · intro h
    induction h with
    | nil => rfl
    | cons hcontent _ ih =>
      rw [bracketsFrom, bracketsFrom_append hcontent, ih]
      rfl

theorem partSegments_eq_ok_iff : partSegments part = .ok segments ↔ Part part segments := by
  constructor
  · intro h
    have hsplit := List.takeWhile_append_dropWhile (p := (· ≠ '[')) (l := part)
    rw [partSegments] at h
    split at h
    · cases h
    next hne =>
      dsimp only at h
      split at h
      next hname =>
        rw [hname, List.nil_append] at hsplit
        rw [hsplit, bracketsFrom_eq_ok_iff] at h
        obtain rfl | ⟨cs, rfl⟩ := h.start
        · exact absurd rfl hne
        · exact .brackets h
      next hname =>
        obtain ⟨rest, hr, rfl⟩ := map_eq_ok_iff.mp h
        have hbracket : '[' ∉ part.takeWhile (· ≠ '[') := by
          intro hm
          simpa using List.all_eq_true.mp List.all_takeWhile _ hm
        have := Part.member hname hbracket (bracketsFrom_eq_ok_iff.mp hr)
        rwa [hsplit] at this
  · intro h
    cases h with
    | brackets h => rwa [partSegments_bracket, bracketsFrom_eq_ok_iff]
    | member hne hname h =>
      rw [partSegments_append hne hname h.start, bracketsFrom_eq_ok_iff.mpr h]
      rfl

theorem Brackets.substitute (h : Brackets text segments) (hw : Woven text) (hv : vars.Wordy) :
    Brackets (substituteFrom vars none text) (segments.map (Segment.bind vars)) := by
  induction h with
  | nil => exact .nil
  | cons hcontent _ ih =>
    cases hw with
    | char hc hw =>
      obtain ⟨hwc, hws, heq⟩ := hw.cut rfl
      rw [substituteFrom_char hc, heq, List.map_cons, ← Segment.ofBracket_substitute hwc hv]
      exact .cons (fun hm => hcontent (hwc.mem_of_substitute hv rfl hm)) (ih hws)

@[simp] theorem substituteFrom_bracket (cs : List Char) :
    substituteFrom vars none ('[' :: cs) = '[' :: substituteFrom vars none cs :=
  substituteFrom_char nofun

theorem Part.substitute (h : Part part segments) (hw : Woven part) (hv : vars.Wordy) :
    Part (substituteFrom vars none part) (segments.map (Segment.bind vars)) := by
  cases h with
  | brackets h =>
    have hb := h.substitute hw hv
    rw [substituteFrom_bracket] at hb ⊢
    exact .brackets hb
  | @member name cs segments hne hname h =>
    obtain ⟨hwn, hwc, heq⟩ : Woven name ∧ Woven cs ∧ substituteFrom vars none (name ++ cs) =
        substituteFrom vars none name ++ substituteFrom vars none cs := by
      rcases h.start with rfl | ⟨cs, rfl⟩
      · rw [List.append_nil] at hw
        simp [hw, Woven.nil, substituteFrom]
      · obtain ⟨hwn, hwc, heq⟩ := hw.cut rfl
        rw [heq, substituteFrom_bracket]
        exact ⟨hwn, .char (by simp) hwc, rfl⟩
    have hm := Part.member (fun hs => hne (hwn.substitute_eq_nil hv hs))
      (fun hm => hname (hwn.mem_of_substitute hv rfl hm)) (h.substitute hwc hv)
    rw [heq]
    simpa [Segment.bind, Placeholder.substitute] using hm

theorem splitOn_substitute (h : Woven text) (hv : vars.Wordy) :
    (substituteFrom vars none text).splitOn '.' =
        (text.splitOn '.').map (substituteFrom vars none) ∧
      ∀ part ∈ text.splitOn '.', Woven part := by
  induction hn : text.length using Nat.strongRecOn generalizing text with
  | ind n ih =>
    by_cases hdot : '.' ∈ text
    · obtain ⟨before, after, rfl, hbefore⟩ := List.eq_append_cons_of_mem hdot
      obtain ⟨hwb, hwa, heq⟩ := h.cut rfl
      obtain ⟨hsplit, hparts⟩ := ih after.length (by simp [← hn]; omega) hwa rfl
      rw [heq, List.splitOn_append_cons_self_of_not_mem hbefore,
        List.splitOn_append_cons_self_of_not_mem fun hm => hbefore (hwb.mem_of_substitute hv rfl hm),
        hsplit]
      exact ⟨rfl, List.forall_mem_cons.mpr ⟨hwb, hparts⟩⟩
    · rw [List.splitOn_eq_singleton hdot,
        List.splitOn_eq_singleton fun hm => hdot (h.mem_of_substitute hv rfl hm)]
      exact ⟨rfl, by simpa using h⟩

theorem partsSegments_substitute (h : partsSegments parts = .ok segments)
    (hw : ∀ part ∈ parts, Woven part) (hv : vars.Wordy) :
    partsSegments (parts.map (substituteFrom vars none)) =
      .ok (segments.map (Segment.bind vars)) := by
  induction parts generalizing segments with
  | nil =>
    cases h
    rfl
  | cons part parts ih =>
    obtain ⟨hpart, hparts⟩ := List.forall_mem_cons.mp hw
    obtain ⟨first, hf, h⟩ := bind_eq_ok_iff.mp h
    obtain ⟨rest, hr, h⟩ := bind_eq_ok_iff.mp h
    cases h
    have hf' := partSegments_eq_ok_iff.mpr ((partSegments_eq_ok_iff.mp hf).substitute hpart hv)
    simp [partsSegments, hf', ih hr hparts]

theorem Starts.substitute (h : Starts split root parts) :
    Starts (split.map (substituteFrom vars none)) root (parts.map (substituteFrom vars none)) := by
  cases h with
  | record => exact .record
  | container => simp [substituteFrom, Starts.container]
  | bareContainer => simp [Starts.bareContainer]
  | bareRecord hdollar hbracket =>
    simp [substituteFrom, hdollar, Starts.bareRecord hdollar hbracket]

theorem Starts.woven (h : Starts split root parts) (hw : ∀ part ∈ split, Woven part) :
    ∀ part ∈ parts, Woven part := by
  cases h with
  | container =>
    obtain ⟨hfirst, hrest⟩ := List.forall_mem_cons.mp hw
    cases hfirst with
    | char _ h => exact List.forall_mem_cons.mpr ⟨h, hrest⟩
  | record => exact (List.forall_mem_cons.mp hw).2
  | bareContainer => exact hw
  | bareRecord => exact hw

theorem ofChars_substitute (h : ofChars text = .ok (root, segments)) (hw : Woven text)
    (hv : vars.Wordy) :
    ofChars (substituteFrom vars none text) = .ok (root, segments.map (Segment.bind vars)) := by
  obtain ⟨parts, hs, hp⟩ := ofChars_eq_ok_iff.mp h
  obtain ⟨hsplit, hparts⟩ := splitOn_substitute hw hv
  apply ofChars_eq_ok_iff.mpr
  rw [hsplit]
  exact ⟨_, hs.substitute, partsSegments_substitute hp (hs.woven hparts) hv⟩

theorem trimmed_substitute (h : Text.Trimmed text) (hw : Woven text) (hv : vars.Wordy) :
    Text.Trimmed (substituteFrom vars none text) := by
  have word {c : Char} (hc : isWord c) : Text.isBlank c = false :=
    isBlank_of_isPlain (isPlain_of_isWord hc)
  constructor
  · intro c hc
    by_cases hword : isWord c
    · exact word hword
    · exact h.head c (hw.head?_of_substitute hv (by simpa using hword) hc)
  · intro c hc
    by_cases hword : isWord c
    · exact word hword
    · exact h.last c (hw.getLast?_of_substitute hv (by simpa using hword) hc)

theorem exists_woven (he : Enclosed raw.toList) (hne : Text.trimChars raw.toList ≠ []) :
    ∃ ds, cleanse (Text.trimChars raw.toList) = ds ∧ ds ≠ [] ∧ Text.Trimmed ds ∧ Woven ds := by
  obtain ⟨ds, hds, hw⟩ : ∃ ds, cleanseFrom false (Text.trimChars raw.toList) = some ds ∧ Woven ds :=
    woven_cleanseFrom he.trimChars nofun
  have hblank := isBlank_cleanseFrom hds
  refine ⟨ds, by rw [cleanse, hds, Option.getD_some], ?_,
    (Text.trimmed_trimChars raw.toList).of_map hblank, hw⟩
  rintro rfl
  exact hne (List.map_eq_nil_iff.mp hblank.symm)

/-- Binding a path and reading the text in which the variables have been substituted come to the
same. -/
theorem compile_substitute (h : compile raw = .ok p) (he : Enclosed raw.toList) (hv : vars.Wordy) :
    ∃ q, compile (substitute vars (String.ofList (cleanse (Text.trim raw).toList))) = .ok q ∧
      q.root = (p.bind vars).root ∧ q.segments = (p.bind vars).segments := by
  obtain ⟨hne, -, hp⟩ := compile_eq_ok_iff.mp h
  obtain ⟨ds, hcleanse, hds, htrim, hw⟩ := exists_woven he hne
  rw [hcleanse] at hp
  rw [Text.toList_trim, hcleanse]
  refine ⟨⟨substitute vars (String.ofList ds), p.root, p.segments.map (Segment.bind vars)⟩, ?_, rfl,
    (bind_segments (canonical_of_compile h) vars).symm⟩
  rw [compile_eq_ok_iff, substitute, String.toList_ofList, String.toList_ofList,
    (trimmed_substitute htrim hw hv).trimChars_eq_self, (hw.substitute hv).cleanse_eq_self]
  exact ⟨fun hnil => hds (hw.substitute_eq_nil hv hnil), rfl, ofChars_substitute hp hw hv⟩

def manyHoles : Path :=
  ⟨" $.a$\x7bx.y\x7d.rows[$\x7bkey\x7d][$\x7b\x7d][*][$\x7bno\x7d] ", .record,
    [.member "a$\x7bx_y\x7d", .member "rows", .key "$\x7bkey\x7d", .key "$\x7b\x7d", .wildcard,
      .key "$\x7bno\x7d"]⟩

def twoWords : Variables :=
  Variables.ofList [("x_y", "v-1"), ("key", "-7")]

theorem compile_substitute_manyHoles :
    compile manyHoles.raw = .ok manyHoles ∧ Enclosed manyHoles.raw.toList ∧ twoWords.Wordy ∧
      (manyHoles.bind twoWords).segments = [.member "av-1", .member "rows", .index (-7),
        .key "$\x7b\x7d", .wildcard, .key "$\x7bno\x7d"] ∧
      ∃ q, compile "$.av-1.rows[-7][$\x7b\x7d][*][$\x7bno\x7d]" = .ok q ∧
        q.root = (manyHoles.bind twoWords).root ∧ q.segments = (manyHoles.bind twoWords).segments := by
  have hc : compile manyHoles.raw = .ok manyHoles := by decide +kernel
  have he : Enclosed manyHoles.raw.toList := by decide +kernel
  have hv : twoWords.Wordy := Variables.wordy_ofList (by decide +kernel)
  have ht : substitute twoWords (String.ofList (cleanse (Text.trim manyHoles.raw).toList)) =
      "$.av-1.rows[-7][$\x7b\x7d][*][$\x7bno\x7d]" := by decide +kernel
  exact ⟨hc, he, hv, by decide +kernel, ht ▸ compile_substitute hc he hv⟩

end Path

end AvroColumns
