import AvroColumns.Proofs.Numeric.Numerals
import AvroColumns.Proofs.Path.Scanning
import AvroColumns.Proofs.Path.Substitution

namespace AvroColumns

open Placeholder Placeholder.Place

namespace Segment

theorem exists_content (content : List Char) :
    ∃ content', (ofBracket content).chars = '[' :: (content' ++ [']']) ∧
      ofBracket content' = ofBracket content ∧
      (content' = content ∨ ∃ i, Numeral.Spells content i ∧ Numeral.Spells content' i) := by
  by_cases hstar : content = ['*']
  · subst hstar
    exact ⟨['*'], rfl, rfl, .inl rfl⟩
  · cases hi : Numeral.index? content with
    | none =>
      refine ⟨content, ?_, rfl, .inl rfl⟩
      rw [ofBracket, if_neg hstar, hi]
      simp
    | some i =>
      obtain ⟨hfits, hspells⟩ := Numeral.index?_eq_some_iff.mp hi
      have hprinted := Numeral.spells_ofInt i
      have hindex : Numeral.index? (Numeral.ofInt i) = some i := by
        rw [hprinted.index?, if_pos hfits]
      have hstar' : Numeral.ofInt i ≠ ['*'] := fun hs =>
        hprinted.not_mem (c := '*') rfl (by decide) (by simp [hs])
      refine ⟨Numeral.ofInt i, ?_, ?_, .inr ⟨i, hspells, hprinted⟩⟩
      · rw [ofBracket, if_neg hstar, hi]
        rfl
      · rw [ofBracket, if_neg hstar', hindex, ofBracket, if_neg hstar, hi]

end Segment

namespace Path

open Outcome

variable {raw : String} {p : Path} {text part cs ds : List Char} {segments : List Segment}
  {parts split : List (List Char)} {root : Root} {s : Place}

theorem Brackets.legible (h : Brackets text segments) (hd : '.' ∉ text) :
    ∀ s ∈ segments, s.Legible := by
  induction h with
  | nil => nofun
  | @cons content cs segments hb _ ih =>
    simp only [List.mem_cons, List.mem_append, not_or] at hd
    obtain ⟨content', hs, ho, hcontent⟩ := Segment.exists_content content
    have hlegible : (Segment.ofBracket content).Legible := by
      apply Segment.Legible.bracket hs ho
      · rcases hcontent with rfl | ⟨i, -, h⟩
        · exact hd.2.1
        · exact h.not_mem rfl (by decide)
      · rcases hcontent with rfl | ⟨i, -, h⟩
        · exact hb
        · exact h.not_mem rfl (by decide)
    exact List.forall_mem_cons.mpr ⟨hlegible, ih hd.2.2.2⟩

theorem Part.legible (h : Part part segments) (hd : '.' ∉ part) : ∀ s ∈ segments, s.Legible := by
  cases h with
  | brackets h => exact h.legible hd
  | @member title cs segments hne hb h =>
    rw [List.mem_append, not_or] at hd
    refine List.forall_mem_cons.mpr ⟨.member ?_ ?_ ?_, h.legible hd.2⟩
    · simpa using hne
    · simpa using hd.1
    · simpa using hb

theorem legible_of_partsSegments (h : partsSegments parts = .ok segments)
    (hd : ∀ part ∈ parts, '.' ∉ part) : ∀ s ∈ segments, s.Legible := by
  induction parts generalizing segments with
  | nil =>
    cases h
    nofun
  | cons part parts ih =>
    obtain ⟨hpart, hparts⟩ := List.forall_mem_cons.mp hd
    obtain ⟨first, hf, h⟩ := bind_eq_ok_iff.mp h
    obtain ⟨rest, hr, h⟩ := bind_eq_ok_iff.mp h
    cases h
    exact List.forall_mem_append.mpr ⟨(partSegments_eq_ok_iff.mp hf).legible hpart, ih hr hparts⟩

/-- From every place the second text leads a scan where the first does, and it has no dot in a
placeholder if the first has none. -/
def Tracks (cs ds : List Char) : Prop :=
  ∀ s : Place, s.scan ds = s.scan cs ∧ (s.shield cs = cs → s.shield ds = ds)

theorem Tracks.refl (cs : List Char) : Tracks cs cs :=
  fun _ => ⟨rfl, id⟩

theorem Tracks.append {cs' ds' : List Char} (h : Tracks cs ds) (h' : Tracks cs' ds') :
    Tracks (cs ++ cs') (ds ++ ds') := by
  intro s
  obtain ⟨hscan, hshield⟩ := h s
  obtain ⟨hscan', hshield'⟩ := h' (s.scan cs)
  constructor
  · simp [hscan, hscan']
  · rw [shield_append_eq_iff, shield_append_eq_iff, hscan]
    exact And.imp hshield hshield'

@[simp] theorem shield_eq_self (h : '.' ∉ cs) (s : Place) : s.shield cs = cs := by
  induction cs generalizing s with
  | nil => rfl
  | cons c cs ih =>
    rw [List.mem_cons, not_or] at h
    simp [ih h.2, Ne.symm h.1]

theorem scan_eq_self (hs : s ≠ .dollar) (hd : '$' ∉ cs) (hc : '\x7d' ∉ cs) : s.scan cs = s := by
  induction cs with
  | nil => rfl
  | cons c cs ih =>
    rw [List.mem_cons, not_or] at hd hc
    have hnext : s.next c = s := by
      cases s with
      | outside => simp [next, Ne.symm hd.1]
      | dollar => exact absurd rfl hs
      | inside => simp [next, Ne.symm hc.1]
    simp [hnext, ih hd.2 hc.2]

theorem scan_spells {i : Int} (h : Numeral.Spells cs i) (hs : s ≠ .dollar) : s.scan cs = s :=
  scan_eq_self hs (h.not_mem rfl (by decide)) (h.not_mem rfl (by decide))

theorem tracks_bracket (content : List Char) (h : '.' ∉ content) :
    Tracks ('[' :: (content ++ [']'])) (Segment.ofBracket content).chars := by
  obtain ⟨content', hchars, -, hcontent⟩ := Segment.exists_content content
  rw [hchars]
  rcases hcontent with rfl | ⟨i, hspells, hspells'⟩
  · exact .refl _
  · intro s
    have hs : s.next '[' ≠ .dollar := by
      simp [next_eq_dollar_iff]
    have hdot : '.' ∉ content' := hspells'.not_mem rfl (by decide)
    constructor
    · simp [scan_spells hspells hs, scan_spells hspells' hs]
    · simp [hdot]

theorem Brackets.tracks (h : Brackets text segments) (hd : '.' ∉ text) :
    Tracks text (rendered segments) := by
  induction h with
  | nil => exact .refl _
  | @cons content cs segments _ _ ih =>
    simp only [List.mem_cons, List.mem_append, not_or] at hd
    have := (tracks_bracket content hd.2.1).append (ih hd.2.2.2)
    simpa using this

theorem Part.tracks (h : Part part segments) (hd : '.' ∉ part) :
    Tracks ('.' :: part) (rendered segments) := by
  cases h with
  | @brackets cs _ h =>
    intro s
    obtain ⟨hscan, hshield⟩ := h.tracks hd s
    refine ⟨?_, fun _ => hshield (shield_eq_self hd s)⟩
    rw [hscan]
    cases s <;> rfl
  | @member title cs segments hne hb h =>
    rw [List.mem_append, not_or] at hd
    have := (Tracks.refl ('.' :: title)).append (h.tracks hd.2)
    simpa using this

def dotted (parts : List (List Char)) : List Char :=
  parts.flatMap ('.' :: ·)

theorem tracks_dotted (h : partsSegments parts = .ok segments) (hd : ∀ part ∈ parts, '.' ∉ part) :
    Tracks (dotted parts) (rendered segments) := by
  induction parts generalizing segments with
  | nil =>
    cases h
    exact .refl _
  | cons part parts ih =>
    obtain ⟨hpart, hparts⟩ := List.forall_mem_cons.mp hd
    obtain ⟨first, hf, h⟩ := bind_eq_ok_iff.mp h
    obtain ⟨rest, hr, h⟩ := bind_eq_ok_iff.mp h
    cases h
    rw [rendered_append]
    exact ((partSegments_eq_ok_iff.mp hf).tracks hpart).append (ih hr hparts)

theorem Brackets.getLast?_rendered (h : Brackets text segments) :
    (rendered segments).getLast? = text.getLast? := by
  induction h with
  | nil => rfl
  | @cons content cs segments _ _ ih =>
    obtain ⟨content', hchars, -⟩ := Segment.exists_content content
    have hrendered : rendered (Segment.ofBracket content :: segments) =
        '[' :: (content' ++ [']']) ++ rendered segments := by
      rw [← hchars]
      rfl
    have htext : '[' :: (content ++ ']' :: cs) = '[' :: (content ++ [']']) ++ cs := by simp
    rw [hrendered, htext, List.getLast?_append, List.getLast?_append, ih, ← List.cons_append,
      List.getLast?_concat, ← List.cons_append, List.getLast?_concat]

theorem Part.getLast?_rendered (h : Part part segments) :
    (rendered segments).getLast? = ('.' :: part).getLast? := by
  cases h with
  | @brackets cs _ h => simpa using h.getLast?_rendered
  | @member title cs segments hne hb h =>
    have hrendered : rendered (.member (String.ofList title) :: segments) =
        ('.' :: title) ++ rendered segments := by
      simp
    rw [hrendered, ← List.cons_append, List.getLast?_append, List.getLast?_append, h.getLast?_rendered]

theorem getLast?_rendered (h : partsSegments parts = .ok segments) :
    (rendered segments).getLast? = (dotted parts).getLast? := by
  induction parts generalizing segments with
  | nil =>
    cases h
    rfl
  | cons part parts ih =>
    obtain ⟨first, hf, h⟩ := bind_eq_ok_iff.mp h
    obtain ⟨rest, hr, h⟩ := bind_eq_ok_iff.mp h
    cases h
    have hdotted : dotted (part :: parts) = ('.' :: part) ++ dotted parts := rfl
    rw [rendered_append, hdotted, List.getLast?_append, List.getLast?_append, ih hr,
      (partSegments_eq_ok_iff.mp hf).getLast?_rendered]

theorem splitOn_eq_cons (h : cs.splitOn '.' = part :: parts) :
    cs = part ++ dotted parts ∧ '.' ∉ part ∧ ∀ part ∈ parts, '.' ∉ part := by
  induction cs generalizing part parts with
  | nil =>
    cases h
    exact ⟨rfl, List.not_mem_nil, by simp⟩
  | cons c cs ih =>
    obtain ⟨part', parts', hsplit⟩ := List.exists_cons_of_ne_nil (List.splitOn_ne_nil '.' cs)
    obtain ⟨hcs, hpart, hparts⟩ := ih hsplit
    rw [List.splitOn_cons_eq_if_modifyHead, hsplit] at h
    split at h
    next hdot =>
      obtain rfl := eq_of_beq hdot
      obtain ⟨rfl, rfl⟩ := List.cons.inj h
      exact ⟨by simp [dotted, hcs], List.not_mem_nil, List.forall_mem_cons.mpr ⟨hpart, hparts⟩⟩
    next hdot =>
      rw [beq_iff_eq] at hdot
      obtain ⟨rfl, rfl⟩ := List.cons.inj h
      exact ⟨by simp [hcs], by simp [hpart, Ne.symm hdot], hparts⟩

structure Rooted (text : List Char) (parts : List (List Char)) : Prop where
  scan : dollar.scan (dotted parts) = outside.scan text
  shield : outside.shield text = text → dollar.shield (dotted parts) = dotted parts
  last : ('$' :: dotted parts).getLast? = text.getLast?
  dotless : ∀ part ∈ parts, '.' ∉ part

theorem Starts.rooted (h : Starts (text.splitOn '.') root parts) : Rooted text parts := by
  generalize hsplit : text.splitOn '.' = split at h
  cases h with
  | record =>
    obtain ⟨rfl, -, hparts⟩ := splitOn_eq_cons hsplit
    exact ⟨rfl, fun h => (List.cons.inj h).2, rfl, hparts⟩
  | @container cs rest =>
    obtain ⟨rfl, hpart, hparts⟩ := splitOn_eq_cons hsplit
    rw [List.mem_cons, not_or] at hpart
    have hdotted : dotted (('[' :: cs) :: rest) = '.' :: '[' :: (cs ++ dotted rest) := by simp [dotted]
    rw [List.cons_append, List.cons_append]
    refine ⟨by rw [hdotted]; rfl, ?_, by simp [hdotted], List.forall_mem_cons.mpr ⟨hpart.2, hparts⟩⟩
    rw [hdotted]
    intro h
    have htail := (List.cons.inj (List.cons.inj h).2).2
    exact congrArg ('.' :: '[' :: ·) htail
  | @bareContainer cs rest =>
    obtain ⟨rfl, hpart, hparts⟩ := splitOn_eq_cons hsplit
    have hdotted : dotted (('[' :: cs) :: rest) = '.' :: ('[' :: cs ++ dotted rest) := by simp [dotted]
    refine ⟨by rw [hdotted]; rfl, ?_, by simp [hdotted], List.forall_mem_cons.mpr ⟨hpart, hparts⟩⟩
    rw [hdotted]
    exact congrArg ('.' :: ·)
  | @bareRecord c cs rest _ _ =>
    obtain ⟨rfl, hpart, hparts⟩ := splitOn_eq_cons hsplit
    have hdotted : dotted ((c :: cs) :: rest) = '.' :: (c :: cs ++ dotted rest) := by simp [dotted]
    refine ⟨by rw [hdotted]; rfl, ?_, by simp [hdotted], List.forall_mem_cons.mpr ⟨hpart, hparts⟩⟩
    rw [hdotted]
    exact congrArg ('.' :: ·)

@[simp] theorem isBlank_cleanse (cs : List Char) :
    (cleanse cs).map Text.isBlank = cs.map Text.isBlank := by
  rw [cleanse]
  cases h : cleanseFrom false cs with
  | none => rfl
  | some ds => exact isBlank_cleanseFrom h

theorem legible_of_compile (h : compile raw = .ok p) : ∀ s ∈ p.segments, s.Legible := by
  obtain ⟨-, -, h⟩ := compile_eq_ok_iff.mp h
  obtain ⟨parts, hs, hp⟩ := ofChars_eq_ok_iff.mp h
  exact legible_of_partsSegments hp hs.rooted.dotless

/-- What a path is rendered as behind a dollar sign is read as a path of the same segments, and so is
rendered as itself again. -/
theorem compile_rendered (h : compile raw = .ok p) :
    ∃ q, compile ("$" ++ String.ofList (rendered p.segments)) = .ok q ∧ q.segments = p.segments ∧
      "$" ++ String.ofList (rendered q.segments) = q.raw := by
  obtain ⟨hne, -, hp⟩ := compile_eq_ok_iff.mp h
  generalize htext : cleanse (Text.trimChars raw.toList) = text at hp
  obtain ⟨parts, hstarts, hparts⟩ := ofChars_eq_ok_iff.mp hp
  have hrooted := hstarts.rooted
  obtain ⟨hscan, hshield⟩ := tracks_dotted hparts hrooted.dotless .dollar
  -- the text ends as the trimmed one does, and begins with a dollar sign
  have htrimmed : Text.Trimmed ('$' :: rendered p.segments) := by
    have hcleansed : Text.Trimmed text :=
      htext ▸ (Text.trimmed_trimChars raw.toList).of_map (isBlank_cleanse _)
    constructor
    · rintro _ ⟨⟩
      rfl
    · have hlast : ('$' :: rendered p.segments).getLast? = text.getLast? := by
        rw [← hrooted.last, List.getLast?_cons, List.getLast?_cons, getLast?_rendered hparts]
      rw [hlast]
      exact hcleansed.last
  have hcleanse : cleanse ('$' :: rendered p.segments) = '$' :: rendered p.segments := by
    rw [cleanse_eq_self_iff]
    have hself : cleanse text = text := htext ▸ cleanse_cleanse _
    rcases cleanse_eq_self_iff.mp hself with hinside | hclear
    · exact .inl ((hscan.trans hrooted.scan).trans hinside)
    · exact .inr (congrArg ('$' :: ·) (hshield (hrooted.shield hclear)))
  have hchars : ("$" ++ String.ofList (rendered p.segments)).toList = '$' :: rendered p.segments := by
    simp
  refine ⟨⟨_, rootOf p.segments, p.segments⟩, compile_eq_ok_iff.mpr ⟨?_, rfl, ?_⟩, rfl, rfl⟩
  · rw [hchars, htrimmed.trimChars_eq_self]
    nofun
  · rw [hchars, htrimmed.trimChars_eq_self, hcleanse]
    exact ofChars_rendered (legible_of_compile h)

def crooked : Path :=
  ⟨" a].[x[y][][007].b$\x7bp.q\x7d[-0][9223372036854775808].c\t", .record,
    [.member "a]", .key "x[y", .key "", .index 7, .member "b$\x7bp_q\x7d", .index 0,
      .key "9223372036854775808", .member "c"]⟩

theorem compile_rendered_crooked : compile crooked.raw = .ok crooked ∧
    ∃ q, compile "$.a][x[y][][7].b$\x7bp_q\x7d[0][9223372036854775808].c" = .ok q ∧
      q.segments = crooked.segments ∧ "$" ++ String.ofList (rendered q.segments) = q.raw := by
  have hc : compile crooked.raw = .ok crooked := by decide +kernel
  have ht : "$" ++ String.ofList (rendered crooked.segments) =
      "$.a][x[y][][7].b$\x7bp_q\x7d[0][9223372036854775808].c" := by decide +kernel
  exact ⟨hc, ht ▸ compile_rendered hc⟩

end Path

end AvroColumns
