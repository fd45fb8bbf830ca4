import AvroColumns.Proofs.Path.Reading

/-!
# Woven texts

A text in which every placeholder is closed before a bracket comes is cleansed to one that is woven of
single characters and of placeholders without marks. Substitution takes woven texts to woven texts if
the values are words: it moves no mark and no blank at an end, and a woven text can be cut at a mark
before or after it.
-/

namespace AvroColumns

def Path.isWord (c : Char) : Bool :=
  c.isAlphanum || c == '_' || c == '-'

/-- Every value is a word: it is not empty, and none of its characters has a meaning in paths. -/
def Variables.Wordy (vars : Variables) : Prop :=
  ∀ name value, vars name = some value → value ≠ "" ∧ ∀ c ∈ value.toList, Path.isWord c

theorem Variables.wordy_ofList {bindings : List (String × String)}
    (h : ∀ b ∈ bindings, b.2 ≠ "" ∧ b.2.toList.all Path.isWord) :
    (Variables.ofList bindings).Wordy := by
  intro name value hvalue
  obtain ⟨b, hb, rfl⟩ := Option.map_eq_some_iff.mp hvalue
  rw [← List.all_eq_true]
  exact h b (List.mem_reverse.mp (List.mem_of_find?_eq_some hb))

namespace Path

variable {c : Char}

theorem isPlain_of_isWord (h : isWord c) : isPlain c := by
  by_cases hc : c = '-'
  · subst hc
    decide
  · apply isPlain_of_word
    simpa [isWord, hc] using h

theorem ne_of_isWord {d : Char} (h : isWord c) (hd : isWord d = false) : c ≠ d := by
  rintro rfl
  simp [h] at hd

end Path

namespace Placeholder

open AvroColumns.Path (isWord)

def isMark (c : Char) : Bool :=
  c == '.' || c == '[' || c == ']'

theorem isMark_of_isWord {c : Char} (h : isWord c) : isMark c = false := by
  simp only [isMark, Bool.or_eq_false_iff, beq_eq_false_iff_ne]
  exact ⟨⟨Path.ne_of_isWord h rfl, Path.ne_of_isWord h rfl⟩, Path.ne_of_isWord h rfl⟩

def Closes (cs : List Char) : Prop :=
  ∃ name rest, cs = name ++ '\x7d' :: rest ∧ '[' ∉ name ∧ ']' ∉ name

/-- Every placeholder that opens is closed again, with no bracket inside. -/
def Enclosed (cs : List Char) : Prop :=
  ∀ before after, cs = before ++ '$' :: '\x7b' :: after → Closes after

def IsName (name : List Char) : Prop :=
  ∀ c ∈ name, c ≠ '\x7d' ∧ isMark c = false

/-- A text of single characters and of placeholders without marks in their names. -/
inductive Woven : List Char → Prop
  | nil : Woven []
  | char {c cs} : (c = '$' → cs.head? ≠ some '\x7b') → Woven cs → Woven (c :: cs)
  | hole {name cs} : IsName name → Woven cs → Woven ('$' :: '\x7b' :: (name ++ '\x7d' :: cs))

variable {vars : Variables} {c : Char} {cs ds name before after : List Char} {inside : Bool}

@[simp] theorem closes_cons_iff :
    Closes (c :: cs) ↔ c = '\x7d' ∨ c ≠ '[' ∧ c ≠ ']' ∧ Closes cs := by
  constructor
  · rintro ⟨name, rest, hcs, hopen, hclose⟩
    cases name with
    | nil => exact .inl (List.cons.inj hcs).1
    | cons d name =>
      obtain ⟨rfl, rfl⟩ := List.cons.inj hcs
      simp only [List.mem_cons, not_or] at hopen hclose
      exact .inr ⟨Ne.symm hopen.1, Ne.symm hclose.1, name, rest, rfl, hopen.2, hclose.2⟩
  · rintro (rfl | ⟨hopen, hclose, name, rest, rfl, hname⟩)
    · exact ⟨[], cs, rfl, nofun, nofun⟩
    · exact ⟨c :: name, rest, rfl, by simp [Ne.symm hopen, hname.1], by simp [Ne.symm hclose, hname.2]⟩

theorem enclosed_cons_iff :
    Enclosed (c :: cs) ↔ (c = '$' → cs.head? = some '\x7b' → Closes cs.tail) ∧ Enclosed cs := by
  constructor
  · intro h
    refine ⟨?_, fun before after hcs => h (c :: before) after (by simp [hcs])⟩
    rintro rfl hbrace
    obtain ⟨after, rfl⟩ := List.head?_eq_some_iff.mp hbrace
    exact h [] after rfl
  · rintro ⟨hhead, h⟩ before after hcs
    cases before with
    | nil =>
      obtain ⟨rfl, rfl⟩ := List.cons.inj hcs
      exact hhead rfl rfl
    | cons d before => exact h before after (List.cons.inj hcs).2

instance decidableCloses : (cs : List Char) → Decidable (Closes cs)
  | [] => isFalse (by simp [Closes])
  | _ :: cs =>
    have := decidableCloses cs
    decidable_of_iff _ closes_cons_iff.symm

instance decidableEnclosed : (cs : List Char) → Decidable (Enclosed cs)
  | [] => isTrue (by simp [Enclosed])
  | _ :: cs =>
    have := decidableEnclosed cs
    decidable_of_iff _ enclosed_cons_iff.symm

theorem Closes.of_append (h : Closes (cs ++ after)) (hc : '\x7d' ∉ after) : Closes cs := by
  obtain ⟨name, rest, hcs, hname⟩ := h
  rcases List.append_eq_append_iff.mp hcs with ⟨mid, rfl, rfl⟩ | ⟨mid, rfl, hmid⟩
  · simp at hc
  · cases mid with
    | nil =>
      rw [List.nil_append] at hmid
      simp [← hmid] at hc
    | cons d mid =>
      obtain ⟨rfl, rfl⟩ := List.cons.inj hmid
      exact ⟨name, mid, rfl, hname⟩

theorem Enclosed.of_cons (h : Enclosed (c :: cs)) : Enclosed cs :=
  (enclosed_cons_iff.mp h).2

theorem Enclosed.of_infix (h : Enclosed (before ++ (cs ++ after))) (hc : '\x7d' ∉ after) :
    Enclosed cs := by
  rintro start rest rfl
  apply Closes.of_append _ hc
  apply h (before ++ start)
  simp

theorem Enclosed.trimChars (h : Enclosed cs) : Enclosed (Text.trimChars cs) := by
  obtain ⟨before, after, hcs, -, hafter⟩ := Text.exists_trimChars cs
  rw [hcs, List.append_assoc] at h
  apply h.of_infix
  intro hm
  exact absurd (hafter _ hm) (by decide)

def WovenFrom : (inside : Bool) → List Char → Prop
  | false, ds => Woven ds
  | true, ds => ∃ name rest, ds = name ++ '\x7d' :: rest ∧ IsName name ∧ Woven rest

theorem head?_cleanseFrom (h : cleanseFrom false cs = some ds) : ds.head? = cs.head? := by
  rw [cleanseFrom.eq_def] at h
  split at h <;> grind [Option.map_eq_some_iff]

theorem isBlank_cleanseFrom (h : cleanseFrom inside cs = some ds) :
    ds.map Text.isBlank = cs.map Text.isBlank := by
  fun_induction cleanseFrom inside cs generalizing ds with
  | case3 =>
    cases h
    rfl
  | case5 c cs hne ih =>
    obtain ⟨ds, hd, rfl⟩ := Option.map_eq_some_iff.mp h
    rw [List.map_cons, List.map_cons, ih hd]
    split
    next hdot =>
      rw [hdot]
      rfl
    next => rfl
  | case6 => cases h
  | case1 cs ih | case2 _ cs _ ih | case4 cs ih =>
    obtain ⟨ds, hd, rfl⟩ := Option.map_eq_some_iff.mp h
    simp [ih hd]

theorem woven_cleanseFrom (he : Enclosed cs) (hc : inside = true → Closes cs) :
    ∃ ds, cleanseFrom inside cs = some ds ∧ WovenFrom inside ds := by
  fun_induction cleanseFrom inside cs with
  | case1 cs ih =>
    obtain ⟨ds, hd, name, rest, rfl, hname, hrest⟩ := ih he.of_cons.of_cons fun _ => he [] cs rfl
    exact ⟨_, by simp [hd], .hole hname hrest⟩
  | case2 c cs hne ih =>
    obtain ⟨ds, hd, hw⟩ := ih he.of_cons nofun
    refine ⟨c :: ds, by simp [hd], .char ?_ hw⟩
    intro hdollar hbrace
    rw [head?_cleanseFrom hd, List.head?_eq_some_iff] at hbrace
    obtain ⟨cs', rfl⟩ := hbrace
    exact hne cs' hdollar rfl
  | case3 => exact ⟨[], rfl, .nil⟩
  | case4 cs ih =>
    obtain ⟨ds, hd, hw⟩ := ih he.of_cons nofun
    exact ⟨'\x7d' :: ds, by simp [hd], [], ds, rfl, nofun, hw⟩
  | case5 c cs hne ih =>
    obtain ⟨hopen, hclose, hcs⟩ := (closes_cons_iff.mp (hc rfl)).resolve_left hne
    obtain ⟨ds, hd, name, rest, rfl, hname, hrest⟩ := ih he.of_cons fun _ => hcs
    refine ⟨_, by simp [hd], (if c = '.' then '_' else c) :: name, rest, rfl, ?_, hrest⟩
    apply List.forall_mem_cons.mpr ⟨_, hname⟩
    split
    · decide
    next hdot => exact ⟨hne, by simp [isMark, hdot, hopen, hclose]⟩
  | case6 =>
    obtain ⟨name, rest, hcs, -⟩ := hc rfl
    simp at hcs

theorem cleanseFrom_name (h : IsName name) :
    cleanseFrom true (name ++ '\x7d' :: cs) =
      (cleanseFrom false cs).map (name ++ '\x7d' :: ·) := by
  induction name with
  | nil => rfl
  | cons c name ih =>
    obtain ⟨⟨hc, hm⟩, hname⟩ := List.forall_mem_cons.mp h
    rw [List.cons_append, cleanseFrom.eq_5 _ _ hc, ih hname, Option.map_map, if_neg]
    · rfl
    · rintro rfl
      simp [isMark] at hm

theorem Woven.cleanse_eq_self (h : Woven cs) : cleanse cs = cs := by
  suffices cleanseFrom false cs = some cs by rw [cleanse, this, Option.getD_some]
  induction h with
  | nil => rfl
  | char hc _ ih =>
    rw [cleanseFrom.eq_2, ih, Option.map_some]
    rintro ds rfl rfl
    exact hc rfl rfl
  | hole hname _ ih => simp [cleanseFrom, cleanseFrom_name hname, ih]

theorem substituteFrom_char (h : c = '$' → cs.head? ≠ some '\x7b') :
    substituteFrom vars none (c :: cs) = c :: substituteFrom vars none cs := by
  rw [substituteFrom.eq_2]
  rintro ds rfl rfl
  exact h rfl rfl

theorem substituteFrom_name {read : List Char} (h : IsName name) :
    substituteFrom vars (some read) (name ++ '\x7d' :: cs) =
      replacement vars (read.reverse ++ name) ++ substituteFrom vars none cs := by
  induction name generalizing read with
  | nil => simp [substituteFrom]
  | cons c name ih =>
    obtain ⟨⟨hc, -⟩, hname⟩ := List.forall_mem_cons.mp h
    rw [List.cons_append, substituteFrom.eq_5 _ _ _ _ hc, ih hname]
    simp

theorem substituteFrom_hole (h : IsName name) :
    substituteFrom vars none ('$' :: '\x7b' :: (name ++ '\x7d' :: cs)) =
      replacement vars name ++ substituteFrom vars none cs := by
  rw [substituteFrom, substituteFrom_name h]
  rfl

/-- What may stand in the place of a placeholder: the placeholder itself, or a word. -/
inductive Fills (name : List Char) : List Char → Prop
  | verbatim : Fills name ('$' :: '\x7b' :: (name ++ ['\x7d']))
  | word {d ds} : (∀ c ∈ d :: ds, isWord c) → Fills name (d :: ds)

theorem fills_replacement (hv : vars.Wordy) (name : List Char) :
    Fills name (replacement vars name) := by
  simp only [replacement]
  split
  · exact .verbatim
  · split
    next value hvalue =>
      obtain ⟨hne, hw⟩ := hv _ _ hvalue
      cases hcs : value.toList with
      | nil => exact absurd (String.toList_eq_nil_iff.mp hcs) hne
      | cons c cs => exact .word (hcs ▸ hw)
    · exact .verbatim

theorem exists_fills (hv : vars.Wordy) (h : IsName name) (cs : List Char) :
    ∃ ds, Fills name ds ∧ substituteFrom vars none ('$' :: '\x7b' :: (name ++ '\x7d' :: cs)) =
      ds ++ substituteFrom vars none cs :=
  ⟨_, fills_replacement hv name, substituteFrom_hole h⟩

theorem Woven.append (hw : ∀ c ∈ ds, isWord c) (h : Woven cs) : Woven (ds ++ cs) := by
  induction ds with
  | nil => exact h
  | cons d ds ih =>
    obtain ⟨hd, hds⟩ := List.forall_mem_cons.mp hw
    apply Woven.char _ (ih hds)
    intro hdollar
    exact absurd hdollar (Path.ne_of_isWord hd rfl)

theorem Woven.head?_of_substitute (h : Woven cs) (hv : vars.Wordy) (hc : isWord c = false)
    (hs : (substituteFrom vars none cs).head? = some c) : cs.head? = some c := by
  cases h with
  | nil => exact hs
  | char hd _ => simpa [substituteFrom_char hd] using hs
  | hole hname _ =>
    obtain ⟨ds, hds, heq⟩ := exists_fills hv hname _
    rw [heq] at hs
    cases hds with
    | verbatim => simpa using hs
    | word hw =>
      obtain rfl := Option.some.inj hs
      simp [hw] at hc

theorem Woven.substitute_eq_nil (h : Woven cs) (hv : vars.Wordy)
    (hs : substituteFrom vars none cs = []) : cs = [] := by
  cases h with
  | nil => rfl
  | char hd _ => simp [substituteFrom_char hd] at hs
  | hole hname _ =>
    obtain ⟨ds, hds, heq⟩ := exists_fills hv hname _
    rw [heq] at hs
    cases hds <;> simp at hs

theorem Woven.getLast?_append (h : Woven cs) (hv : vars.Wordy)
    (hcs : (substituteFrom vars none cs).getLast? = some c → cs.getLast? = some c)
    (hds : ds.getLast? = some c → before.getLast? = some c)
    (hs : (ds ++ substituteFrom vars none cs).getLast? = some c) :
    (before ++ cs).getLast? = some c := by
  rw [List.getLast?_append, Option.or_eq_some_iff] at hs
  rcases hs with hs | ⟨hnil, hs⟩
  · simp [List.getLast?_append, hcs hs]
  · rw [List.getLast?_eq_none_iff] at hnil
    simp [h.substitute_eq_nil hv hnil, hds hs]

theorem Woven.getLast?_of_substitute (h : Woven cs) (hv : vars.Wordy) (hc : isWord c = false)
    (hs : (substituteFrom vars none cs).getLast? = some c) : cs.getLast? = some c := by
  induction h with
  | nil => exact hs
  | @char d cs hd hw ih =>
    rw [substituteFrom_char hd] at hs
    have happend : ([d] ++ cs).getLast? = some c := hw.getLast?_append hv ih id hs
    exact happend
  | @hole name cs hname hw ih =>
    obtain ⟨ds, hds, heq⟩ := exists_fills hv hname cs
    rw [heq] at hs
    suffices (('$' :: '\x7b' :: (name ++ ['\x7d'])) ++ cs).getLast? = some c by simpa using this
    apply hw.getLast?_append hv ih _ hs
    intro hlast
    cases hds with
    | verbatim => exact hlast
    | word hword => simp [hword c (List.mem_of_getLast? hlast)] at hc

theorem Woven.substitute (h : Woven cs) (hv : vars.Wordy) : Woven (substituteFrom vars none cs) := by
  induction h with
  | nil => exact .nil
  | char hc hcs ih =>
    rw [substituteFrom_char hc]
    apply Woven.char _ ih
    intro hdollar hbrace
    exact hc hdollar (hcs.head?_of_substitute hv rfl hbrace)
  | hole hname _ ih =>
    obtain ⟨ds, hds, heq⟩ := exists_fills hv hname _
    rw [heq]
    cases hds with
    | verbatim => simpa using ih.hole hname
    | word hw => exact ih.append hw

theorem Woven.mem_of_substitute (h : Woven cs) (hv : vars.Wordy) (hc : isMark c)
    (hm : c ∈ substituteFrom vars none cs) : c ∈ cs := by
  induction h with
  | nil => exact hm
  | char hd _ ih =>
    rw [substituteFrom_char hd, List.mem_cons] at hm
    rw [List.mem_cons]
    exact hm.imp_right ih
  | @hole name cs hname _ ih =>
    obtain ⟨ds, hds, heq⟩ := exists_fills hv hname cs
    rw [heq, List.mem_append] at hm
    suffices c ∈ ('$' :: '\x7b' :: (name ++ ['\x7d'])) ++ cs by simpa using this
    apply List.mem_append.mpr (hm.imp _ ih)
    intro hm
    cases hds with
    | verbatim => exact hm
    | word hw => simp [isMark_of_isWord (hw c hm)] at hc

theorem Woven.cut (h : Woven (before ++ c :: after)) (hc : isMark c) :
    Woven before ∧ Woven after ∧ substituteFrom vars none (before ++ c :: after) =
      substituteFrom vars none before ++ c :: substituteFrom vars none after := by
  generalize hcs : before ++ c :: after = cs at h
  induction h generalizing before with
  | nil => simp at hcs
  | @char d cs hd hw ih =>
    rw [substituteFrom_char hd]
    cases before with
    | nil =>
      obtain ⟨rfl, rfl⟩ := List.cons.inj hcs
      exact ⟨.nil, hw, rfl⟩
    | cons d before =>
      obtain ⟨rfl, rfl⟩ := List.cons.inj hcs
      obtain ⟨hbefore, hafter, heq⟩ := ih rfl
      have hd' : d = '$' → before.head? ≠ some '\x7b' := by
        intro hdollar
        cases before <;> simp_all
      rw [heq, substituteFrom_char hd']
      exact ⟨.char hd' hbefore, hafter, rfl⟩
  | @hole name cs hname hw ih =>
    have hnot : c ∉ '$' :: '\x7b' :: (name ++ ['\x7d']) := by
      intro hm
      simp only [List.mem_cons, List.mem_append, List.not_mem_nil, or_false] at hm
      rcases hm with rfl | rfl | hm | rfl
      · cases hc
      · cases hc
      · simp [(hname c hm).2] at hc
      · cases hc
    obtain ⟨inner, rfl, rfl⟩ : ∃ inner, before = '$' :: '\x7b' :: (name ++ '\x7d' :: inner) ∧
        cs = inner ++ c :: after := by
      have hcs' : before ++ c :: after = ('$' :: '\x7b' :: (name ++ ['\x7d'])) ++ cs := by
        simp [hcs]
      rcases List.append_eq_append_iff.mp hcs' with ⟨mid, hmid, hafter⟩ | ⟨inner, rfl, hinner⟩
      · cases mid with
        | nil => exact ⟨[], by simpa using hmid.symm, hafter.symm⟩
        | cons d mid =>
          obtain ⟨rfl, -⟩ := List.cons.inj hafter
          simp [hmid] at hnot
      · exact ⟨inner, by simp, hinner⟩
    obtain ⟨hbefore, hafter, heq⟩ := ih rfl
    rw [substituteFrom_hole hname, heq, substituteFrom_hole hname, List.append_assoc]
    exact ⟨.hole hname hbefore, hafter, rfl⟩

end Placeholder

end AvroColumns
