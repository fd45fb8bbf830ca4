import AvroColumns.Proofs.Path.Rendering

namespace AvroColumns

namespace Placeholder

variable {vars vars' : Variables} {read : Option (List Char)} {cs : List Char} {name : String}

def opened : Option (List Char) → List Char
  | none => []
  | some name => '$' :: '\x7b' :: name.reverse

@[simp] theorem opened_none : opened none = [] := rfl

@[simp] theorem opened_some (name : List Char) :
    opened (some name) = '$' :: '\x7b' :: name.reverse :=
  rfl

theorem replacement_congr {title : List Char}
    (h : String.ofList title ≠ "" → vars (String.ofList title) = vars' (String.ofList title)) :
    replacement vars title = replacement vars' title := by
  simp only [replacement]
  split
  · rfl
  next hne => rw [h (by simpa using hne)]

theorem substituteFrom_congr (h : ∀ name ∈ namesFrom read cs, name ≠ "" → vars name = vars' name) :
    substituteFrom vars read cs = substituteFrom vars' read cs := by
  fun_induction namesFrom read cs with
  | case1 cs ih => exact ih h
  | case2 c cs hne ih => rw [substituteFrom.eq_2 _ _ _ hne, substituteFrom.eq_2 _ _ _ hne, ih h]
  | case3 name cs ih =>
    obtain ⟨hname, hrest⟩ := List.forall_mem_cons.mp h
    rw [substituteFrom, substituteFrom, ih hrest, replacement_congr hname]
  | case4 name c cs hne ih => rw [substituteFrom.eq_5 _ _ _ _ hne, substituteFrom.eq_5 _ _ _ _ hne, ih h]
  | case5 read => cases read <;> rfl

@[simp] theorem replacement_none (title : List Char) :
    replacement Variables.none title = '$' :: '\x7b' :: (title ++ ['\x7d']) := by
  simp [replacement, Variables.none]

@[simp] theorem substituteFrom_none (read : Option (List Char)) (cs : List Char) :
    substituteFrom Variables.none read cs = opened read ++ cs := by
  fun_induction namesFrom read cs with
  | case1 cs ih => simp [substituteFrom, ih]
  | case2 c cs hne ih => simp [substituteFrom.eq_2 _ _ _ hne, ih]
  | case3 name cs ih => simp [substituteFrom, ih]
  | case4 name c cs hne ih => simp [substituteFrom.eq_5 _ _ _ _ hne, ih]
  | case5 read => cases read <;> simp [substituteFrom]

@[simp] theorem substitute_none (text : String) : substitute Variables.none text = text := by
  simp [substitute]

def blanking (name : String) : Variables :=
  fun other => if other = name then some "" else none

theorem length_replacement_blanking (hne : name ≠ "") (title : List Char) :
    (replacement (blanking name) title).length +
        (if String.ofList title = name then name.length + 3 else 0) = title.length + 3 := by
  by_cases h : String.ofList title = name
  · subst h
    have htitle : title ≠ [] := by
      rintro rfl
      exact hne rfl
    simp [replacement, blanking, htitle]
  · simp [replacement, blanking, h]

theorem length_substituteFrom_blanking (hne : name ≠ "") (read : Option (List Char))
    (cs : List Char) :
    (substituteFrom (blanking name) read cs).length +
        (namesFrom read cs).count name * (name.length + 3) = (opened read).length + cs.length := by
  fun_induction namesFrom read cs with
  | case1 cs ih =>
    rw [substituteFrom, ih]
    simp only [opened, List.reverse_nil, List.length_cons, List.length_nil]
    omega
  | case2 c cs hcs ih =>
    simp only [substituteFrom.eq_2 _ _ _ hcs, opened, List.length_cons, List.length_nil] at ih ⊢
    omega
  | case3 title cs ih =>
    have hreplaced := length_replacement_blanking hne title.reverse
    have hcount : (String.ofList title.reverse :: namesFrom none cs).count name * (name.length + 3) =
        (namesFrom none cs).count name * (name.length + 3) +
          if String.ofList title.reverse = name then name.length + 3 else 0 := by
      rw [List.count_cons, Nat.add_mul]
      by_cases h : String.ofList title.reverse = name <;> simp [h]
    rw [substituteFrom, hcount]
    simp only [opened, List.length_append, List.length_cons, List.length_nil,
      List.length_reverse] at hreplaced ih ⊢
    omega
  | case4 title c cs hcs ih =>
    rw [substituteFrom.eq_5 _ _ _ _ hcs, ih]
    simp only [opened, List.length_cons, List.length_reverse]
    omega
  | case5 read => cases read <;> simp [substituteFrom]

theorem substitute_blanking_ne {text : String} (hne : name ≠ "") (h : name ∈ names text) :
    substitute (blanking name) text ≠ text := by
  intro heq
  have hlength := length_substituteFrom_blanking hne none text.toList
  have hcount := List.count_pos_iff.mpr h
  have hchars := congrArg String.toList heq
  rw [substitute, String.toList_ofList] at hchars
  rw [hchars] at hlength
  have : 0 < (namesFrom none text.toList).count name * (name.length + 3) :=
    Nat.mul_pos hcount (by omega)
  simp only [opened, List.length_nil] at hlength
  omega

theorem forall_mem_namesFrom {P : Char → Prop} (hcs : ∀ c ∈ cs, c ≠ '\x7d' → P c)
    (hread : ∀ c ∈ read.getD [], P c) : ∀ name ∈ namesFrom read cs, ∀ c ∈ name.toList, P c := by
  fun_induction namesFrom read cs with
  | case1 cs ih =>
    simp only [List.forall_mem_cons] at hcs
    exact ih hcs.2.2 nofun
  | case2 c cs _ ih => exact ih (List.forall_mem_cons.mp hcs).2 hread
  | case3 name cs ih =>
    refine List.forall_mem_cons.mpr ⟨?_, ih (List.forall_mem_cons.mp hcs).2 nofun⟩
    simpa using hread
  | case4 name c cs hne ih =>
    obtain ⟨hc, hcs⟩ := List.forall_mem_cons.mp hcs
    exact ih hcs (List.forall_mem_cons.mpr ⟨hc hne, hread⟩)
  | case5 => nofun

theorem clean_of_mem_names {text : String} (h : '.' ∉ text.toList) (hn : name ∈ names text) :
    '.' ∉ name.toList ∧ '\x7d' ∉ name.toList := by
  have hclean : ∀ c ∈ name.toList, c ≠ '.' ∧ c ≠ '\x7d' := by
    refine forall_mem_namesFrom ?_ (by simp) name hn
    intro c hc hne
    exact ⟨fun hdot => h (hdot ▸ hc), hne⟩
  exact ⟨fun hm => (hclean _ hm).1 rfl, fun hm => (hclean _ hm).2 rfl⟩

end Placeholder

namespace Segment

variable {vars vars' : Variables} {s : Segment} {name : String}

def names : Segment → List String
  | .member title => Placeholder.names title
  | .key k => Placeholder.names k
  | _ => []

theorem bind_congr (h : ∀ name ∈ s.names, name ≠ "" → vars name = vars' name) :
    s.bind vars = s.bind vars' := by
  cases s with
  | member title | key k => simp only [bind, Placeholder.substitute, Placeholder.substituteFrom_congr h]
  | _ => rfl

theorem Canonical.bind_none (h : s.Canonical) : s.bind Variables.none = s := by
  cases h with
  | key hk => simp [bind, hk]
  | member title => simp
  | _ => rfl

theorem bind_blanking_ne (hne : name ≠ "") (h : name ∈ s.names) :
    s.bind (Placeholder.blanking name) ≠ s := by
  cases s with
  | member title => simpa using Placeholder.substitute_blanking_ne hne h
  | key k =>
    simp only [bind]
    split
    · simp
    · simpa using Placeholder.substitute_blanking_ne hne h
  | index i => cases h
  | wildcard => cases h

theorem Legible.dot_not_mem (h : s.Legible) : '.' ∉ s.chars.tail := by
  cases h with
  | member _ hd _ => exact hd
  | bracket hs _ hd _ => simp [hs, hd]

theorem Legible.clean_of_mem_names (h : s.Legible) (hn : name ∈ s.names) :
    '.' ∉ name.toList ∧ '\x7d' ∉ name.toList := by
  have hdot := h.dot_not_mem
  cases s with
  | member title => exact Placeholder.clean_of_mem_names hdot hn
  | key k => exact Placeholder.clean_of_mem_names (by simpa [chars] using hdot) hn
  | index i => cases hn
  | wildcard => cases hn

end Segment

namespace Path

variable {vars vars' : Variables} {p : Path} {raw name : String}

/-- Binding the path asks for the value of a name: what the path is bound to is not decided by the
values of other names. -/
def Asks (p : Path) (name : String) : Prop :=
  ∃ vars vars' : Variables, (∀ other, other ≠ name → vars other = vars' other) ∧
    p.bind vars ≠ p.bind vars'

/-- The names that stand in the placeholders of a path, one after the other. -/
def asked (p : Path) : List String :=
  (p.segments.flatMap Segment.names).filter (· ≠ "")

theorem mem_asked : name ∈ p.asked ↔ name ≠ "" ∧ ∃ s ∈ p.segments, name ∈ s.names := by
  simp [asked, and_comm]

theorem bind_congr (h : ∀ name ∈ p.asked, vars name = vars' name) : p.bind vars = p.bind vars' := by
  have hmap : p.segments.map (Segment.bind vars) = p.segments.map (Segment.bind vars') := by
    apply List.map_congr_left
    intro s hs
    exact Segment.bind_congr fun name hname hne => h name (mem_asked.mpr ⟨hne, s, hs, hname⟩)
  rw [bind, bind, hmap]

theorem asks_iff (h : compile raw = .ok p) : p.Asks name ↔ name ∈ p.asked := by
  constructor
  · rintro ⟨vars, vars', hagree, hne⟩
    by_contra hnot
    apply hne
    apply bind_congr
    intro other hother
    apply hagree
    rintro rfl
    exact hnot hother
  · intro hname
    obtain ⟨hne, s, hs, hname⟩ := mem_asked.mp hname
    have hcanonical := canonical_of_compile h
    refine ⟨Placeholder.blanking name, Variables.none, ?_, ?_⟩
    · intro other hother
      simp [Placeholder.blanking, Variables.none, hother]
    · intro heq
      have hsegments := congrArg BoundPath.segments heq
      rw [bind_segments hcanonical, bind_segments hcanonical, List.map_inj_left] at hsegments
      apply Segment.bind_blanking_ne hne hname
      rw [hsegments s hs, (hcanonical s hs).bind_none]

theorem clean_of_asks (h : compile raw = .ok p) (ha : p.Asks name) :
    name ≠ "" ∧ '.' ∉ name.toList ∧ '\x7d' ∉ name.toList := by
  obtain ⟨hne, s, hs, hname⟩ := mem_asked.mp ((asks_iff h).mp ha)
  exact ⟨hne, (legible_of_compile h s hs).clean_of_mem_names hname⟩

end Path

end AvroColumns
