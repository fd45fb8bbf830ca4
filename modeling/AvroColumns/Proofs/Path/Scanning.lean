import AvroColumns.Proofs.Path.Weaving
import Mathlib.Data.List.Induction

/-!
# Scanning for placeholders

A scan goes through a text character by character and knows whether it is in a placeholder. A text is
cleansed by its scan: the dots that are met in a placeholder are written as underscores, unless the scan
ends in one.
-/

namespace AvroColumns.Placeholder

inductive Place
  | outside
  | dollar
  | inside
  deriving DecidableEq, Repr

namespace Place

def next (s : Place) (c : Char) : Place :=
  match s with
  | .outside => if c = '$' then .dollar else .outside
  | .dollar => if c = '\x7b' then .inside else if c = '$' then .dollar else .outside
  | .inside => if c = '\x7d' then .outside else .inside

def scan (s : Place) (cs : List Char) : Place :=
  cs.foldl next s

def shield : Place → List Char → List Char
  | _, [] => []
  | s, c :: cs => (if s = .inside ∧ c = '.' then '_' else c) :: shield (s.next c) cs

variable {s : Place} {c : Char} {cs ds : List Char} {p : Nat}

@[simp] theorem shield_nil (s : Place) : s.shield [] = [] := rfl

@[simp] theorem shield_cons (s : Place) (c : Char) (cs : List Char) :
    s.shield (c :: cs) = (if s = .inside ∧ c = '.' then '_' else c) :: (s.next c).shield cs :=
  rfl

theorem next_eq_inside_iff : s.next c = .inside ↔ s = .inside ∧ c ≠ '\x7d' ∨ s = .dollar ∧ c = '\x7b' := by
  cases s with
  | outside => by_cases h : c = '$' <;> simp [next, h]
  | dollar => by_cases h : c = '\x7b' <;> by_cases h' : c = '$' <;> simp [next, h, h']
  | inside => by_cases h : c = '\x7d' <;> simp [next, h]

theorem next_eq_dollar_iff : s.next c = .dollar ↔ s ≠ .inside ∧ c = '$' := by
  cases s with
  | outside => by_cases h : c = '$' <;> simp [next, h]
  | dollar =>
    by_cases h : c = '\x7b'
    · subst h
      simp [next]
    · by_cases h' : c = '$' <;> simp [next, h, h']
  | inside => by_cases h : c = '\x7d' <;> simp [next, h]

@[simp] theorem next_dollar (h : s ≠ .inside) : s.next '$' = .dollar :=
  next_eq_dollar_iff.mpr ⟨h, rfl⟩

@[simp] theorem dollar_next_open : dollar.next '\x7b' = .inside := rfl

@[simp] theorem inside_next_close : inside.next '\x7d' = .outside := rfl

@[simp] theorem scan_nil (s : Place) : s.scan [] = s := rfl

@[simp] theorem scan_cons (s : Place) (c : Char) (cs : List Char) :
    s.scan (c :: cs) = (s.next c).scan cs := rfl

@[simp] theorem scan_append (s : Place) (cs ds : List Char) :
    s.scan (cs ++ ds) = (s.scan cs).scan ds :=
  List.foldl_append

@[simp] theorem scan_inside (h : '\x7d' ∉ cs) : inside.scan cs = .inside := by
  induction cs with
  | nil => rfl
  | cons c cs ih =>
    rw [List.mem_cons, not_or] at h
    rw [scan_cons, next, if_neg (Ne.symm h.1), ih h.2]

theorem scan_open (h : s ≠ .inside) (cs : List Char) :
    s.scan ('$' :: '\x7b' :: cs) = inside.scan cs := by
  simp [h]

theorem scan_closed (h : '\x7d' ∉ cs) (ds : List Char) :
    inside.scan (cs ++ '\x7d' :: ds) = outside.scan ds := by
  simp [h]

theorem scan_eq_inside_iff : outside.scan cs = .inside ↔ ∃ before rest,
    cs = before ++ '$' :: '\x7b' :: rest ∧ outside.scan before ≠ .inside ∧ '\x7d' ∉ rest := by
  constructor
  · intro h
    induction cs using List.reverseRecOn with
    | nil => cases h
    | append_singleton cs c ih =>
      rw [scan_append, scan_cons, scan_nil, next_eq_inside_iff] at h
      rcases h with ⟨h, hc⟩ | ⟨h, rfl⟩
      · obtain ⟨before, rest, rfl, hbefore, hrest⟩ := ih h
        exact ⟨before, rest ++ [c], by simp, hbefore, by simp [hrest, Ne.symm hc]⟩
      · obtain rfl | ⟨before, d, rfl⟩ := List.eq_nil_or_concat cs
        · cases h
        · rw [List.concat_eq_append, scan_append, scan_cons, scan_nil, next_eq_dollar_iff] at h
          obtain ⟨hbefore, rfl⟩ := h
          exact ⟨before, [], by simp, hbefore, nofun⟩
  · rintro ⟨before, rest, rfl, hbefore, hrest⟩
    simp [hbefore, hrest]

@[simp] theorem shield_append (s : Place) (cs ds : List Char) :
    s.shield (cs ++ ds) = s.shield cs ++ (s.scan cs).shield ds := by
  induction cs generalizing s with
  | nil => simp
  | cons c cs ih => simp [ih]

@[simp] theorem length_shield (s : Place) (cs : List Char) : (s.shield cs).length = cs.length := by
  induction cs generalizing s with
  | nil => simp
  | cons c cs ih => simp [ih]

theorem shield_append_eq_iff (s : Place) (cs ds : List Char) :
    s.shield (cs ++ ds) = cs ++ ds ↔ s.shield cs = cs ∧ (s.scan cs).shield ds = ds := by
  rw [shield_append]
  constructor
  · exact fun h => List.append_inj h (by simp)
  · rintro ⟨hcs, hds⟩
    rw [hcs, hds]

@[simp] theorem next_shield (s : Place) (c : Char) :
    s.next (if s = .inside ∧ c = '.' then '_' else c) = s.next c := by
  split
  next h =>
    obtain ⟨rfl, rfl⟩ := h
    rfl
  next => rfl

@[simp] theorem scan_shield (s : Place) (cs : List Char) : s.scan (s.shield cs) = s.scan cs := by
  induction cs generalizing s with
  | nil => simp
  | cons c cs ih => simp [ih]

@[simp] theorem shield_shield (s : Place) (cs : List Char) :
    s.shield (s.shield cs) = s.shield cs := by
  induction cs generalizing s with
  | nil => rfl
  | cons c cs ih =>
    simp only [shield_cons, next_shield, ih, List.cons.injEq, and_true]
    split <;> simp_all

@[simp] theorem take_shield (s : Place) (cs : List Char) (p : Nat) :
    (s.shield cs).take p = s.shield (cs.take p) := by
  induction cs generalizing s p with
  | nil => simp
  | cons c cs ih => cases p <;> simp [ih]

@[simp] theorem getElem?_shield (s : Place) (cs : List Char) (p : Nat) :
    (s.shield cs)[p]? =
      cs[p]?.map fun c => if s.scan (cs.take p) = .inside ∧ c = '.' then '_' else c := by
  induction cs generalizing s p with
  | nil => simp
  | cons c cs ih =>
    cases p with
    | zero => rfl
    | succ p =>
      rw [shield_cons, List.getElem?_cons_succ, ih]
      rfl

end Place

open Place

variable {cs : List Char}

theorem cleanseFrom_eq {s : Place} (hs : s = .dollar → cs.head? ≠ some '\x7b') :
    cleanseFrom (s == .inside) cs =
      if s.scan cs = .inside then none else some (s.shield cs) := by
  have map_cons (c : Char) (s : Place) (cs : List Char) :
      (if s.scan cs = .inside then none else some (s.shield cs)).map (c :: ·) =
        if s.scan cs = .inside then none else some (c :: s.shield cs) := by
    split <;> rfl
  generalize hb : (s == Place.inside) = b
  fun_induction cleanseFrom b cs generalizing s with
  | case1 cs ih =>
    have hout : s ≠ .inside := by simpa using hb
    have hshield : s.shield ('$' :: '\x7b' :: cs) = '$' :: '\x7b' :: inside.shield cs := by
      cases s with
      | inside => exact absurd rfl hout
      | _ => rfl
    rw [ih (s := .inside) (by simp) rfl, scan_open hout, hshield]
    split <;> rfl
  | case2 c cs hne ih =>
    have hout : s ≠ .inside := by simpa using hb
    have hnext : s.next c ≠ .inside := by
      rw [Ne, next_eq_inside_iff, not_or]
      refine ⟨fun h => hout h.1, ?_⟩
      rintro ⟨rfl, rfl⟩
      exact hs rfl rfl
    have hhead : s.next c = .dollar → cs.head? ≠ some '\x7b' := by
      intro hdollar hbrace
      obtain ⟨ds, rfl⟩ := List.head?_eq_some_iff.mp hbrace
      exact hne ds (next_eq_dollar_iff.mp hdollar).2 rfl
    have hc : (if s = .inside ∧ c = '.' then '_' else c) = c := if_neg fun h => hout h.1
    rw [ih hhead (by simpa using hnext), map_cons, scan_cons, shield_cons, hc]
  | case3 =>
    have hout : s ≠ .inside := by simpa using hb
    simp [hout]
  | case4 cs ih =>
    obtain rfl : s = .inside := by simpa using hb
    rw [ih (s := .outside) (by simp) rfl, map_cons]
    rfl
  | case5 c cs hne ih =>
    obtain rfl : s = .inside := by simpa using hb
    have hnext : inside.next c = .inside := next_eq_inside_iff.mpr (.inl ⟨rfl, hne⟩)
    rw [ih (s := .inside) (by simp) rfl, map_cons, scan_cons, shield_cons, hnext]
    simp
  | case6 =>
    obtain rfl : s = .inside := by simpa using hb
    rfl

theorem cleanse_eq (cs : List Char) :
    cleanse cs = if outside.scan cs = .inside then cs else outside.shield cs := by
  have h : cleanseFrom false cs = _ := cleanseFrom_eq (s := .outside) nofun
  rw [cleanse, h]
  split <;> rfl

theorem cleanse_eq_self_iff : cleanse cs = cs ↔ outside.scan cs = .inside ∨ outside.shield cs = cs := by
  rw [cleanse_eq]
  split <;> simp_all

@[simp] theorem cleanse_cleanse (cs : List Char) : cleanse (cleanse cs) = cleanse cs := by
  rw [cleanse_eq_self_iff, cleanse_eq]
  split
  next h => exact .inl h
  next => exact .inr (shield_shield _ _)

@[simp] theorem length_cleanse (cs : List Char) : (cleanse cs).length = cs.length := by
  rw [cleanse_eq]
  split <;> simp

end AvroColumns.Placeholder
