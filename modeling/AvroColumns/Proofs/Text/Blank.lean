import Mathlib.Data.List.TakeWhile
import AvroColumns.Text.Blank

namespace AvroColumns.Text

variable {cs ds : List Char}

structure Trimmed (cs : List Char) : Prop where
  head : ∀ c ∈ cs.head?, isBlank c = false
  last : ∀ c ∈ cs.getLast?, isBlank c = false

theorem trimmed_of_forall (h : ∀ c ∈ cs, isBlank c = false) : Trimmed cs :=
  ⟨fun c hc => h c (List.mem_of_mem_head? hc), fun c hc => h c (List.mem_of_mem_getLast? hc)⟩

theorem dropWhile_isBlank_eq_self (h : ∀ c ∈ cs.head?, isBlank c = false) :
    cs.dropWhile isBlank = cs := by
  cases cs with
  | nil => rfl
  | cons c cs => simp [h c rfl]

theorem Trimmed.trimChars_eq_self (h : Trimmed cs) : trimChars cs = cs := by
  rw [trimChars, dropWhile_isBlank_eq_self h.head, dropWhile_isBlank_eq_self, List.reverse_reverse]
  simpa using h.last

theorem trimmed_trimChars (cs : List Char) : Trimmed (trimChars cs) := by
  have head (ds : List Char) : ∀ c ∈ (ds.dropWhile isBlank).head?, isBlank c = false := by
    intro c hc
    have := List.head?_dropWhile_not isBlank ds
    rwa [hc] at this
  constructor
  · intro c hc
    apply head cs c
    rw [trimChars, List.head?_reverse] at hc
    obtain ⟨after, hafter⟩ := List.dropWhile_suffix isBlank (l := (cs.dropWhile isBlank).reverse)
    rw [← List.getLast?_reverse, ← hafter, List.getLast?_append, hc]
    rfl
  · simpa [trimChars] using head (cs.dropWhile isBlank).reverse

theorem exists_trimChars (cs : List Char) :
    ∃ before after, cs = before ++ trimChars cs ++ after ∧
      (∀ c ∈ before, isBlank c) ∧ ∀ c ∈ after, isBlank c := by
  have blank (ds : List Char) : ∀ c ∈ ds.takeWhile isBlank, isBlank c :=
    List.all_eq_true.mp List.all_takeWhile
  let rest := cs.dropWhile isBlank
  refine ⟨cs.takeWhile isBlank, (rest.reverse.takeWhile isBlank).reverse, ?_, blank cs, ?_⟩
  · rw [trimChars, List.append_assoc, ← List.reverse_append, List.takeWhile_append_dropWhile,
      List.reverse_reverse, List.takeWhile_append_dropWhile]
  · simpa using blank rest.reverse

theorem trimChars_append {before core after : List Char} (hb : ∀ c ∈ before, isBlank c)
    (ha : ∀ c ∈ after, isBlank c) (hne : core ≠ []) (hc : Trimmed core) :
    trimChars (before ++ core ++ after) = core := by
  have hhead : (core ++ after).dropWhile isBlank = core ++ after := by
    apply dropWhile_isBlank_eq_self
    obtain ⟨c, core, rfl⟩ := List.exists_cons_of_ne_nil hne
    exact hc.head
  rw [trimChars, List.append_assoc, List.dropWhile_append_of_pos hb, hhead, List.reverse_append,
    List.dropWhile_append_of_pos (by simpa using ha), dropWhile_isBlank_eq_self (by simpa using hc.last),
    List.reverse_reverse]

@[simp] theorem trimChars_eq_nil_iff : trimChars cs = [] ↔ ∀ c ∈ cs, isBlank c := by
  constructor
  · intro h
    obtain ⟨before, after, hcs, hb, ha⟩ := exists_trimChars cs
    rw [h, List.append_nil] at hcs
    rw [hcs]
    exact List.forall_mem_append.mpr ⟨hb, ha⟩
  · intro h
    rw [trimChars, List.dropWhile_eq_nil_iff.mpr h]
    rfl

theorem Trimmed.of_map (h : Trimmed cs) (hm : ds.map isBlank = cs.map isBlank) : Trimmed ds := by
  have head : ds.head?.map isBlank = cs.head?.map isBlank := by
    rw [← List.head?_map, hm, List.head?_map]
  have last : ds.getLast?.map isBlank = cs.getLast?.map isBlank := by
    rw [← List.getLast?_map, hm, List.getLast?_map]
  constructor
  · intro c hc
    rw [hc] at head
    obtain ⟨d, hd, hcd⟩ := Option.map_eq_some_iff.mp head.symm
    rw [← hcd, h.head d hd]
  · intro c hc
    rw [hc] at last
    obtain ⟨d, hd, hcd⟩ := Option.map_eq_some_iff.mp last.symm
    rw [← hcd, h.last d hd]

end AvroColumns.Text
