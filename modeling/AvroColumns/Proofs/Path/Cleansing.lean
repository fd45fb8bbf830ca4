import AvroColumns.Proofs.Path.Lookups

namespace AvroColumns.Placeholder

open Place

/-- Reading from left to right, and on behind every closing brace, an opening is met: what stands in front
of it, and what behind it. -/
inductive Meets : List Char → List Char → List Char → Prop
  | first {before rest} : ¬ ['$', '\x7b'] <:+: before →
      Meets (before ++ '$' :: '\x7b' :: rest) before rest
  | next {head name cs before rest} : ¬ ['$', '\x7b'] <:+: head → '\x7d' ∉ name →
      Meets cs before rest →
      Meets (head ++ '$' :: '\x7b' :: (name ++ '\x7d' :: cs))
        (head ++ '$' :: '\x7b' :: (name ++ '\x7d' :: before)) rest

/-- Some opening that is met has no closing brace behind it. -/
def LeftOpen (cs : List Char) : Prop :=
  ∃ before rest, Meets cs before rest ∧ '\x7d' ∉ rest

/-- The position is in the name of a placeholder that is met: behind an opening, and before the first
brace to close it. -/
def Within (cs : List Char) (p : Nat) : Prop :=
  ∃ before name after, Meets cs before (name ++ '\x7d' :: after) ∧ '\x7d' ∉ name ∧
    before.length + 2 ≤ p ∧ p < before.length + 2 + name.length

variable {cs before rest : List Char} {p : Nat} {c : Char}

theorem scan_ne_inside (h : ¬ ['$', '\x7b'] <:+: cs) : outside.scan cs ≠ .inside := by
  intro hs
  obtain ⟨before, rest, rfl, -⟩ := scan_eq_inside_iff.mp hs
  exact h ⟨before, rest, by simp⟩

theorem exists_first (h : ['$', '\x7b'] <:+: cs) :
    ∃ head rest, cs = head ++ '$' :: '\x7b' :: rest ∧ ¬ ['$', '\x7b'] <:+: head := by
  induction cs with
  | nil => simp at h
  | cons c cs ih =>
    rcases List.infix_cons_iff.mp h with ⟨rest, hrest⟩ | h
    · exact ⟨[], rest, by simpa using hrest.symm, by simp⟩
    · obtain ⟨head, rest, rfl, hhead⟩ := ih h
      by_cases hc : ['$', '\x7b'] <:+: c :: head
      · rcases List.infix_cons_iff.mp hc with ⟨more, hmore⟩ | hc
        · refine ⟨[], more ++ '$' :: '\x7b' :: rest, ?_, by simp⟩
          rw [← List.cons_append, ← hmore]
          rfl
        · exact absurd hc hhead
      · exact ⟨c :: head, rest, rfl, hc⟩

theorem meets_iff : Meets cs before rest ↔
    cs = before ++ '$' :: '\x7b' :: rest ∧ outside.scan before ≠ .inside := by
  constructor
  · intro h
    induction h with
    | first hfirst => exact ⟨rfl, scan_ne_inside hfirst⟩
    | next hhead hname _ ih =>
      obtain ⟨rfl, hbefore⟩ := ih
      refine ⟨by simp, ?_⟩
      simpa [scan_ne_inside hhead, hname] using hbefore
  · rintro ⟨rfl, hbefore⟩
    induction hn : before.length using Nat.strongRecOn generalizing before with
    | ind n ih =>
      by_cases hinfix : ['$', '\x7b'] <:+: before
      · obtain ⟨head, tail, rfl, hhead⟩ := exists_first hinfix
        rw [scan_append, scan_open (scan_ne_inside hhead)] at hbefore
        have hclose : '\x7d' ∈ tail := by
          by_contra hnot
          exact hbefore (scan_inside hnot)
        obtain ⟨name, before, rfl, hname⟩ := List.eq_append_cons_of_mem hclose
        rw [scan_closed hname] at hbefore
        have := Meets.next hhead hname (ih before.length (by simp [← hn]; omega) hbefore rfl)
        simpa using this
      · exact .first hinfix

theorem leftOpen_iff : LeftOpen cs ↔ outside.scan cs = .inside := by
  simp only [LeftOpen, meets_iff, scan_eq_inside_iff, and_assoc]

theorem within_iff (h : ¬ LeftOpen cs) :
    Within cs p ↔ outside.scan (cs.take p) = .inside ∧ ∃ c, cs[p]? = some c ∧ c ≠ '\x7d' := by
  constructor
  · rintro ⟨before, name, after, hmeets, hname, hp, hlt⟩
    obtain ⟨rfl, hbefore⟩ := meets_iff.mp hmeets
    obtain ⟨i, rfl⟩ : ∃ i, p = before.length + (i + 2) := ⟨p - before.length - 2, by omega⟩
    have hi : i < name.length := by omega
    have htake : (before ++ '$' :: '\x7b' :: (name ++ '\x7d' :: after)).take (before.length + (i + 2)) =
        before ++ '$' :: '\x7b' :: name.take i := by
      rw [List.take_length_add_append]
      simp [List.take_append_of_le_length (Nat.le_of_lt hi)]
    refine ⟨?_, name[i], ?_, ?_⟩
    · rw [htake, scan_append, scan_open hbefore, scan_inside]
      exact fun hm => hname (List.mem_of_mem_take hm)
    · rw [List.getElem?_append_right (by omega)]
      simp [List.getElem?_append_left hi]
    · exact fun hc => hname (hc ▸ List.getElem_mem hi)
  · rintro ⟨hs, c, hc, hne⟩
    obtain ⟨before, front, htake, hbefore, hfront⟩ := scan_eq_inside_iff.mp hs
    have hlt : p < cs.length := (List.getElem?_eq_some_iff.mp hc).1
    have hcs : cs = before ++ '$' :: '\x7b' :: (front ++ cs.drop p) := by
      simpa [htake] using (List.take_append_drop p cs).symm
    have hclose : '\x7d' ∈ cs.drop p := by
      by_contra hnot
      apply h
      rw [leftOpen_iff, ← List.take_append_drop p cs, scan_append, hs, scan_inside hnot]
    obtain ⟨back, after, hdrop, hback⟩ := List.eq_append_cons_of_mem hclose
    have hpos : 0 < back.length := by
      rw [List.length_pos_iff]
      rintro rfl
      have : cs[p]? = some '\x7d' := by
        rw [← List.head?_drop, hdrop]
        rfl
      exact hne (Option.some.inj (hc.symm.trans this))
    have hlength : p = before.length + 2 + front.length := by
      have := congrArg List.length htake
      simp only [List.length_take, List.length_append, List.length_cons] at this
      omega
    refine ⟨before, front ++ back, after, meets_iff.mpr ⟨?_, hbefore⟩, by simp [hfront, hback], by omega, ?_⟩
    · rw [hcs, hdrop]
      simp
    · rw [List.length_append]
      omega

instance (cs : List Char) : Decidable (LeftOpen cs) :=
  decidable_of_iff _ leftOpen_iff.symm

@[simp] theorem cleanse_of_leftOpen (h : LeftOpen cs) : cleanse cs = cs :=
  cleanse_eq_self_iff.mpr (.inl (leftOpen_iff.mp h))

@[simp] theorem cleanse_of_not_leftOpen (h : ¬ LeftOpen cs) : cleanse cs = outside.shield cs := by
  rw [cleanse_eq, if_neg fun hs => h (leftOpen_iff.mpr hs)]

@[simp] theorem leftOpen_cleanse (cs : List Char) : LeftOpen (cleanse cs) ↔ LeftOpen cs := by
  by_cases h : LeftOpen cs
  · simp [h]
  · rw [cleanse_of_not_leftOpen h, leftOpen_iff, scan_shield, leftOpen_iff]

theorem getElem?_cleanse_dot (h : ¬ LeftOpen cs) (hp : Within cs p) (hc : cs[p]? = some '.') :
    (cleanse cs)[p]? = some '_' := by
  simp [h, hc, ((within_iff h).mp hp).1]

theorem getElem?_cleanse (hp : ¬ (Within cs p ∧ cs[p]? = some '.')) : (cleanse cs)[p]? = cs[p]? := by
  by_cases h : LeftOpen cs
  · simp [h]
  · rw [cleanse_of_not_leftOpen h, getElem?_shield]
    cases hc : cs[p]? with
    | none => rfl
    | some c =>
      rw [Option.map_some, if_neg]
      rintro ⟨hs, rfl⟩
      exact hp ⟨(within_iff h).mpr ⟨hs, '.', hc, by decide⟩, hc⟩

theorem within_cleanse_iff (h : ¬ LeftOpen cs) : Within (cleanse cs) p ↔ Within cs p := by
  rw [within_iff (by simpa using h), within_iff h, cleanse_of_not_leftOpen h, take_shield, scan_shield,
    getElem?_shield]
  refine and_congr_right fun hs => ?_
  -- neither a dot nor an underscore closes a placeholder
  cases cs[p]? with
  | none => rfl
  | some c => by_cases hc : c = '.' <;> simp [hs, hc]

/-- Cleansing writes the dots in names as underscores and changes nothing else, unless a placeholder is
left open. A path asks for the names in its placeholders that are not empty, and these have neither dots
nor closing braces. -/
theorem cleanse_shields :
    (∀ cs, (LeftOpen cs → cleanse cs = cs) ∧
      (¬ LeftOpen cs → ∀ p,
        (Within cs p ∧ cs[p]? = some '.' → (cleanse cs)[p]? = some '_') ∧
        (¬ (Within cs p ∧ cs[p]? = some '.') → (cleanse cs)[p]? = cs[p]?) ∧
        (Within (cleanse cs) p ↔ Within cs p) ∧
        (Within (cleanse cs) p → (cleanse cs)[p]? ≠ some '.')) ∧
      cleanse (cleanse cs) = cleanse cs ∧ (cleanse cs).length = cs.length) ∧
    ∀ raw path, Path.compile raw = .ok path → ∀ name, (path.Asks name ↔ name ∈ path.asked) ∧
      (path.Asks name → name ≠ "" ∧ '.' ∉ name.toList ∧ '\x7d' ∉ name.toList) := by
  constructor
  · intro cs
    refine ⟨cleanse_of_leftOpen, ?_, cleanse_cleanse cs, length_cleanse cs⟩
    intro h p
    refine ⟨fun ⟨hp, hc⟩ => getElem?_cleanse_dot h hp hc, getElem?_cleanse, within_cleanse_iff h, ?_⟩
    intro hp hdot
    rw [within_cleanse_iff h] at hp
    by_cases hc : cs[p]? = some '.'
    · simp [getElem?_cleanse_dot h hp hc] at hdot
    · rw [getElem?_cleanse fun hboth => hc hboth.2] at hdot
      exact hc hdot
  · intro raw path h name
    exact ⟨Path.asks_iff h, Path.clean_of_asks h⟩

def nestedHole : Path :=
  ⟨"a.$\x7bx.$\x7by.z\x7d[$\x7b\x7d]", .record, [.member "a", .member "$\x7bx_$\x7by_z\x7d", .key "$\x7b\x7d"]⟩

theorem cleanse_shields_nestedHole :
    (LeftOpen "a.$\x7bx.y\x7d.$\x7bz".toList ∧
      cleanse "a.$\x7bx.y\x7d.$\x7bz".toList = "a.$\x7bx.y\x7d.$\x7bz".toList) ∧
    ¬ LeftOpen nestedHole.raw.toList ∧
    (Within nestedHole.raw.toList 5 ∧ nestedHole.raw.toList[5]? = some '.' ∧
      (cleanse nestedHole.raw.toList)[5]? = some '_') ∧
    (nestedHole.raw.toList[1]? = some '.' ∧ (cleanse nestedHole.raw.toList)[1]? = some '.') ∧
    Path.compile nestedHole.raw = .ok nestedHole ∧ nestedHole.Asks "x_$\x7by_z" ∧
      "x_$\x7by_z" ≠ "" ∧ '.' ∉ "x_$\x7by_z".toList ∧ '\x7d' ∉ "x_$\x7by_z".toList := by
  have hleft : LeftOpen "a.$\x7bx.y\x7d.$\x7bz".toList := by decide
  have hopen : ¬ LeftOpen nestedHole.raw.toList := by decide
  have hwithin : Within nestedHole.raw.toList 5 := (within_iff hopen).mpr ⟨by decide, '.', by decide⟩
  have hout : ¬ Within nestedHole.raw.toList 1 := by
    rw [within_iff hopen]
    exact fun h => absurd h.1 (by decide)
  have hcompile : Path.compile nestedHole.raw = .ok nestedHole := by decide +kernel
  obtain ⟨htexts, hpaths⟩ := cleanse_shields
  have hasks : nestedHole.Asks "x_$\x7by_z" :=
    (hpaths _ _ hcompile _).1.mpr (by decide +kernel)
  have hposition := (htexts nestedHole.raw.toList).2.1 hopen
  refine ⟨⟨hleft, (htexts _).1 hleft⟩, hopen, ⟨hwithin, by decide, ?_⟩, ⟨by decide, ?_⟩, hcompile, hasks,
    (hpaths _ _ hcompile _).2 hasks⟩
  · exact (hposition 5).1 ⟨hwithin, by decide⟩
  · exact ((hposition 1).2.1 fun h => hout h.1).trans (by decide)

end AvroColumns.Placeholder
