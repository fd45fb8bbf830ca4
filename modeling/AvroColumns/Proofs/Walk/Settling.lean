import AvroColumns.Proofs.Datum.Parts
import AvroColumns.Proofs.Schema.Parts
import AvroColumns.Walk.Basic
import Mathlib.Data.List.Chain
import Mathlib.Logic.Relation

/-!
# Settling

Settling takes turns. A turn chooses the member of a union to which the value belongs, or takes off a tag
that says nothing. Whatever the tags say, there are at most as many turns as the value has tags, and one
more: without a tag the value goes to a member of its form, and nothing has the form of a union. So the
turns come to an end, at what is settled or stuck, and the end tells the outcome.
-/

namespace AvroColumns

open Relation

namespace Document

variable {d : Document} {members : List Schema} {s : Schema} {v : Datum} {x : Schema × Datum}

theorem node_of_accepts (h : d.accepts s v) :
    ∃ n, d.node s = .ok n ∧ ∀ members, n ≠ .union members := by
  rw [accepts] at h
  cases hs : d.resolve s with
  | error e => simp [hs] at h
  | ok t =>
    simp only [hs] at h
    rw [node_of_resolve hs]
    cases t with
    | union members => cases v <;> cases h
    | ref name => cases v <;> cases h
    | _ => exact ⟨_, rfl, nofun⟩

@[simp] theorem branch?_of_tag {i : Nat} :
    d.branch? members (.union i v) = members[i]?.map (·, v) := by
  cases h : members[i]? <;> simp [branch?, branchIndex?, h]

@[simp] theorem branch?_of_untagged (h : v.isTagged = false) :
    d.branch? members v = (members.find? (d.accepts · v)).map (·, v) := by
  have hi : d.branchIndex? members v = (members.findIdx? (d.accepts · v)).map (·, v) := by
    cases v with
    | union i w => cases h
    | _ => rfl
  rw [branch?, hi, List.find?_eq_getElem?_findIdx]
  cases hf : members.findIdx? (d.accepts · v) with
  | none =>
    have hl : members.findIdx (d.accepts · v) = members.length :=
      List.findIdx_eq_length.mpr (by simpa using List.findIdx?_eq_none_iff.mp hf)
    simp [hl]
  | some i =>
    obtain ⟨-, hi⟩ := List.findIdx?_eq_some_iff_findIdx_eq.mp hf
    cases hm : members[i]? <;> simp [hi, hm]

theorem branch?_eq_some_iff : d.branch? members v = some x ↔
    (∃ i, v = .union i x.2 ∧ members[i]? = some x.1) ∨
      v.isTagged = false ∧ members.find? (d.accepts · v) = some x.1 ∧ x.2 = v := by
  cases hv : v.isTagged with
  | true =>
    obtain ⟨i, w, rfl⟩ := Datum.exists_of_isTagged hv
    rw [branch?_of_tag, Option.map_eq_some_iff]
    constructor
    · rintro ⟨m, hm, rfl⟩
      exact .inl ⟨i, rfl, hm⟩
    · rintro (⟨i, ⟨⟩, hm⟩ | ⟨⟨⟩, -⟩)
      exact ⟨x.1, hm, rfl⟩
  | false =>
    rw [branch?_of_untagged hv, Option.map_eq_some_iff]
    constructor
    · rintro ⟨m, hm, rfl⟩
      exact .inr ⟨rfl, hm, rfl⟩
    · rintro (⟨i, rfl, -⟩ | ⟨-, hm, rfl⟩)
      · cases hv
      · exact ⟨x.1, hm, rfl⟩

theorem branch?_eq_none_iff : d.branch? members v = none ↔
    (∃ i w, v = .union i w ∧ members.length ≤ i) ∨
      v.isTagged = false ∧ ∀ m ∈ members, ¬ d.accepts m v := by
  cases hv : v.isTagged with
  | true =>
    obtain ⟨i, w, rfl⟩ := Datum.exists_of_isTagged hv
    simp
  | false =>
    rw [branch?_of_untagged hv, Option.map_eq_none_iff, List.find?_eq_none]
    constructor
    · intro h
      exact .inr ⟨rfl, h⟩
    · rintro (⟨i, w, rfl, -⟩ | ⟨-, h⟩)
      · cases hv
      · exact h

end Document

namespace Guide

/-- One turn: the member of a union is chosen, or a tag that says nothing is taken off. -/
inductive Turn (g : Guide) : Schema × Datum → Schema × Datum → Prop
  | choose {s v members x} : g.node s = .ok (.union members) →
      g.document.branch? members v = some x → Turn g (s, v) x
  | untag {s n i v} : g.node s = .ok n → (∀ members, n ≠ .union members) →
      Turn g (s, .union i v) (s, v)

/-- No tag stands on the value and its schema is no union, so that there is nothing to settle. -/
def Settled (g : Guide) (s : Schema) (v : Datum) : Prop :=
  v.isTagged = false ∧ ∃ n, g.node s = .ok n ∧ ∀ members, n ≠ .union members

/-- What is not settled and has no turn, with the fault that is told: the schema refers to no type, the
tag points beyond the members of the union, or the value has the form of none of them. -/
inductive Stuck (g : Guide) (place : String) : Schema → Datum → Walk.Fault → Prop
  | unknown {name v} : g.document.definition? name.full = none →
      Stuck g place (.ref name) v (.unknownType name.full)
  | beyond {s members i v} : g.node s = .ok (.union members) → members.length ≤ i →
      Stuck g place s (.union i v) (.incompatible place (.noBranch (Datum.union i v).label))
  | unfit {s members v} : g.node s = .ok (.union members) → v.isTagged = false →
      (∀ m ∈ members, ¬ g.document.accepts m v) →
      Stuck g place s v (.incompatible place (.noBranch v.label))

def turnsLeft (g : Guide) (x : Schema × Datum) : Nat :=
  match g.node x.1 with
  | .ok (.union _) => x.2.tagCount + 1
  | _ => x.2.tagCount

variable {g : Guide} {place : String} {s t : Schema} {v w : Datum} {n : Node} {members : List Schema}
  {x y : Schema × Datum} {turns : List (Schema × Datum)} {fault : Walk.Fault}

@[simp] theorem node_eq_ok_iff : g.node s = .ok n ↔ g.document.node s = .ok n := by
  rw [node]
  cases g.document.node s <;> simp

theorem node_eq_error_iff :
    g.node s = .error fault ↔ ∃ e, g.document.node s = .error e ∧ fault = .unknownType e.name := by
  rw [node]
  cases g.document.node s <;> simp [eq_comm]

theorem Settled.not_turn (h : g.Settled s v) : ¬ g.Turn (s, v) x := by
  obtain ⟨hv, n, hn, hu⟩ := h
  intro ht
  cases ht with
  | choose hn' _ =>
    cases hn.symm.trans hn'
    exact hu _ rfl
  | untag => cases hv

theorem settled_or_stuck_or_turn (g : Guide) (place : String) (s : Schema) (v : Datum) :
    g.Settled s v ∨ (∃ fault, g.Stuck place s v fault) ∨ ∃ x, g.Turn (s, v) x := by
  cases hn : g.node s with
  | error fault =>
    obtain ⟨e, he, -⟩ := node_eq_error_iff.mp hn
    obtain ⟨name, rfl, hd, -⟩ := Document.node_eq_error_iff.mp he
    exact .inr (.inl ⟨_, .unknown hd⟩)
  | ok n =>
    by_cases hu : ∃ members, n = .union members
    · obtain ⟨members, rfl⟩ := hu
      cases hb : g.document.branch? members v with
      | some x => exact .inr (.inr ⟨x, .choose hn hb⟩)
      | none =>
        rcases Document.branch?_eq_none_iff.mp hb with ⟨i, w, rfl, hi⟩ | ⟨hv, hm⟩
        · exact .inr (.inl ⟨_, .beyond hn hi⟩)
        · exact .inr (.inl ⟨_, .unfit hn hv hm⟩)
    · replace hu : ∀ members, n ≠ .union members := fun members h => hu ⟨members, h⟩
      cases hv : v.isTagged with
      | true =>
        obtain ⟨i, w, rfl⟩ := Datum.exists_of_isTagged hv
        exact .inr (.inr ⟨_, .untag hn hu⟩)
      | false => exact .inl ⟨hv, n, hn, hu⟩

theorem turnsLeft_le (g : Guide) (s : Schema) (v : Datum) : g.turnsLeft (s, v) ≤ v.tagCount + 1 := by
  rw [turnsLeft]
  split
  next => exact Nat.le_refl _
  next => exact Nat.le_succ _

theorem turnsLeft_of_union (hn : g.node s = .ok (.union members)) :
    g.turnsLeft (s, v) = v.tagCount + 1 := by
  simp only [turnsLeft, hn]

theorem turnsLeft_of_ne_union (hn : g.node s = .ok n) (hu : ∀ members, n ≠ .union members) :
    g.turnsLeft (s, v) = v.tagCount := by
  cases n with
  | union members => exact absurd rfl (hu members)
  | _ => simp only [turnsLeft, hn]

theorem Turn.turnsLeft_lt (h : g.Turn x y) : g.turnsLeft y < g.turnsLeft x := by
  cases h with
  | choose hn hb =>
    rw [turnsLeft_of_union hn]
    rcases Document.branch?_eq_some_iff.mp hb with ⟨i, rfl, -⟩ | ⟨-, hm, rfl⟩
    · exact Nat.lt_succ_of_le (turnsLeft_le g y.1 y.2)
    · obtain ⟨n, hn, hu⟩ := Document.node_of_accepts (by simpa using List.find?_some hm)
      have hy : g.turnsLeft y = y.2.tagCount := turnsLeft_of_ne_union (node_eq_ok_iff.mpr hn) hu
      exact Nat.lt_succ_of_le hy.le
  | untag hn hu =>
    rw [turnsLeft_of_ne_union hn hu, turnsLeft_of_ne_union hn hu]
    exact Nat.lt_succ_self _

theorem length_le_turnsLeft (h : List.IsChain g.Turn (x :: turns)) :
    turns.length ≤ g.turnsLeft x := by
  induction turns generalizing x with
  | nil => exact Nat.zero_le _
  | cons y turns ih =>
    obtain ⟨ht, h⟩ := List.isChain_cons_cons.mp h
    exact Nat.lt_of_le_of_lt (ih h) ht.turnsLeft_lt

theorem exists_end (g : Guide) (place : String) (x : Schema × Datum) :
    ∃ t w, ReflTransGen g.Turn x (t, w) ∧ (g.Settled t w ∨ ∃ fault, g.Stuck place t w fault) := by
  induction hk : g.turnsLeft x using Nat.strongRecOn generalizing x with
  | ind k ih =>
    subst hk
    rcases settled_or_stuck_or_turn g place x.1 x.2 with h | h | ⟨y, ht⟩
    · exact ⟨x.1, x.2, .refl, .inl h⟩
    · exact ⟨x.1, x.2, .refl, .inr h⟩
    · obtain ⟨t, w, hr, h⟩ := ih _ ht.turnsLeft_lt y rfl
      exact ⟨t, w, .head ht hr, h⟩

theorem Settled.settle (h : g.Settled s v) (place : String) : g.settle place s v = .ok (s, v) := by
  obtain ⟨hv, n, hn, hu⟩ := h
  rw [Guide.settle, hn]
  · cases n with
    | union members => exact absurd rfl (hu members)
    | _ => rfl
  · rintro i w rfl
    cases hv

theorem settle_of_branch? (hn : g.node s = .ok (.union members))
    (hb : g.document.branch? members v = some x) (place : String) :
    g.settle place s v = g.settle place x.1 x.2 := by
  rcases Document.branch?_eq_some_iff.mp hb with ⟨i, rfl, hi⟩ | ⟨hv, hm, hx⟩
  · rw [settle, hn]
    simp only [hi]
  · obtain ⟨n, hn', hu⟩ := Document.node_of_accepts (by simpa using List.find?_some hm)
    rw [hx, Settled.settle ⟨hv, n, node_eq_ok_iff.mpr hn', hu⟩ place, settle, hn]
    · simp only [hm]
    · rintro i w rfl
      cases hv

theorem settle_of_branch?_eq_none (hn : g.node s = .ok (.union members))
    (hb : g.document.branch? members v = none) (place : String) :
    g.settle place s v = .error (.incompatible place (.noBranch v.label)) := by
  rcases Document.branch?_eq_none_iff.mp hb with ⟨i, w, rfl, hi⟩ | ⟨hv, hm⟩
  · rw [settle, hn]
    simp only [List.getElem?_eq_none hi]
  · rw [settle, hn]
    · simp only [List.find?_eq_none.mpr hm]
    · rintro i w rfl
      cases hv

theorem settle_of_turn (h : g.Turn x y) (place : String) :
    g.settle place x.1 x.2 = g.settle place y.1 y.2 := by
  cases h with
  | choose hn hb => exact settle_of_branch? hn hb place
  | @untag _ n _ _ hn hu =>
    rw [settle, hn]
    cases n with
    | union members => exact absurd rfl (hu members)
    | _ => rfl

theorem settle_of_turns (h : ReflTransGen g.Turn x y) (place : String) :
    g.settle place x.1 x.2 = g.settle place y.1 y.2 := by
  induction h with
  | refl => rfl
  | tail _ ht ih => exact ih.trans (settle_of_turn ht place)

theorem Stuck.settle (h : g.Stuck place s v fault) : g.settle place s v = .error fault := by
  cases h with
  | @unknown name v hd =>
    have hn : g.node (.ref name) = .error (.unknownType name.full) :=
      node_eq_error_iff.mpr ⟨_, Document.node_eq_error_iff.mpr ⟨name, rfl, hd, rfl⟩, rfl⟩
    cases v <;> simp only [Guide.settle, hn]
  | beyond hn hi =>
    exact settle_of_branch?_eq_none hn (Document.branch?_eq_none_iff.mpr (.inl ⟨_, _, rfl, hi⟩)) place
  | unfit hn hv hm =>
    exact settle_of_branch?_eq_none hn (Document.branch?_eq_none_iff.mpr (.inr ⟨hv, hm⟩)) place

theorem settle_eq_ok_iff : g.settle place s v = .ok (t, w) ↔
    ReflTransGen g.Turn (s, v) (t, w) ∧ g.Settled t w := by
  constructor
  · intro h
    obtain ⟨t', w', hr, he⟩ := exists_end g place (s, v)
    rw [settle_of_turns hr] at h
    rcases he with hs | ⟨fault, hs⟩
    · cases (hs.settle place).symm.trans h
      exact ⟨hr, hs⟩
    · cases hs.settle.symm.trans h
  · rintro ⟨hr, hs⟩
    exact (settle_of_turns hr place).trans (hs.settle place)

theorem settle_eq_error_iff : g.settle place s v = .error fault ↔
    ∃ t w, ReflTransGen g.Turn (s, v) (t, w) ∧ g.Stuck place t w fault := by
  constructor
  · intro h
    obtain ⟨t, w, hr, he⟩ := exists_end g place (s, v)
    rw [settle_of_turns hr] at h
    rcases he with hs | ⟨fault', hs⟩
    · cases (hs.settle place).symm.trans h
    · cases hs.settle.symm.trans h
      exact ⟨t, w, hr, hs⟩
  · rintro ⟨t, w, hr, hs⟩
    exact (settle_of_turns hr place).trans hs.settle

theorem settle_induction {P : Schema × Datum → Prop} (h : g.settle place s v = .ok x)
    (settled : g.Settled x.1 x.2 → P x) (turn : ∀ {y z}, g.Turn y z → P z → P y) : P (s, v) := by
  obtain ⟨hr, hs⟩ := settle_eq_ok_iff.mp h
  generalize (s, v) = y at hr ⊢
  induction hr using ReflTransGen.head_induction_on with
  | refl => exact settled hs
  | head ht _ ih => exact turn ht ih

/-- Settling ends in a normal form. Whatever tags stand on a value, it takes at most one turn for each of
them and one more. It gives what is settled at the end of the turns, from which no turn leads on and which
settles as it is at every place. It fails only for what is stuck there. -/
theorem settle_normal_form (g : Guide) (place : String) (s : Schema) (v : Datum) :
    (∀ turns, List.IsChain g.Turn ((s, v) :: turns) → turns.length ≤ v.tagCount + 1) ∧
    (∀ t w, g.settle place s v = .ok (t, w) ↔ ReflTransGen g.Turn (s, v) (t, w) ∧ g.Settled t w) ∧
    (∀ t w, g.settle place s v = .ok (t, w) →
      (∀ x, ¬ g.Turn (t, w) x) ∧ ∀ place', g.settle place' t w = .ok (t, w)) ∧
    ∀ fault, g.settle place s v = .error fault ↔
      ∃ t w, ReflTransGen g.Turn (s, v) (t, w) ∧ g.Stuck place t w fault := by
  refine ⟨?_, fun t w => settle_eq_ok_iff, ?_, fun fault => settle_eq_error_iff⟩
  · intro turns h
    exact (length_le_turnsLeft h).trans (turnsLeft_le g s v)
  · intro t w h
    obtain ⟨-, hs⟩ := settle_eq_ok_iff.mp h
    exact ⟨fun x => hs.not_turn, hs.settle⟩

theorem settle_normal_form_link :
    let next : Schema := .union [.primitive .null, .ref ⟨"", "Link"⟩]
    let g : Guide := ⟨.ofSchema (.record ⟨⟨"", "Link"⟩, [⟨"next", [], next, none⟩]⟩), none, false⟩
    let link : Datum := .record [("next", .union 0 .null)]
    let tagged : Datum := .union 1 (.union 7 (.union 0 link))
    (∀ turns, List.IsChain g.Turn ((next, tagged) :: turns) → turns.length ≤ 4) ∧
      g.settle "$" next tagged = .ok (.ref ⟨"", "Link"⟩, link) ∧
      ReflTransGen g.Turn (next, tagged) (.ref ⟨"", "Link"⟩, link) ∧
      g.Settled (.ref ⟨"", "Link"⟩) link ∧
      g.settle "$" (.ref ⟨"", "Link"⟩) link = .ok (.ref ⟨"", "Link"⟩, link) ∧
      ∃ t w, ReflTransGen g.Turn (next, .union 2 tagged) (t, w) ∧
        g.Stuck "$" t w (.incompatible "$" (.noBranch "union")) := by
  intro next g link tagged
  obtain ⟨hlength, hok, hagain, -⟩ := settle_normal_form g "$" next tagged
  have hs : g.settle "$" next tagged = .ok (.ref ⟨"", "Link"⟩, link) := rfl
  obtain ⟨hturns, hsettled⟩ := (hok _ _).mp hs
  have hbeyond : g.settle "$" next (.union 2 tagged) = .error (.incompatible "$" (.noBranch "union")) :=
    rfl
  exact ⟨hlength, hs, hturns, hsettled, (hagain _ _ hs).2 "$",
    ((settle_normal_form g "$" next (.union 2 tagged)).2.2.2 _).mp hbeyond⟩

end Guide

end AvroColumns
