import AvroColumns.Path.Basic
import AvroColumns.Datum.Basic

namespace AvroColumns.Datum

def parts : Datum → List Datum
  | .union _ v => [v]
  | .array vs => vs
  | .map entries => entries.map (·.2)
  | .record members => members.map (·.2)
  | _ => []

@[simp] theorem parts_union (i : Nat) (v : Datum) : (union i v).parts = [v] := rfl

@[simp] theorem parts_array (vs : List Datum) : (array vs).parts = vs := rfl

@[simp] theorem parts_map (entries : List (String × Datum)) :
    (map entries).parts = entries.map (·.2) :=
  rfl

@[simp] theorem parts_record (members : List (String × Datum)) :
    (record members).parts = members.map (·.2) :=
  rfl

inductive Within : Datum → Datum → Prop
  | refl {v} : Within v v
  | part {u v w} : w ∈ u.parts → Within u v → Within w v

theorem Within.trans {u v w : Datum} (h : Within u v) (h' : Within v w) : Within u w := by
  induction h with
  | refl => exact h'
  | part hp _ ih => exact .part hp (ih h')

def DistinctKeys (v : Datum) : Prop :=
  ∀ entries, Within (.map entries) v → (entries.map (·.1)).Nodup

theorem DistinctKeys.of_within {v w : Datum} (hv : v.DistinctKeys) (h : Within w v) :
    w.DistinctKeys :=
  fun entries he => hv entries (he.trans h)

theorem Within.eq_or_part {v w : Datum} (h : Within w v) : w = v ∨ ∃ u ∈ v.parts, Within w u := by
  induction h with
  | refl => exact .inl rfl
  | @part u v w hw hu ih =>
    rcases ih with rfl | ⟨u', hu', h⟩
    · exact .inr ⟨w, hw, .refl⟩
    · exact .inr ⟨u', hu', .part hw h⟩

theorem DistinctKeys.of_parts {v : Datum}
    (hv : ∀ entries, v = .map entries → (entries.map (·.1)).Nodup)
    (hp : ∀ w ∈ v.parts, w.DistinctKeys) : v.DistinctKeys := by
  intro entries h
  rcases h.eq_or_part with h | ⟨u, hu, h⟩
  · exact hv entries h.symm
  · exact hp u hu entries h

theorem lookup_mem {name : String} {members : List (String × Datum)} {v : Datum}
    (h : lookup name members = some v) : (name, v) ∈ members := by
  obtain ⟨⟨key, v⟩, hm, rfl⟩ := Option.map_eq_some_iff.mp h
  have hk := List.find?_some hm
  simp only [beq_iff_eq] at hk
  exact hk ▸ List.mem_of_find?_eq_some hm

theorem find?_of_mem {β : Type} {entries : List (String × β)} (hd : (entries.map (·.1)).Nodup)
    {e : String × β} (h : e ∈ entries) : entries.find? (·.1 == e.1) = some e := by
  induction entries with
  | nil => cases h
  | cons e' rest ih =>
    rw [List.map_cons, List.nodup_cons] at hd
    rcases List.mem_cons.mp h with rfl | h
    · simp
    · have hne : e'.1 ≠ e.1 := by
        intro he
        exact hd.1 (he ▸ List.mem_map_of_mem (f := (·.1)) h)
      rw [List.find?_cons_of_neg (by simpa using hne)]
      exact ih hd.2 h

theorem lookup_of_mem {entries : List (String × Datum)} (hd : (entries.map (·.1)).Nodup)
    {key : String} {v : Datum} (h : (key, v) ∈ entries) : lookup key entries = some v := by
  rw [lookup, find?_of_mem hd h]
  rfl

def isTagged : Datum → Bool
  | .union .. => true
  | _ => false

def tagCount : Datum → Nat
  | .union _ v => v.tagCount + 1
  | _ => 0

def untagged : Datum → Datum
  | .union _ v => v.untagged
  | v => v

theorem exists_of_isTagged {v : Datum} (h : v.isTagged = true) : ∃ i w, v = .union i w := by
  cases v with
  | union i w => exact ⟨i, w, rfl⟩
  | _ => cases h

theorem untagged_eq_self {v : Datum} (h : v.isTagged = false) : v.untagged = v := by
  cases v with
  | union i w => cases h
  | _ => rfl

/-- The entries of a container, each behind the segment that leads to it. -/
def addressed? : Datum → Option (List (Segment × Datum))
  | .array vs => some (vs.zipIdx.map fun (v, i) => (.index i, v))
  | .map entries => some (entries.map fun (key, v) => (.key key, v))
  | _ => none

end AvroColumns.Datum
