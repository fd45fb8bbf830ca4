import AvroColumns.Proofs.Walk.StandIn

namespace AvroColumns

open Outcome

namespace Walk

variable {α β : Type} {a : α} {b : β} {x : Except Fault α} {f : α → Except Fault β}

def pardon (a : α) : Except Fault α → Except Fault α
  | .error (.missing _) => .ok a
  | o => o

@[simp] theorem pardon_ok (a a' : α) : pardon a (.ok a') = .ok a' := rfl

@[simp] theorem pardon_missing (a : α) (place : String) :
    pardon a (.error (.missing place)) = .ok a :=
  rfl

theorem pardon_eq_self (a : α) {x : Except Fault α} (h : ∀ place, x ≠ .error (.missing place)) :
    pardon a x = x := by
  cases x with
  | ok a' => rfl
  | error fault =>
    cases fault with
    | missing place => exact absurd rfl (h place)
    | _ => rfl

theorem pardon_bind (h : pardon b (f a) = .ok b) :
    (pardon a x >>= fun a => pardon b (f a)) = pardon b (x >>= f) := by
  cases x with
  | ok a' => rfl
  | error fault =>
    cases fault with
    | missing place => exact h
    | _ => rfl

end Walk

namespace Guide

open Walk (pardon pardon_bind pardon_eq_self)

def tolerating (g : Guide) (tolerant : Bool) : Guide :=
  { g with tolerant }

variable {g : Guide} {isLast : Bool} {s previous : Segment} {n : Node} {v : Datum}
  {fallback : Option Schema} {p : Position} {segments : List Segment} {target : Target}

@[simp] theorem settle_tolerating (tolerant : Bool) :
    (g.tolerating tolerant).settle = g.settle := by
  delta settle
  rfl

@[simp] theorem defaultRecord?_tolerating (tolerant : Bool) :
    (g.tolerating tolerant).defaultRecord? fallback = g.defaultRecord? fallback :=
  rfl

@[simp] theorem standIn?_tolerating (tolerant : Bool) (fallback : Option (RecordType Schema))
    (name : String) : (g.tolerating tolerant).standIn? fallback name = g.standIn? fallback name :=
  rfl

@[simp] theorem node_tolerating (tolerant : Bool) (schema : Schema) :
    (g.tolerating tolerant).node schema = g.node schema :=
  rfl

theorem toMember_tolerating {place name : String} {r : RecordType Schema} :
    (g.tolerating true).toMember isLast place name r v fallback =
      pardon (.ended .absent) ((g.tolerating false).toMember isLast place name r v fallback) := by
  cases hf : r.find? name with
  | some f =>
    rw [toMember_of_find? hf, toMember_of_find? hf]
    cases v with
    | record members => cases hl : Datum.lookup name members <;> simp only [hl] <;> rfl
    | _ => rfl
  | none =>
    rw [toMember_of_lacking hf, toMember_of_lacking hf]
    cases isLast with
    | false => rfl
    | true =>
      simp only [if_true, standIn?_tolerating, defaultRecord?_tolerating]
      cases hw : g.standIn? (g.defaultRecord? fallback) name with
      | ok o => cases o <;> rfl
      | error fault =>
        obtain ⟨type, rfl⟩ := standIn?_error hw
        rfl

theorem toEntry_tolerating {place key : String} {values : Schema} :
    (g.tolerating true).toEntry place key values v fallback =
      pardon (.ended .absent) ((g.tolerating false).toEntry place key values v fallback) := by
  cases v with
  | map entries => cases hl : Datum.lookup key entries <;> simp only [toEntry, hl] <;> rfl
  | _ => rfl

theorem toItem_tolerating {place : String} {i : Int} {items : Schema} :
    (g.tolerating true).toItem place i items v fallback =
      pardon (.ended .absent) ((g.tolerating false).toItem place i items v fallback) := by
  cases v with
  | array vs =>
    simp only [toItem]
    cases (if i < 0 then none else vs[i.toNat]?) <;> rfl
  | _ => rfl

@[simp] theorem along_tolerating :
    (g.tolerating true).along isLast s n v fallback =
      pardon (.ended .absent) ((g.tolerating false).along isLast s n v fallback) := by
  cases meets s n with
  | wildcard => rfl
  | member => exact toMember_tolerating
  | entry hk =>
    rw [along_entry hk, along_entry hk]
    exact toEntry_tolerating
  | item hi =>
    rw [along_item hi, along_item hi]
    exact toItem_tolerating
  | mismatch _ hm =>
    rw [hm, hm]
    rfl

@[simp] theorem step_tolerating :
    (g.tolerating true).step isLast s p =
      pardon (.ended .absent) ((g.tolerating false).step isLast s p) := by
  simp only [step, settle_tolerating]
  cases hs : g.settle s.text p.schema p.value with
  | error fault => rcases settle_error hs with ⟨name, rfl⟩ | ⟨found, rfl⟩ <;> rfl
  | ok r =>
    obtain ⟨schema, v⟩ := r
    cases hv : v.isNull with
    | true => simp [hv]
    | false =>
      simp only [ok_bind, hv, node_tolerating]
      cases hn : g.node schema with
      | ok n => exact along_tolerating
      | error fault =>
        obtain ⟨name, rfl⟩ := node_error hn
        rfl

@[simp] theorem arrive_tolerating {place : String} :
    (g.tolerating true).arrive place p = pardon .absent ((g.tolerating false).arrive place p) := by
  simp only [arrive, settle_tolerating]
  cases hs : g.settle place p.schema p.value with
  | ok r =>
    obtain ⟨schema, v⟩ := r
    cases hv : v.isNull <;> simp [hv]
  | error fault => rcases settle_error hs with ⟨name, rfl⟩ | ⟨found, rfl⟩ <;> rfl

@[simp] theorem walkFrom_tolerating :
    (g.tolerating true).walkFrom previous segments p =
      pardon .absent ((g.tolerating false).walkFrom previous segments p) := by
  induction segments generalizing previous p with
  | nil => exact arrive_tolerating
  | cons s rest ih =>
    rw [walkFrom_cons, walkFrom_cons, step_tolerating, ← pardon_bind (a := .ended .absent) rfl]
    congr 1
    funext o
    cases o with
    | ended w => rfl
    | onward q => exact ih

@[simp] theorem extractFrom_tolerating :
    (g.tolerating true).extractFrom p segments target =
      pardon none ((g.tolerating false).extractFrom p segments target) := by
  rw [extractFrom, extractFrom, walk, walk, walkFrom_tolerating, ← pardon_bind (a := .absent) rfl]
  congr 1
  funext w
  refine (pardon_eq_self _ fun place h => ?_).symm
  rcases finish_error h with ⟨_, ⟨⟩⟩ | ⟨_, ⟨⟩⟩ | ⟨_, ⟨⟩⟩

@[simp] theorem extract_tolerating {path : BoundPath} :
    (g.tolerating true).extract v path target =
      pardon none ((g.tolerating false).extract v path target) :=
  extractFrom_tolerating

end Guide

end AvroColumns
