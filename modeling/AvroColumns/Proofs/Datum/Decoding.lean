import AvroColumns.Datum.OfJson
import AvroColumns.Proofs.Outcome

namespace AvroColumns.Datum

open Outcome

variable {d : Document} {enter : Schema → Json → Except Fault Datum} {s : Schema} {j : Json}
  {name : TypeName} {key : String} {r : RecordType Schema} {members : List (String × Json)}
  {ms : List Schema} {index : Nat} {v : Datum}

def wrapped? (d : Document) (ms : List Schema) : Json → Option (Nat × Schema × Json)
  | .obj [(name, inner)] => do
    let i ← ms.findIdx? (answersTo d name)
    return (i, ← ms[i]?, inner)
  | _ => none

theorem wrapped?_of_findIdx? (hi : ms.findIdx? (answersTo d key) = some index)
    (hs : ms[index]? = some s) : wrapped? d ms (.obj [(key, j)]) = some (index, s, j) := by
  rw [wrapped?, hi]
  simp [hs]

def supply (d : Document) (enter : Schema → Json → Except Fault Datum) (record : String)
    (members : List (String × Json)) (f : Field Schema) : Except Fault Datum :=
  match Json.lookup f.name members, f.default with
  | some v, _ => ofJson d enter f.type v
  | none, some literal => enter f.type literal
  | none, none => .error (.missingMember record f.name)

theorem supply_of_lookup {record : String} {f : Field Schema} {v : Json}
    (h : Json.lookup f.name members = some v) :
    supply d enter record members f = ofJson d enter f.type v := by
  rw [supply, h]

@[simp] theorem ofJsonItems_eq (js : List Json) :
    ofJsonItems d enter s js = js.mapM (ofJson d enter s) := by
  induction js with
  | nil =>
    rw [ofJsonItems]
    rfl
  | cons j js ih => rw [ofJsonItems, ih, List.mapM_cons]

@[simp] theorem ofJsonEntries_eq (entries : List (String × Json)) :
    ofJsonEntries d enter s entries =
      entries.mapM fun e => (ofJson d enter s e.2).map (e.1, ·) := by
  induction entries with
  | nil =>
    rw [ofJsonEntries]
    rfl
  | cons e entries ih =>
    rw [ofJsonEntries, ih, List.mapM_cons]
    cases ofJson d enter s e.2 <;> rfl

@[simp] theorem ofJsonMembers_eq (record : String) (fs : List (Field Schema)) :
    ofJsonMembers d enter record members fs =
      fs.mapM fun f => (supply d enter record members f).map (f.name, ·) := by
  induction fs with
  | nil =>
    rw [ofJsonMembers]
    rfl
  | cons f fs ih =>
    have hcons (x : Except Fault Datum) {rest : Except Fault (List (String × Datum))} :
        (x >>= fun v => rest >>= fun rest => (pure ((f.name, v) :: rest) : Except Fault _)) =
          (x.map (f.name, ·) >>= fun v => rest >>= fun rest => pure (v :: rest)) := by
      cases x <;> rfl
    rw [List.mapM_cons, ← hcons, ← ih, ofJsonMembers, supply]
    split <;> simp only [*]

@[simp] theorem ofJson_array (items : Schema) (js : List Json) :
    ofJson d enter (.array items) (.arr js) = (js.mapM (ofJson d enter items)).map .array := by
  rw [ofJson, ofJsonItems_eq]

@[simp] theorem ofJson_map (values : Schema) :
    ofJson d enter (.map values) (.obj members) =
      (members.mapM fun e => (ofJson d enter values e.2).map (e.1, ·)).map .map := by
  rw [ofJson, ofJsonEntries_eq]

@[simp] theorem ofJson_record :
    ofJson d enter (.record r) (.obj members) =
      (r.fields.mapM fun f => (supply d enter r.name.full members f).map (f.name, ·)).map
        .record := by
  rw [ofJson, ofJsonRecord, ofJsonMembers_eq]

theorem ofJson_ref {t : Definition} (h : d.follow name = .ok t) :
    ofJson d enter (.ref name) j = ofJson d enter t.toSchema j := by
  cases t <;> simp only [ofJson, h, Definition.toSchema]

theorem ofJson_union :
    ofJson d enter (.union ms) j =
      match wrapped? d ms j with
      | some (i, s, inner) => (ofJson d enter s inner).map (.union i)
      | none => ofJsonFirst d enter 0 ms j := by
  by_cases hj : ∃ key inner, j = .obj [(key, inner)]
  · obtain ⟨key, inner, rfl⟩ := hj
    rw [ofJson, wrapped?]
    cases hi : ms.findIdx? (answersTo d key) with
    | none => simp
    | some i => cases hm : ms[i]? <;> simp [hm]
  · have hj' (key inner) (h : j = .obj [(key, inner)]) : False := hj ⟨key, inner, h⟩
    rw [ofJson, wrapped?]
    all_goals exact hj'

theorem ofJsonFirst_cons :
    ofJsonFirst d enter index (s :: ms) j =
      match ofJson d enter s j with
      | .ok v => .ok (.union index v)
      | .error .endless => .error .endless
      | .error _ => ofJsonFirst d enter (index + 1) ms j := by
  cases h : ofJson d enter s j with
  | ok v => simp only [ofJsonFirst, h]
  | error e => cases e <;> simp only [ofJsonFirst, h]

end AvroColumns.Datum
