import AvroColumns.Proofs.Datum.Decoding
import AvroColumns.Proofs.Schema.Parts

/-!
# Calls of the decoder

What a call of the decoder asks of further calls: of one, of each of several, or of several until one
succeeds. With a budget, a call gives what the calls in its body give with the same budget, only that
the default of a member that is left out is entered with a smaller one. What a call gives with some
budget it gives with every larger one.
-/

namespace AvroColumns.Datum

open Outcome

/-- A call of the decoder: for a document, for a default, or for a member that a document leaves out,
which has a default. -/
inductive Call
  | value (s : Schema) (j : Json)
  | default (s : Schema) (j : Json)
  | absent (s : Schema) (literal : Json)

inductive Body
  | answer (r : Except Fault Datum)
  | one (c : Call) (give : Datum → Datum)
  | each (cs : List Call) (give : List Datum → Except Fault Datum)
  | first (cs : List Call) (fault : Fault)

namespace Body

def calls : Body → List Call
  | answer _ => []
  | one c _ => [c]
  | each cs _ => cs
  | first cs _ => cs

def firstOf (sub : Call → Except Fault Datum) (fault : Fault) : Nat → List Call → Except Fault Datum
  | _, [] => .error fault
  | index, c :: cs =>
    match sub c with
    | .ok v => .ok (.union index v)
    | .error .endless => .error .endless
    | .error _ => firstOf sub fault (index + 1) cs

def run (sub : Call → Except Fault Datum) : Body → Except Fault Datum
  | answer r => r
  | one c give => (sub c).map give
  | each cs give => cs.mapM sub >>= give
  | first cs fault => firstOf sub fault 0 cs

/-- The calls that are made: of several, the next once those before it have returned, with a value if
each is asked and with a fault if one is looked for. -/
inductive Makes (returns : Call → Except Fault Datum → Prop) : Body → Call → Prop
  | one {c give} : Makes returns (.one c give) c
  | each {before c after give} (h : ∀ x ∈ before, ∃ v, returns x (.ok v)) :
    Makes returns (.each (before ++ c :: after) give) c
  | first {before c after fault} (h : ∀ x ∈ before, ∃ e, returns x (.error e)) :
    Makes returns (.first (before ++ c :: after) fault) c

def Productive : Body → Prop
  | answer r => r ≠ .error .endless
  | one _ _ => True
  | each _ give => ∀ vs, give vs ≠ .error .endless
  | first _ fault => fault ≠ .endless

/-- Whether an outcome is another, or is still open. -/
def Below {α : Type} (x y : Except Fault α) : Prop :=
  x = .error .endless ∨ x = y

variable {α β : Type} {x y : Except Fault α} {sub sub' : Call → Except Fault Datum} {B : Body}
  {returns returns' : Call → Except Fault Datum → Prop} {c : Call} {cs : List Call} {fault : Fault}
  {index : Nat}

theorem Below.refl : Below x x := .inr rfl

theorem Below.trans {z : Except Fault α} (h : Below x y) (h' : Below y z) : Below x z := by
  rcases h with h | rfl
  · exact .inl h
  · exact h'

theorem Below.bind {f g : α → Except Fault β} (h : Below x y) (hf : ∀ a, Below (f a) (g a)) :
    Below (x >>= f) (y >>= g) := by
  rcases h with rfl | rfl
  · exact .inl rfl
  · cases x with
    | error e => exact .inr rfl
    | ok a => exact hf a

theorem Below.map {f : α → β} (h : Below x y) : Below (x.map f) (y.map f) := by
  rcases h with rfl | rfl
  · exact .inl rfl
  · exact .refl

theorem below_mapM (h : ∀ c ∈ cs, Below (sub c) (sub' c)) : Below (cs.mapM sub) (cs.mapM sub') := by
  induction cs with
  | nil => exact .refl
  | cons c cs ih =>
    rw [List.mapM_cons, List.mapM_cons]
    apply Below.bind (h c (by simp))
    intro v
    apply Below.bind (ih fun x hx => h x (by simp [hx]))
    intro vs
    exact .refl

theorem below_firstOf (h : ∀ c ∈ cs, Below (sub c) (sub' c)) :
    Below (firstOf sub fault index cs) (firstOf sub' fault index cs) := by
  induction cs generalizing index with
  | nil => exact .refl
  | cons c cs ih =>
    rcases h c (by simp) with hc | hc
    · left
      rw [firstOf, hc]
    · rw [firstOf, firstOf, hc]
      cases sub' c with
      | ok v => exact .refl
      | error e =>
        cases e with
        | endless => exact .refl
        | _ => exact ih fun x hx => h x (by simp [hx])

theorem run_below (h : ∀ c ∈ B.calls, Below (sub c) (sub' c)) : Below (B.run sub) (B.run sub') := by
  cases B with
  | answer r => exact .refl
  | one c give => exact (h c (by simp [calls])).map
  | each cs give => exact (below_mapM h).bind fun vs => .refl
  | first cs fault => exact below_firstOf h

theorem Makes.mem (h : B.Makes returns c) : c ∈ B.calls := by
  cases h <;> simp [calls]

theorem Makes.mono (h : B.Makes returns c) (hr : ∀ x r, returns x r → returns' x r) :
    B.Makes returns' c := by
  cases h with
  | one => exact .one
  | each h => exact .each fun x hx => (h x hx).imp fun v => hr x _
  | first h => exact .first fun x hx => (h x hx).imp fun e => hr x _

theorem mapM_eq_endless {before after : List Call}
    (h : ∀ x ∈ before, ∃ v, Below (sub x) (.ok v)) (hc : sub c = .error .endless) :
    (before ++ c :: after).mapM sub = .error .endless := by
  induction before with
  | nil =>
    rw [List.nil_append, List.mapM_cons, hc]
    rfl
  | cons x before ih =>
    obtain ⟨v, hx⟩ := h x (by simp)
    rw [List.cons_append, List.mapM_cons, ih fun y hy => h y (by simp [hy])]
    rcases hx with hx | hx <;> rw [hx] <;> rfl

theorem firstOf_eq_endless {before after : List Call}
    (h : ∀ x ∈ before, ∃ e, Below (sub x) (.error e)) (hc : sub c = .error .endless) :
    firstOf sub fault index (before ++ c :: after) = .error .endless := by
  induction before generalizing index with
  | nil => rw [List.nil_append, firstOf, hc]
  | cons x before ih =>
    obtain ⟨e, hx⟩ := h x (by simp)
    rw [List.cons_append, firstOf]
    rcases hx with hx | hx
    · rw [hx]
    · rw [hx]
      cases e with
      | endless => rfl
      | _ => exact ih fun y hy => h y (by simp [hy])

theorem run_eq_endless_of_makes (h : B.Makes returns c) (hr : ∀ x r, returns x r → Below (sub x) r)
    (hc : sub c = .error .endless) : B.run sub = .error .endless := by
  cases h with
  | one =>
    rw [run, hc]
    rfl
  | each h =>
    rw [run, mapM_eq_endless (fun x hx => (h x hx).imp fun v => hr x _) hc]
    rfl
  | first h => exact firstOf_eq_endless (fun x hx => (h x hx).imp fun e => hr x _) hc

theorem exists_of_firstOf_eq_endless (hf : fault ≠ .endless)
    (h : firstOf sub fault index cs = .error .endless) :
    ∃ before c after, cs = before ++ c :: after ∧
      (∀ x ∈ before, ∃ e, e ≠ .endless ∧ sub x = .error e) ∧ sub c = .error .endless := by
  induction cs generalizing index with
  | nil =>
    rw [firstOf] at h
    cases h
    exact absurd rfl hf
  | cons c cs ih =>
    rw [firstOf] at h
    split at h
    next v hv => cases h
    next hc => exact ⟨[], c, cs, rfl, by simp, hc⟩
    next e he hc =>
      obtain ⟨before, c', after, rfl, hb, hc'⟩ := ih h
      refine ⟨c :: before, c', after, rfl, ?_, hc'⟩
      intro x hx
      rcases List.mem_cons.mp hx with rfl | hx
      · refine ⟨e, ?_, hc⟩
        rintro rfl
        exact he rfl
      · exact hb x hx

theorem makes_of_run_eq_endless (hB : B.Productive) (h : B.run sub = .error .endless) :
    ∃ c, B.Makes (fun x r => sub x = r ∧ r ≠ .error .endless) c ∧ sub c = .error .endless := by
  cases B with
  | answer r => exact absurd h hB
  | one c give => exact ⟨c, .one, map_eq_error_iff.mp h⟩
  | each cs give =>
    rw [run] at h
    cases hcs : cs.mapM sub with
    | ok vs =>
      rw [hcs] at h
      exact absurd h (hB vs)
    | error e =>
      rw [hcs] at h
      cases h
      obtain ⟨before, c, after, rfl, hb, hc⟩ := mapM_eq_error_iff.mp hcs
      refine ⟨c, .each ?_, hc⟩
      intro x hx
      obtain ⟨v, hv⟩ := hb x hx
      exact ⟨v, hv, nofun⟩
  | first cs fault =>
    obtain ⟨before, c, after, rfl, hb, hc⟩ := exists_of_firstOf_eq_endless hB h
    refine ⟨c, .first ?_, hc⟩
    intro x hx
    obtain ⟨e, he, hv⟩ := hb x hx
    exact ⟨e, hv, fun h => he (Except.error.inj h)⟩

end Body

namespace Call

def schema : Call → Schema
  | value s _ => s
  | default s _ => s
  | absent s _ => s

def ofMember? (members : List (String × Json)) (f : Field Schema) : Option Call :=
  match Json.lookup f.name members, f.default with
  | some v, _ => some (.value f.type v)
  | none, some literal => some (.absent f.type literal)
  | none, none => none

def ofMembers (members : List (String × Json)) : List (Field Schema) → List Call
  | [] => []
  | f :: fs =>
    match ofMember? members f with
    | some c => c :: ofMembers members fs
    | none => []

def giveMembers (record : String) (members : List (String × Json)) :
    List (Field Schema) → List Datum → Except Fault (List (String × Datum))
  | f :: fs, vs =>
    match ofMember? members f, vs with
    | none, _ => .error (.missingMember record f.name)
    | some _, v :: vs => (giveMembers record members fs vs).map ((f.name, v) :: ·)
    | some _, [] => .ok []
  | [], _ => .ok []

def leaf : Schema → Json → Except Fault Datum
  | .primitive p, j => OfJson.primitive p j
  | .decimal _ _ c, j => OfJson.decimal c j
  | .enum e, j => OfJson.enum e j
  | .fixed f, j => OfJson.fixed f j
  | s, j => .error (.mismatch s.label j)

variable (d : Document)

def valueBody : Schema → Json → Body
  | .array items, .arr js => .each (js.map (.value items)) fun vs => .ok (.array vs)
  | .map values, .obj members =>
    .each (members.map fun e => .value values e.2) fun vs =>
      .ok (.map ((members.map (·.1)).zip vs))
  | .record r, .obj members =>
    .each (ofMembers members r.fields) fun vs =>
      (giveMembers r.name.full members r.fields vs).map .record
  | .union ms, j =>
    match wrapped? d ms j with
    | some (i, s, inner) => .one (.value s inner) (.union i)
    | none => .first (ms.map (.value · j)) (.mismatch "any union member" j)
  | s, j => .answer (leaf s j)

def defaultBody : Schema → Json → Body
  | .union [], _ => .answer (.error .emptyUnion)
  | .union (s :: _), j => .one (.default s j) (.union 0)
  | s, j => .one (.value s j) id

def body : Call → Body
  | value s j =>
    match d.resolve s with
    | .error e => .answer (.error (.unknownType e.name))
    | .ok s => valueBody d s j
  | default s j => defaultBody s j
  | absent s j => .one (.default s j) id

def run (budget : Nat) : Call → Except Fault Datum
  | value s j => ofJson d (nested d budget) s j
  | default s j => ofDefault d (nested d budget) s j
  | absent s j => nested d budget s j

variable {d} {budget : Nat} {s : Schema} {j : Json} {c : Call}

theorem defaultBody_cases (s : Schema) (j : Json) :
    defaultBody s j = .answer (.error .emptyUnion) ∨
      (∃ first rest, s = .union (first :: rest) ∧
        defaultBody s j = .one (.default first j) (.union 0)) ∨
      defaultBody s j = .one (.value s j) id := by
  unfold defaultBody
  split
  next => exact .inl rfl
  next => exact .inr (.inl ⟨_, _, rfl, rfl⟩)
  next => exact .inr (.inr rfl)

theorem ofJson_of_resolve {enter : Schema → Json → Except Fault Datum} {t : Schema}
    (h : d.resolve s = .ok t) : ofJson d enter s j = ofJson d enter t j := by
  cases s with
  | ref name =>
    obtain ⟨t, ht, rfl⟩ := map_eq_ok_iff.mp h
    exact ofJson_ref ht
  | _ =>
    cases h
    rfl

theorem run_ofMembers (r : String) (members : List (String × Json)) (fs : List (Field Schema)) :
    (fs.mapM fun f => (supply d (nested d budget) r members f).map (f.name, ·)) =
      (ofMembers members fs).mapM (run d budget) >>= giveMembers r members fs := by
  induction fs with
  | nil => rfl
  | cons f fs ih =>
    have hf : supply d (nested d budget) r members f =
        match ofMember? members f with
        | some c => c.run d budget
        | none => .error (.missingMember r f.name) := by
      rw [supply, ofMember?]
      cases Json.lookup f.name members with
      | some v => rfl
      | none => cases f.default <;> rfl
    rw [List.mapM_cons, ih, hf, ofMembers]
    cases hc : ofMember? members f with
    | none =>
      simp only [List.mapM_nil, pure_eq_ok, ok_bind, giveMembers, hc]
      rfl
    | some c =>
      simp only [List.mapM_cons]
      cases c.run d budget with
      | error e => rfl
      | ok v =>
        simp only [ok_bind, map_ok]
        cases (ofMembers members fs).mapM (run d budget) with
        | error e => rfl
        | ok vs =>
          simp only [ok_bind, pure_eq_ok, giveMembers, hc]
          cases giveMembers r members fs vs <;> rfl

theorem ofJsonFirst_eq {ms : List Schema} {index : Nat} :
    ofJsonFirst d (nested d budget) index ms j =
      Body.firstOf (run d budget) (.mismatch "any union member" j) index (ms.map (.value · j)) := by
  induction ms generalizing index with
  | nil => simp only [ofJsonFirst, List.map_nil, Body.firstOf]
  | cons s ms ih =>
    cases h : ofJson d (nested d budget) s j with
    | ok v => simp only [ofJsonFirst_cons, List.map_cons, Body.firstOf, run, h]
    | error e => cases e <;> simp only [ofJsonFirst_cons, List.map_cons, Body.firstOf, run, h, ih]

theorem run_entries (values : Schema) (members : List (String × Json)) :
    (members.mapM fun e => (ofJson d (nested d budget) values e.2).map (e.1, ·)) =
      ((members.map fun e => value values e.2).mapM (run d budget)).map
        ((members.map (·.1)).zip ·) := by
  induction members with
  | nil => rfl
  | cons e members ih =>
    simp only [List.map_cons, List.mapM_cons, ih, run]
    cases ofJson d (nested d budget) values e.2 with
    | error e => rfl
    | ok v =>
      cases (members.map fun e => value values e.2).mapM (run d budget) with
      | error e => rfl
      | ok vs => rfl

theorem ofJson_eq_leaf {enter : Schema → Json → Except Fault Datum}
    (hs : ∀ name, s ≠ .ref name) (ha : ∀ items js, s = .array items → j = .arr js → False)
    (hm : ∀ values members, s = .map values → j = .obj members → False)
    (hr : ∀ r members, s = .record r → j = .obj members → False)
    (hu : ∀ ms, s = .union ms → False) :
    ofJson d enter s j = leaf s j := by
  cases s with
  | primitive p => rw [ofJson, leaf]
  | decimal precision scale c => rw [ofJson, leaf]
  | enum e => rw [ofJson, leaf]
  | fixed f => rw [ofJson, leaf]
  | array items =>
    rw [ofJson]
    · rfl
    · exact fun js => ha items js rfl
  | map values =>
    rw [ofJson]
    · rfl
    · exact fun members => hm values members rfl
  | record r =>
    rw [ofJson, ofJsonRecord]
    · rfl
    · exact fun members => hr r members rfl
  | union ms => exact (hu ms rfl).elim
  | ref name => exact absurd rfl (hs name)

theorem run_valueBody (hs : ∀ name, s ≠ .ref name) :
    ofJson d (nested d budget) s j = (valueBody d s j).run (run d budget) := by
  unfold valueBody
  split
  next items js =>
    rw [ofJson_array, Body.run, List.mapM_map]
    rfl
  next values members =>
    rw [ofJson_map, run_entries, Body.run]
    cases (members.map fun e => value values e.2).mapM (run d budget) <;> rfl
  next r members =>
    rw [ofJson_record, run_ofMembers, Body.run]
    cases (ofMembers members r.fields).mapM (run d budget) <;> rfl
  next ms =>
    rw [ofJson_union]
    cases h : wrapped? d ms j with
    | some r =>
      obtain ⟨i, t, inner⟩ := r
      rfl
    | none => exact ofJsonFirst_eq
  next hu ha hm hr => exact ofJson_eq_leaf hs ha hm hr hu

theorem resolve_ne_ref {name : TypeName} : d.resolve s ≠ .ok (.ref name) := by
  intro h
  cases s with
  | ref name =>
    obtain ⟨t, -, h⟩ := map_eq_ok_iff.mp h
    cases t <;> cases h
  | _ => cases h

theorem run_eq (hc : ∀ s literal, c ≠ .absent s literal) :
    c.run d budget = (c.body d).run (run d budget) := by
  cases c with
  | value s j =>
    rw [body, run]
    cases hs : d.resolve s with
    | error e =>
      cases s with
      | ref name =>
        rw [Document.resolve, map_eq_error_iff] at hs
        rw [ofJson, hs]
        rfl
      | _ => cases hs
    | ok t =>
      rw [ofJson_of_resolve hs]
      exact run_valueBody fun name h => resolve_ne_ref (h ▸ hs)
  | default s j =>
    rw [body, run]
    unfold defaultBody
    split
    next => rfl
    next first rest j => rw [ofDefault, Body.run, run]
    next h h' =>
      rw [ofDefault, Body.run, run]
      · cases ofJson d (nested d budget) s j <;> rfl
      · exact h
      · exact h'
  | absent s j => exact absurd rfl (hc s j)

theorem codePoints_ne_endless (cs : List Char) : OfJson.codePoints cs ≠ .error .endless := by
  induction cs with
  | nil => nofun
  | cons c cs ih =>
    rw [OfJson.codePoints]
    split
    · simpa using ih
    · nofun

theorem text_ne_endless {f : String → Except Fault Datum} {label : String}
    (hf : ∀ s, f s ≠ .error .endless) : OfJson.text f label j ≠ .error .endless := by
  cases j <;> simp [OfJson.text, hf]

theorem number_ne_endless {f : Json → Except Fault Datum} {label : String}
    (hf : ∀ j, f j ≠ .error .endless) : OfJson.number f label j ≠ .error .endless := by
  cases j <;> simp [OfJson.number, hf]

theorem int_ne_endless {f : Int → Datum} (j : Json) : OfJson.int f j ≠ .error .endless := by
  cases j <;> simp [OfJson.int]
  split <;> simp

theorem long_ne_endless {f : Int → Datum} (j : Json) : OfJson.long f j ≠ .error .endless := by
  cases j <;> simp [OfJson.long]
  split <;> simp

theorem map_codePoints_ne_endless {f : List UInt8 → Datum} (s : String) :
    (OfJson.codePoints s.toList).map f ≠ .error .endless := by
  rw [Ne, map_eq_error_iff]
  exact codePoints_ne_endless _

theorem sized_codePoints_ne_endless {size : Nat} {f : List UInt8 → Datum} {e : Fault} (s : String)
    (he : e ≠ .endless) :
    (do
      let b ← OfJson.codePoints s.toList
      if b.length = size then .ok (f b) else .error e) ≠ Except.error Fault.endless := by
  have := codePoints_ne_endless s.toList
  cases h : OfJson.codePoints s.toList with
  | error e => simpa [h] using this
  | ok b =>
    rw [ok_bind]
    split
    · nofun
    · simpa using he

theorem primitive_ne_endless (p : Primitive) : OfJson.primitive p j ≠ .error .endless := by
  cases p with
  | null => cases j <;> nofun
  | boolean => cases j <;> nofun
  | int => exact number_ne_endless int_ne_endless
  | long => exact number_ne_endless long_ne_endless
  | float =>
    rw [OfJson.primitive]
    split <;> nofun
  | double =>
    rw [OfJson.primitive]
    split <;> nofun
  | bytes => exact text_ne_endless map_codePoints_ne_endless
  | string => exact text_ne_endless nofun
  | bigDecimal =>
    rw [OfJson.primitive, OfJson.bigDecimal.eq_def]
    split
    · dsimp only
      split <;> nofun
    · dsimp only
      split <;> nofun
    · dsimp only
      split <;> nofun
    · nofun
  | uuid => exact text_ne_endless nofun
  | date => exact number_ne_endless int_ne_endless
  | timeMillis => exact number_ne_endless int_ne_endless
  | timeMicros => exact number_ne_endless long_ne_endless
  | timestamp unit zoned => exact number_ne_endless long_ne_endless
  | duration => exact text_ne_endless fun s => sized_codePoints_ne_endless s nofun

theorem leaf_ne_endless : leaf s j ≠ .error .endless := by
  cases s with
  | primitive p => exact primitive_ne_endless p
  | decimal precision scale c => exact text_ne_endless map_codePoints_ne_endless
  | enum e =>
    apply text_ne_endless
    intro symbol
    split <;> simp
  | fixed f => exact text_ne_endless fun s => sized_codePoints_ne_endless s (by simp)
  | _ =>
    intro h
    cases h

theorem giveMembers_ne_endless {record : String} {members : List (String × Json)}
    (fs : List (Field Schema)) (vs : List Datum) :
    giveMembers record members fs vs ≠ .error .endless := by
  induction fs generalizing vs with
  | nil => nofun
  | cons f fs ih =>
    unfold giveMembers
    split
    · nofun
    · simpa using ih _
    · nofun

theorem productive_body : (c.body d).Productive := by
  cases c with
  | value s j =>
    rw [body]
    split
    · nofun
    · unfold valueBody
      split
      next => exact nofun
      next => exact nofun
      next r members =>
        intro vs
        rw [Ne, map_eq_error_iff]
        exact giveMembers_ne_endless _ vs
      next =>
        split
        · trivial
        · exact nofun
      next => exact leaf_ne_endless
  | default s j =>
    rw [body]
    rcases defaultBody_cases s j with h | ⟨first, rest, -, h⟩ | h
    · rw [h]
      nofun
    · rw [h]
      trivial
    · rw [h]
      trivial
  | absent s j => trivial

theorem ofMember?_eq_some {members : List (String × Json)} {f : Field Schema}
    (h : ofMember? members f = some c) :
    (∃ i, Json.lookup f.name members = some i ∧ c = .value f.type i) ∨
      ∃ literal, f.default = some literal ∧ c = .absent f.type literal := by
  rw [ofMember?] at h
  cases hi : Json.lookup f.name members with
  | some i =>
    rw [hi] at h
    cases h
    exact .inl ⟨i, rfl, rfl⟩
  | none =>
    cases hd : f.default with
    | some literal =>
      rw [hi, hd] at h
      cases h
      exact .inr ⟨literal, rfl, rfl⟩
    | none =>
      rw [hi, hd] at h
      cases h

theorem mem_ofMembers {members : List (String × Json)} {fs : List (Field Schema)}
    (h : c ∈ ofMembers members fs) : ∃ f ∈ fs, ofMember? members f = some c := by
  induction fs with
  | nil => cases h
  | cons f fs ih =>
    rw [ofMembers] at h
    split at h
    next c' hc =>
      rcases List.mem_cons.mp h with rfl | h
      · exact ⟨f, by simp, hc⟩
      · obtain ⟨g, hg, hc⟩ := ih h
        exact ⟨g, by simp [hg], hc⟩
    next => cases h

theorem wrapped?_eq_some {ms : List Schema} {i : Nat} {inner : Json}
    (h : wrapped? d ms j = some (i, s, inner)) :
    ∃ name, j = .obj [(name, inner)] ∧ ms.findIdx? (answersTo d name) = some i ∧ ms[i]? = some s := by
  unfold wrapped? at h
  split at h
  next name inner' =>
    cases hi : ms.findIdx? (answersTo d name) with
    | none => simp [hi] at h
    | some i' =>
      cases hs : ms[i']? with
      | none => simp [hi, hs] at h
      | some s' =>
        simp only [hi, hs, Option.bind_eq_bind, Option.bind_some, Option.pure_def, Option.some.injEq,
          Prod.mk.injEq] at h
        obtain ⟨rfl, rfl, rfl⟩ := h
        exact ⟨name, rfl, hi, hs⟩
  next => cases h

theorem mem_valueBody (h : c ∈ (valueBody d s j).calls) :
    (∃ r, s = .record r ∧ ∃ f ∈ r.fields, ∃ literal, f.default = some literal ∧
      c = .absent f.type literal) ∨
    ∃ t ∈ s.parts, ∃ i, c = .value t i ∧ (sizeOf i < sizeOf j ∨ i = j ∧ ∃ ms, s = .union ms) := by
  unfold valueBody at h
  split at h
  next items js =>
    obtain ⟨i, hi, rfl⟩ := List.mem_map.mp h
    have hlt : sizeOf i < sizeOf (Json.arr js) := by
      have := List.sizeOf_lt_of_mem hi
      simp only [Json.arr.sizeOf_spec]
      omega
    exact .inr ⟨items, by simp, i, rfl, .inl hlt⟩
  next values members =>
    obtain ⟨⟨key, i⟩, he, rfl⟩ := List.mem_map.mp h
    have hlt : sizeOf i < sizeOf (Json.obj members) := by
      have := List.sizeOf_lt_of_mem he
      simp only [Json.obj.sizeOf_spec, Prod.mk.sizeOf_spec] at this ⊢
      omega
    exact .inr ⟨values, by simp, i, rfl, .inl hlt⟩
  next r members =>
    obtain ⟨f, hf, hc⟩ := mem_ofMembers h
    rcases ofMember?_eq_some hc with ⟨i, hi, rfl⟩ | ⟨literal, hd, rfl⟩
    · have hlt : sizeOf i < sizeOf (Json.obj members) := by
        have := sizeOf_lookup_lt hi
        simp only [Json.obj.sizeOf_spec]
        omega
      exact .inr ⟨f.type, List.mem_map_of_mem hf, i, rfl, .inl hlt⟩
    · exact .inl ⟨r, rfl, f, hf, literal, hd, rfl⟩
  next ms =>
    split at h
    next i t inner hw =>
      obtain rfl := List.mem_singleton.mp h
      obtain ⟨name, rfl, -, ht⟩ := wrapped?_eq_some hw
      have hlt : sizeOf inner < sizeOf (Json.obj [(name, inner)]) := by
        simp only [Json.obj.sizeOf_spec, List.cons.sizeOf_spec, Prod.mk.sizeOf_spec]
        omega
      exact .inr ⟨t, List.mem_of_getElem? ht, inner, rfl, .inl hlt⟩
    next =>
      obtain ⟨t, ht, rfl⟩ := List.mem_map.mp h
      exact .inr ⟨t, ht, j, rfl, .inr ⟨rfl, ms, rfl⟩⟩
  next => cases h

inductive Of (d : Document) : Call → Prop
  | value {t i} (h : t.Within d.root) : Of d (.value t i)
  | default {t i} (h : t.Within d.root) : Of d (.default t i)
  | absent {r f literal} (h : (Schema.record r).Within d.root) (hf : f ∈ r.fields)
    (hd : f.default = some literal) : Of d (.absent f.type literal)

theorem of_valueBody (hs : s.Within d.root) {c : Call} (h : c ∈ (valueBody d s j).calls) :
    c.Of d := by
  rcases mem_valueBody h with ⟨r, rfl, f, hf, literal, hd, rfl⟩ | ⟨t, ht, i, rfl, -⟩
  · exact .absent hs hf hd
  · exact .value (.part ht hs)

theorem Of.of_body (h : c.Of d) {c' : Call} (hc : c' ∈ (c.body d).calls) : c'.Of d := by
  cases h with
  | @value s j hs =>
    rw [body] at hc
    split at hc
    next => cases hc
    next t ht =>
      cases s with
      | ref name =>
        obtain ⟨t, htn, rfl⟩ := map_eq_ok_iff.mp ht
        cases t with
        | record r => exact of_valueBody (Document.within_of_follow htn) hc
        | _ => cases hc
      | _ =>
        cases ht
        exact of_valueBody hs hc
  | @default s j hs =>
    rw [body] at hc
    rcases defaultBody_cases s j with h | ⟨first, rest, rfl, h⟩ | h
    · rw [h] at hc
      cases hc
    · rw [h] at hc
      obtain rfl := List.mem_singleton.mp hc
      exact .default (.part (by simp) hs)
    · rw [h] at hc
      obtain rfl := List.mem_singleton.mp hc
      exact .value hs
  | absent hr hf hd =>
    obtain rfl := List.mem_singleton.mp hc
    exact .default (Schema.within_field hf hr)

noncomputable def size : Call → Nat × Nat
  | value s j => (sizeOf j, 2 * sizeOf s)
  | default s j => (sizeOf j, 2 * sizeOf s + 1)
  | absent _ literal => (sizeOf literal, 0)

theorem size_lt_of_body (hc : ∀ s literal, c ≠ .absent s literal) {c' : Call}
    (h : c' ∈ (c.body d).calls) (hc' : ∀ s literal, c' ≠ .absent s literal) :
    Prod.Lex (· < ·) (· < ·) c'.size c.size := by
  cases c with
  | value s j =>
    rw [body] at h
    split at h
    next => cases h
    next t ht =>
      rcases mem_valueBody h with ⟨_, _, f, _, literal, _, rfl⟩ | ⟨t', ht', i, rfl, hi⟩
      · exact absurd rfl (hc' _ _)
      · rcases hi with hi | ⟨rfl, ms, rfl⟩
        · exact .left _ _ hi
        · right
          cases s with
          | ref name =>
            obtain ⟨t, -, h⟩ := map_eq_ok_iff.mp ht
            cases t <;> cases h
          | union ms =>
            cases ht
            have := Schema.sizeOf_lt_of_mem_parts ht'
            omega
          | _ => cases ht
  | default s j =>
    rw [body] at h
    rcases defaultBody_cases s j with hb | ⟨first, rest, rfl, hb⟩ | hb
    · rw [hb] at h
      cases h
    · rw [hb] at h
      obtain rfl := List.mem_singleton.mp h
      right
      simp only [Schema.union.sizeOf_spec, List.cons.sizeOf_spec]
      omega
    · rw [hb] at h
      obtain rfl := List.mem_singleton.mp h
      right
      omega
  | absent s literal => exact absurd rfl (hc _ _)

theorem body_induction (d : Document) {P : Call → Prop} (absent : ∀ s literal, P (.absent s literal))
    (body : ∀ c : Call, (∀ s literal, c ≠ .absent s literal) →
      (∀ c' ∈ (c.body d).calls, P c') → P c) (c : Call) : P c := by
  have hwf : WellFounded fun c' c : Call => Prod.Lex (· < ·) (· < ·) c'.size c.size :=
    InvImage.wf size (Prod.lex ⟨(· < ·), Nat.lt_wfRel.wf⟩ ⟨(· < ·), Nat.lt_wfRel.wf⟩).wf
  induction c using hwf.induction with
  | h c ih =>
    by_cases hc : ∃ s literal, c = .absent s literal
    · obtain ⟨s, literal, rfl⟩ := hc
      exact absent s literal
    · have hc' (s literal) (h : c = .absent s literal) : False := hc ⟨s, literal, h⟩
      apply body c hc'
      intro c' h
      by_cases ha : ∃ s literal, c' = .absent s literal
      · obtain ⟨s, literal, rfl⟩ := ha
        exact absent s literal
      · exact ih c' (size_lt_of_body hc' h fun s literal h => ha ⟨s, literal, h⟩)

theorem run_induction (d : Document) {P : Nat → Call → Prop}
    (zero : ∀ s literal, P 0 (.absent s literal))
    (succ : ∀ budget s literal, P budget (.default s literal) → P (budget + 1) (.absent s literal))
    (body : ∀ budget (c : Call), (∀ s literal, c ≠ .absent s literal) →
      (∀ c' ∈ (c.body d).calls, P budget c') → P budget c) (budget : Nat) (c : Call) :
    P budget c := by
  induction budget generalizing c with
  | zero => exact body_induction d zero (body 0) c
  | succ budget ih =>
    exact body_induction d (fun s literal => succ budget s literal (ih _)) (body (budget + 1)) c

theorem run_below_succ (budget : Nat) (c : Call) :
    Body.Below (c.run d budget) (c.run d (budget + 1)) := by
  induction budget, c using run_induction d with
  | zero s literal => exact .inl rfl
  | succ budget s literal ih => exact ih
  | body budget c hc ih =>
    rw [run_eq hc, run_eq hc]
    exact Body.run_below ih

theorem run_below {budget' : Nat} (h : budget ≤ budget') :
    Body.Below (c.run d budget) (c.run d budget') := by
  induction h with
  | refl => exact .refl
  | step _ ih => exact ih.trans (run_below_succ _ c)

end Call

end AvroColumns.Datum
