import AvroColumns.Proofs.Datum.Encoding

namespace AvroColumns.Datum

def typeName? (d : Document) (s : Schema) : Option TypeName :=
  match d.resolve s with
  | .ok t => t.name?
  | .error _ => none

def fullName? (d : Document) (s : Schema) : Option String :=
  (typeName? d s).map (·.full)

/-- A member that answers to a name which is not its full name. -/
inductive Shadows (d : Document) (name : String) : Schema → Prop
  | base {n s} (hs : typeName? d s = some n) (hf : n.full ≠ name) (hb : n.base = name) :
    Shadows d name s
  | label {s t} (hs : d.resolve s = .ok t) (hn : t.name? = none) (hl : t.label = name) :
    Shadows d name s

/-- A document under this name is decoded as one for the member at this position. -/
def Selects (d : Document) (ms : List Schema) (name : String) (i : Nat) : Prop :=
  ∃ s, ms[i]? = some s ∧ ∀ (enter : Schema → Json → Except Fault Datum) (j : Json),
    ofJson d enter (.union ms) (.obj [(name, j)]) = (ofJson d enter s j).map (.union i)

variable {d : Document} {ms : List Schema} {i : Nat} {s : Schema} {name : String}

theorem typeName?_eq_some_iff {n : TypeName} :
    typeName? d s = some n ↔ ∃ t, d.resolve s = .ok t ∧ t.name? = some n := by
  rw [typeName?]
  cases d.resolve s <;> simp

theorem fullName?_eq_some_iff :
    fullName? d s = some name ↔ ∃ n, typeName? d s = some n ∧ n.full = name :=
  Option.map_eq_some_iff

theorem answersTo_iff : answersTo d name s ↔ fullName? d s = some name ∨ Shadows d name s := by
  rw [fullName?_eq_some_iff]
  constructor
  · intro h
    rw [answersTo] at h
    split at h
    next => cases h
    next t ht =>
      split at h
      next n hn =>
        have hs : typeName? d s = some n := typeName?_eq_some_iff.mpr ⟨t, ht, hn⟩
        by_cases hf : n.full = name
        · exact .inl ⟨n, hs, hf⟩
        · exact .inr (.base hs hf (by simpa [hf] using h))
      next hn => exact .inr (.label ht hn (eq_of_beq h))
  · rintro (⟨n, hs, rfl⟩ | ⟨hs, -, rfl⟩ | ⟨ht, hn, rfl⟩)
    · obtain ⟨t, ht, hn⟩ := typeName?_eq_some_iff.mp hs
      simp [answersTo, ht, hn]
    · obtain ⟨t, ht, hn⟩ := typeName?_eq_some_iff.mp hs
      simp [answersTo, ht, hn]
    · simp [answersTo, ht, hn]

theorem selects_of_findIdx? (h : ms.findIdx? (answersTo d name) = some i) : Selects d ms name i := by
  obtain ⟨hl, -, -⟩ := List.findIdx?_eq_some_iff_getElem.mp h
  refine ⟨ms[i], List.getElem?_eq_getElem hl, ?_⟩
  intro enter j
  rw [ofJson_union, wrapped?_of_findIdx? h (List.getElem?_eq_getElem hl)]

/-- Where the named members differ in their full names, a document under one of them is for its member
or for one in front, and for its member exactly if none in front answers to the name as well. -/
theorem full_name_selects (hd : (ms.filterMap (fullName? d)).Nodup) (hi : ms[i]? = some s)
    (hs : fullName? d s = some name) :
    ∃ k, Selects d ms name k ∧
      (k = i ↔ ∀ l u, l < i → ms[l]? = some u → ¬ Shadows d name u) ∧
      (k ≠ i → k < i ∧ ∃ t, ms[k]? = some t ∧ Shadows d name t) := by
  have hans : answersTo d name s := answersTo_iff.mpr (.inl hs)
  have hsome : (ms.findIdx? (answersTo d name)).isSome := by
    rw [List.findIdx?_isSome]
    exact List.any_eq_true.mpr ⟨s, List.mem_of_getElem? hi, hans⟩
  obtain ⟨k, hk⟩ := Option.isSome_iff_exists.mp hsome
  obtain ⟨hl, hfirst, hbefore⟩ := List.findIdx?_eq_some_iff_getElem.mp hk
  obtain ⟨hil, rfl⟩ := List.getElem?_eq_some_iff.mp hi
  -- the member itself answers, so that the first that does is no later one
  have hki : k ≤ i := by
    by_contra hlt
    exact hbefore i (by omega) hans
  have hshadow (hne : k ≠ i) : Shadows d name ms[k] := by
    rcases answersTo_iff.mp hfirst with hfull | h
    · have hpair := List.pairwise_iff_getElem.mp (List.pairwise_filterMap.mp hd)
      exact absurd rfl (hpair k i hl hil (by omega) name hfull name hs)
    · exact h
  refine ⟨k, selects_of_findIdx? hk, ⟨?_, ?_⟩, ?_⟩
  · rintro rfl l u hlt hu hsh
    obtain ⟨hll, rfl⟩ := List.getElem?_eq_some_iff.mp hu
    exact hbefore l hlt (answersTo_iff.mpr (.inr hsh))
  · intro hnone
    by_contra hne
    exact hnone k _ (by omega) (List.getElem?_eq_getElem hl) (hshadow hne)
  · intro hne
    exact ⟨by omega, _, List.getElem?_eq_getElem hl, hshadow hne⟩

def namesake (space : String) : Schema :=
  .record ⟨⟨space, "A"⟩, [⟨"x", [], .primitive .int, none⟩]⟩

def namesakeJson (space : String) : Json :=
  .obj [("fields", .arr [.obj [("name", .str "x"), ("type", .str "int")]]),
    ("name", .str "A"), ("namespace", .str space), ("type", .str "record")]

theorem not_shadows_namesake : ¬ Shadows d "n.A" (namesake "") := by
  rintro (⟨hs, -, hb⟩ | ⟨hs, hn, -⟩)
  · cases hs
    revert hb
    decide
  · cases hs
    cases hn

theorem full_name_selects_namesakes :
    ∃ d, Document.ofText (Json.arr [namesakeJson "", namesakeJson "n"]).text = .ok d ∧
      d.root = .union [namesake "", namesake "n"] ∧
      ([namesake "", namesake "n"].filterMap (fullName? d)).Nodup ∧
      fullName? d (namesake "n") = some "n.A" ∧
      ∀ j, d.decode (.obj [("n.A", j)]) = (ofJson d d.enter (namesake "n") j).map (.union 1) := by
  let d : Document := .ofSchema (.union [namesake "", namesake "n"])
  have ht : Document.ofText (Json.arr [namesakeJson "", namesakeJson "n"]).text = .ok d := by cbv
  have hd : ([namesake "", namesake "n"].filterMap (fullName? d)).Nodup := by decide
  have hf : fullName? d (namesake "n") = some "n.A" := by decide
  refine ⟨d, ht, rfl, hd, hf, fun j => ?_⟩
  obtain ⟨k, ⟨s, hk, hs⟩, hiff, -⟩ := full_name_selects hd (i := 1) rfl hf
  have h : k = 1 := by
    refine hiff.mpr fun l u hl hu => ?_
    obtain rfl : l = 0 := by omega
    cases hu
    exact not_shadows_namesake
  subst h
  cases hk
  exact hs d.enter j

theorem base_of_another_selects :
    ∃ d, Document.ofText (Json.arr [namesakeJson "n", namesakeJson ""]).text = .ok d ∧
      d.root = .union [namesake "n", namesake ""] ∧
      ([namesake "n", namesake ""].filterMap (fullName? d)).Nodup ∧
      fullName? d (namesake "") = some "A" ∧
      ofJson d d.enter (namesake "") (.obj [("x", .int 1)]) = .ok (.record [("x", .int 1)]) ∧
      d.decode (.obj [("A", .obj [("x", .int 1)])]) = .ok (.union 0 (.record [("x", .int 1)])) := by
  refine ⟨.ofSchema (.union [namesake "n", namesake ""]), by cbv, rfl, by decide, by decide, ?_, ?_⟩
  · cbv
  · cbv

end AvroColumns.Datum
