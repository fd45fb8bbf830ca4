import AvroColumns.Proofs.Outcome
import AvroColumns.Step.Row

namespace AvroColumns

namespace Cache

variable {load read : String → Except Schema.Fault Document} {seen c : Cache} {key : String} {e : Entry}
  {d : Document}

def Sound (read : String → Except Schema.Fault Document) (c : Cache) : Prop :=
  ∀ e ∈ c.entries, read e.key = .ok e.document

theorem sound_empty (read : String → Except Schema.Fault Document) : empty.Sound read := by
  intro e h
  cases h

theorem Sound.find? (h : c.Sound read) (he : c.find? key = some e) : read key = .ok e.document := by
  have hk := List.find?_some he
  simp only [beq_iff_eq] at hk
  rw [← hk]
  exact h e (List.mem_of_find?_eq_some he)

structure Backs (load read : String → Except Schema.Fault Document) (c : Cache) : Prop where
  hit {key : String} {e : Entry} : c.find? key = some e → read key = .ok e.document
  miss {key : String} : c.find? key = none → load key = read key

theorem Sound.backs (h : c.Sound load) : c.Backs load load :=
  ⟨h.find?, fun _ => rfl⟩

theorem backs_clear (load : String → Except Schema.Fault Document) (c : Cache) :
    c.clear.Backs load load :=
  ⟨nofun, fun _ => rfl⟩

theorem exists_backs (load : String → Except Schema.Fault Document) (c : Cache) :
    ∃ read, c.Backs load read := by
  refine ⟨fun key => (c.find? key).elim (load key) fun e => .ok e.document, fun h => ?_, fun h => ?_⟩
  · rw [h, Option.elim_some]
  · rw [h, Option.elim_none]

@[simp] theorem find?_insert (k : String) :
    (c.insert key d).2.find? k =
      (c.find? k).or (if key = k then some ⟨key, c.next, d⟩ else none) := by
  simp only [insert, find?, List.find?_append]
  by_cases hk : key = k <;> simp [hk]

theorem Backs.insert (h : c.Backs load read) (hd : read key = .ok d) :
    (c.insert key d).2.Backs load read := by
  constructor
  · intro k e he
    cases hf : c.find? k with
    | some e' =>
      obtain rfl : e' = e := by simpa [hf] using he
      exact h.hit hf
    | none =>
      obtain ⟨rfl, rfl⟩ : key = k ∧ ⟨key, c.next, d⟩ = e := by simpa [hf] using he
      exact hd
  · intro k hk
    rw [find?_insert, Option.or_eq_none_iff] at hk
    exact h.miss hk.1

theorem Backs.resolveSince (hseen : seen.Backs load read) (h : c.Backs load read) (key : String) :
    (seen.resolveSince c key fun _ => load key).1.map (·.document) = read key ∧
      (seen.resolveSince c key fun _ => load key).2.Backs load read := by
  rw [Cache.resolveSince]
  cases hf : seen.find? key with
  | some e => exact ⟨(hseen.hit hf).symm, h⟩
  | none =>
    simp only
    rw [hseen.miss hf]
    cases hd : read key with
    | error f => exact ⟨rfl, h⟩
    | ok d =>
      cases hc : c.find? key with
      | some e => exact ⟨(h.hit hc).symm.trans hd, h⟩
      | none => exact ⟨rfl, h.insert hd⟩

end Cache

namespace Step

variable {s : Step} {fs : Files} {seen cache : Cache} {text key : String} {r : Row}
  {read : String → Except Schema.Fault Document}

/-- How a step reads the schema that a row names, without a cache. -/
def reader (s : Step) (fs : Files) : String → Except Schema.Fault Document :=
  if s.config.schemaIsPath then Document.ofFile fs else Document.ofText

/-- The schemas of a step with a cache come as they are read in this way. -/
def Backs (s : Step) (fs : Files) (read : String → Except Schema.Fault Document) (cache : Cache) : Prop :=
  if s.config.cacheSchemas then cache.Backs (s.reader fs) read else s.reader fs = read

theorem exists_backs (s : Step) (fs : Files) (cache : Cache) : ∃ read, s.Backs fs read cache := by
  cases hc : s.config.cacheSchemas with
  | true =>
    obtain ⟨read, h⟩ := Cache.exists_backs (s.reader fs) cache
    exact ⟨read, by rwa [Backs, hc]⟩
  | false => exact ⟨s.reader fs, by rw [Backs, hc]; rfl⟩

theorem backs_of_sound (h : cache.Sound (s.reader fs)) : s.Backs fs (s.reader fs) cache := by
  rw [Backs]
  split
  · exact h.backs
  · rfl

theorem backs_clear (s : Step) (fs : Files) (cache : Cache) :
    s.Backs fs (s.reader fs) cache.clear := by
  rw [Backs]
  split
  · exact Cache.backs_clear _ cache
  · rfl

def named (s : Step) (read : String → Except Schema.Fault Document) (text : String) :
    Except Failure Chosen :=
  if s.config.schemaIsPath then
    match read (Text.trim text), s.default with
    | .ok d, _ => .ok ⟨d, false⟩
    | .error _, some d => .ok ⟨d, true⟩
    | .error f, none => .error (.schema f)
  else ((read text).map (⟨·, false⟩)).mapError Failure.schema

def chosen (s : Step) (read : String → Except Schema.Fault Document) (r : Row) :
    Except Failure Chosen :=
  match s.schemaText r with
  | .error f => .error f
  | .ok (some text) => s.named read text
  | .ok none =>
    s.chooseDefault (if s.config.schemaColumn.isSome then .noneInRow else .noneConfigured)

def rowsBy (s : Step) (value : Datum → Chosen → Except Failure (List Row))
    (read : String → Except Schema.Fault Document) (r : Row) : Except Failure (List Row) :=
  match r[s.config.payloadColumn]? with
  | none => .error (.configuration (.payloadOutOfRange s.config.payloadColumn r.length))
  | some none => .ok [r ++ List.replicate s.width none]
  | some (some payload) => do
    let chosen ← s.chosen read r
    let v ← chosen.document.decodePayload s.config.encoding payload
    value v chosen

theorem load_of_backs (hseen : s.Backs fs read seen) (h : s.Backs fs read cache) (key : String) :
    ∃ cache', s.load seen cache key (s.reader fs) = (read key, cache') ∧ s.Backs fs read cache' := by
  rw [load]
  rw [Backs] at h hseen
  cases hc : s.config.cacheSchemas with
  | false =>
    rw [hc] at h
    cases h
    refine ⟨cache, rfl, ?_⟩
    rw [Backs, hc]
    rfl
  | true =>
    rw [hc, if_pos rfl] at h hseen
    obtain ⟨hr, hs⟩ := hseen.resolveSince h key
    refine ⟨_, Prod.ext hr rfl, ?_⟩
    rw [Backs, hc]
    exact hs

theorem chooseNamed_of_backs (hseen : s.Backs fs read seen) (h : s.Backs fs read cache) :
    ∃ cache', s.chooseNamed fs seen cache text = (s.named read text, cache') ∧
      s.Backs fs read cache' := by
  rw [chooseNamed, named]
  cases hp : s.config.schemaIsPath with
  | true =>
    obtain ⟨cache', hl, hs⟩ := load_of_backs hseen h (Text.trim text)
    rw [reader, hp, if_pos rfl] at hl
    simp only [if_true]
    rw [hl]
    refine ⟨cache', ?_, hs⟩
    cases read (Text.trim text) with
    | ok d => rfl
    | error f => cases s.default <;> rfl
  | false =>
    obtain ⟨cache', hl, hs⟩ := load_of_backs hseen h text
    rw [reader, hp] at hl
    simp only [Bool.false_eq_true, if_false] at hl ⊢
    rw [hl]
    exact ⟨cache', rfl, hs⟩

theorem choose_of_backs (hseen : s.Backs fs read seen) (h : s.Backs fs read cache) :
    ∃ cache', s.choose fs seen cache r = (s.chosen read r, cache') ∧ s.Backs fs read cache' := by
  rw [choose, chosen]
  cases s.schemaText r with
  | error f => exact ⟨cache, rfl, h⟩
  | ok text =>
    cases text with
    | none => exact ⟨cache, rfl, h⟩
    | some text => exact chooseNamed_of_backs hseen h

theorem decodeRowBy_of_backs (value : Datum → Chosen → Except Failure (List Row))
    (hseen : s.Backs fs read seen) (h : s.Backs fs read cache) :
    ∃ cache', s.decodeRowBy value fs seen cache r = (s.rowsBy value read r, cache') ∧
      s.Backs fs read cache' := by
  rw [decodeRowBy, rowsBy]
  cases r[s.config.payloadColumn]? with
  | none => exact ⟨cache, rfl, h⟩
  | some payload =>
    cases payload with
    | none => exact ⟨cache, rfl, h⟩
    | some payload =>
      obtain ⟨cache', hc, hs⟩ := choose_of_backs (r := r) hseen h
      simp only
      rw [hc]
      refine ⟨cache', ?_, hs⟩
      cases s.chosen read r <;> rfl

end Step

end AvroColumns
