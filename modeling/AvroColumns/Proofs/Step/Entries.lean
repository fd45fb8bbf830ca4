import Mathlib.Data.List.Induction
import Mathlib.Data.List.Nodup
import AvroColumns.Proofs.Step.Caching
import AvroColumns.Step.Worker

namespace AvroColumns

namespace Cache

variable {c : Cache} {key k : String} {load : Unit → Except Schema.Fault Document} {e : Entry}
  {d : Document}

@[simp] theorem find?_eq_none_iff : c.find? key = none ↔ key ∉ c.keys := by
  simp [find?, keys]

@[simp] theorem keys_insert (c : Cache) (key : String) (d : Document) :
    (c.insert key d).2.keys = c.keys ++ [key] := by
  simp [insert, keys]

@[simp] theorem resolve_of_find? (h : c.find? key = some e) (load : Unit → Except Schema.Fault Document) :
    c.resolve key load = (.ok e, c) := by
  simp only [resolve, resolveSince, h]

theorem resolve_of_load (hk : key ∉ c.keys) (hd : load () = .ok d) :
    c.resolve key load = (.ok ⟨key, c.next, d⟩, (c.insert key d).2) := by
  simp only [resolve, resolveSince, find?_eq_none_iff.mpr hk, hd]
  rfl

theorem resolve_cases (c : Cache) (key : String) (load : Unit → Except Schema.Fault Document) :
    ((key ∈ c.keys ∨ ∀ d, load () ≠ .ok d) ∧ (c.resolve key load).2 = c) ∨
    ∃ d, key ∉ c.keys ∧ load () = .ok d ∧ (c.resolve key load).2 = (c.insert key d).2 := by
  cases hf : c.find? key with
  | some e =>
    refine .inl ⟨.inl ?_, by rw [resolve_of_find? hf]⟩
    by_contra hk
    simp [find?_eq_none_iff.mpr hk] at hf
  | none =>
    have hk := find?_eq_none_iff.mp hf
    cases hd : load () with
    | error f => exact .inl ⟨.inr nofun, by simp only [resolve, resolveSince, hf, hd]⟩
    | ok d => exact .inr ⟨d, hk, rfl, by rw [resolve_of_load hk hd]⟩

theorem nodup_keys_resolve (h : c.keys.Nodup) : (c.resolve key load).2.keys.Nodup := by
  rcases resolve_cases c key load with ⟨-, he⟩ | ⟨d, hk, -, he⟩
  · rwa [he]
  · simpa [he, List.nodup_append, h] using fun k hm => ne_of_mem_of_not_mem hm hk

theorem mem_keys_resolve_iff :
    k ∈ (c.resolve key load).2.keys ↔ k ∈ c.keys ∨ k = key ∧ ∃ d, load () = .ok d := by
  rcases resolve_cases c key load with ⟨hnone, he⟩ | ⟨d, -, hd, he⟩
  · rw [he]
    refine ⟨.inl, ?_⟩
    rintro (hk | ⟨rfl, d, hd⟩)
    · exact hk
    · exact hnone.resolve_right fun h => h d hd
  · simp [he, hd]

theorem find?_resolve (h : c.find? k = some e) (key : String)
    (load : Unit → Except Schema.Fault Document) : (c.resolve key load).2.find? k = some e := by
  rcases resolve_cases c key load with ⟨-, he⟩ | ⟨d, -, -, he⟩
  · rwa [he]
  · simp [he, h]

end Cache

def Session.recent (run : List (Files × Session.Request)) : List (Files × Session.Request) :=
  run.foldl (fun asked x => match x.2 with
    | .clear => []
    | _ => asked ++ [x]) []

namespace Step

variable {s : Step} {fs : Files} {cache : Cache} {r : Row} {key : String} {w : Worker} {e : Cache.Entry}
  {d : Document} {σ : Session} {ws : List Worker} {run : List (Files × Session.Request)}
  {request : Session.Request} {i n : Nat}

/-- The row has a payload and names its schema, under the given key, and schemas are cached. -/
structure Asks (s : Step) (r : Row) (key : String) : Prop where
  cached : s.config.cacheSchemas = true
  payload : ∃ payload, r[s.config.payloadColumn]? = some (some payload)
  named : ∃ column cell text, s.config.schemaColumn = some column ∧ r[column]? = some (some cell) ∧
    cell.text? = some text ∧ Text.isBlankText text = false ∧
    key = if s.config.schemaIsPath then Text.trim text else text

theorem asks_iff :
    s.Asks r key ↔ s.config.cacheSchemas = true ∧
      (∃ payload, r[s.config.payloadColumn]? = some (some payload)) ∧
      ∃ text, s.schemaText r = .ok (some text) ∧
        key = if s.config.schemaIsPath then Text.trim text else text := by
  have htext (text : String) : s.schemaText r = .ok (some text) ↔
      ∃ column cell, s.config.schemaColumn = some column ∧ r[column]? = some (some cell) ∧
        cell.text? = some text ∧ Text.isBlankText text = false := by
    rw [schemaText]
    cases s.config.schemaColumn with
    | none => simp
    | some column =>
      simp only [Option.some.injEq, exists_and_left, exists_eq_left', ← Option.join_eq_some_iff]
      cases (r[column]?).join with
      | none => simp
      | some cell =>
        simp only [Option.some.injEq, exists_eq_left']
        cases cell.text? with
        | none => simp
        | some text' =>
          simp only [Except.ok.injEq, Option.some.injEq]
          split
          next hblank =>
            refine iff_of_false nofun ?_
            rintro ⟨rfl, hfilled⟩
            rw [hblank] at hfilled
            cases hfilled
          next hblank =>
            rw [Option.some.injEq]
            constructor
            · rintro rfl
              exact ⟨rfl, Bool.eq_false_iff.mpr hblank⟩
            · rintro ⟨rfl, -⟩
              rfl
  constructor
  · rintro ⟨hc, hp, column, cell, text, h1, h2, h3, h4, h5⟩
    exact ⟨hc, hp, text, (htext text).mpr ⟨column, cell, h1, h2, h3, h4⟩, h5⟩
  · rintro ⟨hc, hp, text, ht, hk⟩
    obtain ⟨column, cell, h1, h2, h3, h4⟩ := (htext text).mp ht
    exact ⟨hc, hp, column, cell, text, h1, h2, h3, h4, hk⟩

theorem choose_of_asks (h : s.Asks r key) (fs : Files) (cache : Cache) :
    s.choose fs cache cache r =
      (s.named (fun _ => (cache.resolve key fun _ => s.reader fs key).1.map (·.document)) key,
        (cache.resolve key fun _ => s.reader fs key).2) := by
  obtain ⟨hc, -, text, ht, rfl⟩ := asks_iff.mp h
  simp only [choose, ht, chooseNamed, load, hc, if_true, Step.named, reader, Cache.resolve]
  split
  · generalize cache.resolveSince cache (Text.trim text) _ = resolved
    obtain ⟨entry, cache'⟩ := resolved
    cases entry with
    | ok e => rfl
    | error f => cases s.default <;> rfl
  · rfl

theorem decodeRowBy_cache {value : Datum → Chosen → Except Failure (List Row)} {payload : Cell}
    (h : r[s.config.payloadColumn]? = some (some payload)) :
    (s.decodeRowBy value fs cache cache r).2 = (s.choose fs cache cache r).2 := by
  simp only [decodeRowBy, h]
  split
  · rename_i f cache' hchoose
    rw [hchoose]
  · rename_i chosen cache' hchoose
    rw [hchoose]

theorem workRow_of_asks (h : s.Asks r key) :
    (s.workRow w fs cache r).2 = (cache.resolve key fun _ => s.reader fs key).2 := by
  obtain ⟨payload, hp⟩ := h.payload
  rw [workRow, workRowSince, decodeRowBy_cache hp, choose_of_asks h]

theorem workRow_of_not_asks (h : ∀ key, ¬ s.Asks r key) : (s.workRow w fs cache r).2 = cache := by
  rw [workRow, workRowSince]
  cases hp : r[s.config.payloadColumn]? with
  | none => simp only [decodeRowBy, hp]
  | some payload =>
    cases payload with
    | none => simp only [decodeRowBy, hp]
    | some payload =>
      rw [decodeRowBy_cache hp, choose]
      cases ht : s.schemaText r with
      | error f => rfl
      | ok text =>
        cases text with
        | none => rfl
        | some text =>
          have hc : s.config.cacheSchemas = false := by
            rw [Bool.eq_false_iff]
            exact fun hc => h _ (asks_iff.mpr ⟨hc, ⟨payload, hp⟩, text, ht, rfl⟩)
          simp only [chooseNamed, load, hc]
          split
          · cases Document.ofFile fs (Text.trim text) <;> cases s.default <;> rfl
          · rfl

/-- The session after requests, each with the files that are there at the time. -/
def after (s : Step) (σ : Session) (run : List (Files × Session.Request)) : Session :=
  run.foldl (fun σ (fs, request) => (s.respond fs σ request).2) σ

/-- Since the cache was last cleared, one of a number of workers has decoded a row that asks for the
key, and the schema could be loaded at the time. -/
def Loaded (s : Step) (n : Nat) (run : List (Files × Session.Request)) (key : String) : Prop :=
  ∃ fs i r, (fs, .decode i r) ∈ Session.recent run ∧ i < n ∧ s.Asks r key ∧
    ∃ d, s.reader fs key = .ok d

@[simp] theorem after_nil (s : Step) (σ : Session) : s.after σ [] = σ := rfl

@[simp] theorem after_cons (s : Step) (σ : Session) (x : Files × Session.Request)
    (run : List (Files × Session.Request)) :
    s.after σ (x :: run) = s.after (s.respond x.1 σ x.2).2 run :=
  rfl

@[simp] theorem after_append (s : Step) (σ : Session) (run more : List (Files × Session.Request)) :
    s.after σ (run ++ more) = s.after (s.after σ run) more :=
  List.foldl_append ..

theorem after_concat (s : Step) (σ : Session) (run : List (Files × Session.Request)) (fs : Files)
    (request : Session.Request) :
    s.after σ (run ++ [(fs, request)]) = (s.respond fs (s.after σ run) request).2 := by
  simp

theorem recent_concat (run : List (Files × Session.Request)) (fs : Files) (request : Session.Request) :
    Session.recent (run ++ [(fs, request)]) =
      match request with
      | .clear => []
      | request => Session.recent run ++ [(fs, request)] := by
  rw [Session.recent, List.foldl_append]
  cases request <;> rfl

@[simp] theorem length_workers_respond (s : Step) (fs : Files) (σ : Session) (request : Session.Request) :
    (s.respond fs σ request).2.workers.length = σ.workers.length := by
  cases request with
  | bind i vars => exact List.length_modify ..
  | clear => rfl
  | decode i r =>
    rw [respond]
    cases σ.workers[i]? <;> rfl

@[simp] theorem length_workers_after (s : Step) (σ : Session) (run : List (Files × Session.Request)) :
    (s.after σ run).workers.length = σ.workers.length := by
  induction run using List.reverseRecOn with
  | nil => rfl
  | append_singleton run x ih => simp [ih]

theorem respond_cache_cases (s : Step) (fs : Files) (σ : Session) (request : Session.Request) :
    (request = .clear ∧ (s.respond fs σ request).2.cache = σ.cache.clear) ∨
    (∃ i r key, request = .decode i r ∧ i < σ.workers.length ∧ s.Asks r key ∧
      (s.respond fs σ request).2.cache = (σ.cache.resolve key fun _ => s.reader fs key).2) ∨
    ((∀ i r key, request = .decode i r → i < σ.workers.length → ¬ s.Asks r key) ∧ request ≠ .clear ∧
      (s.respond fs σ request).2.cache = σ.cache) := by
  cases request with
  | clear => exact .inl ⟨rfl, rfl⟩
  | bind i vars => exact .inr (.inr ⟨nofun, nofun, rfl⟩)
  | decode i r =>
    rw [respond]
    cases hw : σ.workers[i]? with
    | none =>
      refine .inr (.inr ⟨?_, nofun, rfl⟩)
      rintro j r' key ⟨rfl, rfl⟩ hi
      exact absurd hi (Nat.not_lt.mpr (List.getElem?_eq_none_iff.mp hw))
    | some w =>
      by_cases h : ∃ key, s.Asks r key
      · obtain ⟨key, h⟩ := h
        have hi := (List.getElem?_eq_some_iff.mp hw).1
        exact .inr (.inl ⟨i, r, key, rfl, hi, h, workRow_of_asks h⟩)
      · push Not at h
        refine .inr (.inr ⟨?_, nofun, workRow_of_not_asks h⟩)
        rintro j r' key ⟨rfl, rfl⟩ -
        exact h key

theorem Asks.unique {key' : String} (h : s.Asks r key) (h' : s.Asks r key') : key = key' := by
  obtain ⟨-, -, text, ht, rfl⟩ := asks_iff.mp h
  obtain ⟨-, -, text', ht', rfl⟩ := asks_iff.mp h'
  obtain rfl : text = text' := Option.some.inj (Except.ok.inj (ht.symm.trans ht'))
  rfl

theorem not_loaded_clear : ¬ s.Loaded n (run ++ [(fs, .clear)]) key := by
  rintro ⟨fs', i, r, hm, -⟩
  simp [recent_concat] at hm

theorem loaded_concat_iff (h : request ≠ .clear) :
    s.Loaded n (run ++ [(fs, request)]) key ↔ s.Loaded n run key ∨
      ∃ i r, request = .decode i r ∧ i < n ∧ s.Asks r key ∧ ∃ d, s.reader fs key = .ok d := by
  have hrecent : Session.recent (run ++ [(fs, request)]) = Session.recent run ++ [(fs, request)] := by
    rw [recent_concat]
    cases request with
    | clear => exact absurd rfl h
    | _ => rfl
  simp only [Loaded, hrecent, List.mem_append, List.mem_singleton, Prod.mk.injEq]
  constructor
  · rintro ⟨fs', i, r, hm | ⟨rfl, rfl⟩, hi, hasks, hd⟩
    · exact .inl ⟨fs', i, r, hm, hi, hasks, hd⟩
    · exact .inr ⟨i, r, rfl, hi, hasks, hd⟩
  · rintro (⟨fs', i, r, hm, hi, hasks, hd⟩ | ⟨i, r, rfl, hi, hasks, hd⟩)
    · exact ⟨fs', i, r, .inl hm, hi, hasks, hd⟩
    · exact ⟨fs, i, r, .inr ⟨rfl, rfl⟩, hi, hasks, hd⟩

theorem nodup_keys_after (s : Step) (ws : List Worker) (run : List (Files × Session.Request)) :
    (s.after ⟨.empty, ws⟩ run).cache.keys.Nodup := by
  induction run using List.reverseRecOn with
  | nil => exact List.nodup_nil
  | append_singleton run x ih =>
    obtain ⟨fs, request⟩ := x
    rw [after_concat]
    rcases respond_cache_cases s fs (s.after ⟨.empty, ws⟩ run) request with
      ⟨-, hc⟩ | ⟨i, r, key, -, -, -, hc⟩ | ⟨-, -, hc⟩
    · rw [hc]
      exact List.nodup_nil
    · rw [hc]
      exact Cache.nodup_keys_resolve ih
    · rwa [hc]

theorem mem_keys_after_iff (s : Step) (ws : List Worker) (run : List (Files × Session.Request))
    (key : String) :
    key ∈ (s.after ⟨.empty, ws⟩ run).cache.keys ↔ s.Loaded ws.length run key := by
  induction run using List.reverseRecOn with
  | nil =>
    refine iff_of_false List.not_mem_nil ?_
    rintro ⟨fs, i, r, hm, -⟩
    cases hm
  | append_singleton run x ih =>
    obtain ⟨fs, request⟩ := x
    have hlength := length_workers_after s ⟨.empty, ws⟩ run
    rw [after_concat]
    rcases respond_cache_cases s fs (s.after ⟨.empty, ws⟩ run) request with
      ⟨rfl, hc⟩ | ⟨i, r, key', rfl, hi, hasks, hc⟩ | ⟨hasks, hclear, hc⟩
    · rw [hc]
      exact iff_of_false List.not_mem_nil not_loaded_clear
    · have hdecode : Session.Request.decode i r ≠ .clear := nofun
      rw [hc, Cache.mem_keys_resolve_iff, ih, loaded_concat_iff hdecode]
      refine or_congr_right ⟨?_, ?_⟩
      · rintro ⟨rfl, hd⟩
        exact ⟨i, r, rfl, hlength ▸ hi, hasks, hd⟩
      · rintro ⟨j, r', ⟨rfl, rfl⟩, -, hasks', hd⟩
        exact ⟨hasks'.unique hasks, (hasks'.unique hasks) ▸ hd⟩
    · rw [hc, ih, loaded_concat_iff hclear, or_iff_left]
      rintro ⟨i, r, rfl, hi, hasks', -⟩
      exact hasks i r key rfl (hlength ▸ hi) hasks'

theorem find?_respond (h : σ.cache.find? key = some e) (hr : request ≠ .clear) :
    (s.respond fs σ request).2.cache.find? key = some e := by
  rcases respond_cache_cases s fs σ request with ⟨rfl, -⟩ | ⟨i, r, key', -, -, -, hc⟩ | ⟨-, -, hc⟩
  · exact absurd rfl hr
  · rw [hc]
    exact Cache.find?_resolve h _ _
  · rwa [hc]

theorem find?_after (h : σ.cache.find? key = some e) (hrun : ∀ x ∈ run, x.2 ≠ .clear) :
    (s.after σ run).cache.find? key = some e := by
  induction run generalizing σ with
  | nil => exact h
  | cons x run ih =>
    rw [List.forall_mem_cons] at hrun
    exact ih (find?_respond h hrun.1) hrun.2

/-- After any requests the cache has one entry for each key under which a schema was loaded since it was
last cleared. A look-up of the key, whatever it would load, gives the entry that the first loading made, and
a row that asks for the key is decoded with its schema. -/
theorem cache_entries (s : Step) (ws : List Worker) (run : List (Files × Session.Request)) :
    (s.after ⟨.empty, ws⟩ run).cache.keys.Nodup ∧
    (∀ key, key ∈ (s.after ⟨.empty, ws⟩ run).cache.keys ↔ s.Loaded ws.length run key) ∧
    ∀ prior fs i r later key d, run = prior ++ (fs, .decode i r) :: later →
      (∀ x ∈ later, x.2 ≠ .clear) → i < ws.length → s.Asks r key → s.reader fs key = .ok d →
      ¬ s.Loaded ws.length prior key →
      ∃ e : Cache.Entry, e.document = d ∧
        ((s.after ⟨.empty, ws⟩ prior).cache.resolve key fun _ => s.reader fs key).1 = .ok e ∧
        ∀ cache, (s.after ⟨.empty, ws⟩ run).cache = cache →
          (∀ load : Unit → Except Schema.Fault Document, cache.resolve key load = (.ok e, cache)) ∧
          ∀ fs' r', s.Asks r' key → s.choose fs' cache cache r' = (.ok ⟨d, false⟩, cache) := by
  refine ⟨nodup_keys_after s ws run, mem_keys_after_iff s ws run, ?_⟩
  rintro prior fs i r later key d rfl hlater hi hasks hd hnew
  rw [← mem_keys_after_iff s ws prior key] at hnew
  have hlength := length_workers_after s ⟨.empty, ws⟩ prior
  generalize hσ : s.after ⟨.empty, ws⟩ prior = σ at hnew hlength
  have hmade : σ.cache.resolve key (fun _ => s.reader fs key) = _ := Cache.resolve_of_load hnew hd
  refine ⟨⟨key, σ.cache.next, d⟩, rfl, congrArg Prod.fst hmade, ?_⟩
  rintro _ rfl
  have hentry : (s.respond fs σ (.decode i r)).2.cache.find? key = some ⟨key, σ.cache.next, d⟩ := by
    rcases respond_cache_cases s fs σ (.decode i r) with h | ⟨j, r', key', h, -, hasks', hc⟩ | ⟨h, -, -⟩
    · cases h.1
    · cases h
      obtain rfl := hasks.unique hasks'
      simp [hc, hmade, Cache.find?_eq_none_iff.mpr hnew]
    · exact absurd hasks (h i r key rfl (hlength.symm ▸ hi))
  have hfound : (s.after ⟨.empty, ws⟩ (prior ++ (fs, .decode i r) :: later)).cache.find? key =
      some ⟨key, σ.cache.next, d⟩ := by
    simpa [hσ] using find?_after hentry hlater
  refine ⟨Cache.resolve_of_find? hfound, fun fs' r' hasks' => ?_⟩
  rw [choose_of_asks hasks', Cache.resolve_of_find? hfound, named]
  split <;> rfl

def filed : Step :=
  ⟨{ schemaColumn := some 1, schemaIsPath := true }, ⟨[], [], []⟩, none⟩

def filedRow : Row :=
  [some (.string "payload"), some (.string " int.avsc ")]

def oneFile : Files :=
  fun name => if name = "int.avsc" then .ok (Utf8.encode "\"int\"") else .error .notFound

def filedRun : List (Files × Session.Request) :=
  [(.none, .decode 0 filedRow), (oneFile, .decode 0 filedRow), (.none, .decode 0 filedRow)]

theorem reader_none (d : Document) : filed.reader .none key ≠ .ok d := by
  have hfile : filed.reader .none key = Document.ofFile .none key := rfl
  rw [hfile, Document.ofFile, Document.ofContainer]
  split <;> nofun

@[simp] theorem reader_oneFile :
    filed.reader oneFile "int.avsc" = .ok (.ofSchema (.primitive .int)) := by
  have hfile : filed.reader oneFile "int.avsc" = Document.ofFile oneFile "int.avsc" := rfl
  have hname : Document.isContainerName "int.avsc" = false := by decide +kernel
  have htext : oneFile.text "int.avsc" = .ok "\"int\"" := by decide +kernel
  rw [hfile, Document.ofFile, hname, htext]
  rfl

theorem cache_entries_filed :
    ∃ cache, (filed.after ⟨.empty, [⟨none, none⟩]⟩ filedRun).cache = cache ∧
      cache.keys.Nodup ∧ "int.avsc" ∈ cache.keys ∧
      filed.choose .none cache cache filedRow =
        (.ok ⟨.ofSchema (.primitive .int), false⟩, cache) := by
  have hasks : filed.Asks filedRow "int.avsc" :=
    ⟨rfl, ⟨_, rfl⟩, 1, _, _, rfl, rfl, rfl, by decide +kernel, by decide +kernel⟩
  obtain ⟨hnodup, hkeys, hentry⟩ := cache_entries filed [⟨none, none⟩] filedRun
  have hloaded : filed.Loaded 1 filedRun "int.avsc" :=
    ⟨oneFile, 0, filedRow, .tail _ (.head _), Nat.one_pos, hasks, _, reader_oneFile⟩
  have hnew : ¬ filed.Loaded 1 [(.none, .decode 0 filedRow)] "int.avsc" := by
    rintro ⟨fs, i, r, hm, -, -, d, hd⟩
    cases List.mem_singleton.mp hm
    exact reader_none d hd
  obtain ⟨e, he, -, hcache⟩ := hentry [(.none, .decode 0 filedRow)] oneFile 0 filedRow
    [(.none, .decode 0 filedRow)] "int.avsc" _ rfl (by simp) Nat.one_pos hasks reader_oneFile hnew
  exact ⟨_, rfl, hnodup, (hkeys _).mpr hloaded, (hcache _ rfl).2 .none filedRow hasks⟩

end Step

end AvroColumns
