import Mathlib.Logic.Function.Basic
import AvroColumns.Proofs.Step.Assembly
import AvroColumns.Proofs.Step.Caching

/-!
# Sessions

In a session workers are bound and decode rows in any order, over one cache. What a worker answers
depends on the row and on the variables it was last bound to. The invariant is that the cache backs the
reading of schemas and that every worker serves its last variables.
-/

namespace AvroColumns

open Outcome

def Session.Request.note (lasts : Nat → Option Variables) : Session.Request → Nat → Option Variables
  | .bind i vars => Function.update lasts i (some vars)
  | _ => lasts

def Session.Request.latest (requests : List Session.Request) : Nat → Option Variables :=
  requests.foldl note fun _ => none

/-- Schemas come as they are read, and each worker serves the variables it was last bound to. -/
structure Session.Valid (s : Step) (fs : Files) (lasts : Nat → Option Variables) (σ : Session) :
    Prop where
  cache : s.Backs fs (s.reader fs) σ.cache
  workers {i : Nat} {w : Worker} : σ.workers[i]? = some w → s.Serves (lasts i) w

namespace Step

variable {s : Step} {fs : Files} {c : Config} {σ : Session} {lasts : Nat → Option Variables}
  {requests : List Session.Request} {request : Session.Request} {i k : Nat} {r : Row} {w : Worker}
  {last : Option Variables} {default : Option Document}
  {read : String → Except Schema.Fault Document}

def answer (s : Step) (read : String → Except Schema.Fault Document) (last : Option Variables)
    (r : Row) : Except Failure (List Row) :=
  s.rowsBy (fun v chosen => s.decodeValue (last.map s.bind) r v chosen.document chosen.isDefault)
    read r

theorem Serves.workRowSince {seen cache : Cache} (hw : s.Serves last w) (hseen : s.Backs fs read seen)
    (hc : s.Backs fs read cache) :
    ∃ cache', s.workRowSince w fs seen cache r = (s.answer read last r, cache') ∧
      s.Backs fs read cache' := by
  have hv : (fun v (chosen : Chosen) => s.workValue w r v chosen.document chosen.isDefault) =
      fun v chosen => s.decodeValue (last.map s.bind) r v chosen.document chosen.isDefault := by
    funext v chosen
    exact hw.workValue
  rw [Step.workRowSince, hv]
  exact decodeRowBy_of_backs _ hseen hc

theorem respond_decode (h : σ.Valid s fs lasts) (hi : i < σ.workers.length) :
    (s.respond fs σ (.decode i r)).1 = some (s.answer (s.reader fs) (lasts i) r) := by
  obtain ⟨cache', hw, -⟩ :=
    (h.workers (List.getElem?_eq_getElem hi)).workRowSince (r := r) h.cache h.cache
  simp only [respond, List.getElem?_eq_getElem hi, workRow]
  rw [hw]

theorem respond_valid (h : σ.Valid s fs lasts) (request : Session.Request) :
    (s.respond fs σ request).2.Valid s fs (request.note lasts) ∧
      (s.respond fs σ request).2.workers.length = σ.workers.length := by
  cases request with
  | clear => exact ⟨⟨backs_clear s fs σ.cache, h.workers⟩, rfl⟩
  | bind j vars =>
    refine ⟨⟨h.cache, fun {i w} hw => ?_⟩, List.length_modify ..⟩
    simp only [respond, List.getElem?_modify] at hw
    obtain ⟨w', hw', rfl⟩ := Option.map_eq_some_iff.mp hw
    rw [Session.Request.note]
    by_cases hj : j = i
    · subst hj
      rw [Function.update_self, if_pos rfl]
      exact .bound vars (h.workers hw')
    · rw [Function.update_of_ne (Ne.symm hj), if_neg hj]
      exact h.workers hw'
  | decode j r =>
    rw [respond]
    cases hw : σ.workers[j]? with
    | none => exact ⟨h, rfl⟩
    | some w =>
      obtain ⟨cache', hrow, hs⟩ := (h.workers hw).workRowSince (r := r) h.cache h.cache
      simp only [workRow, hrow]
      exact ⟨⟨hs, h.workers⟩, trivial⟩

theorem responses_of_valid (h : σ.Valid s fs lasts) (hk : requests[k]? = some (.decode i r))
    (hi : i < σ.workers.length) :
    (s.responses fs σ requests)[k]? =
      some (some (s.answer (s.reader fs) ((requests.take k).foldl Session.Request.note lasts i) r)) := by
  -- The session and the last variables change with every request, so both are generalized.
  induction requests generalizing σ lasts k with
  | nil => simp at hk
  | cons request rest ih =>
    rw [responses]
    cases k with
    | zero =>
      cases hk
      simp only [List.getElem?_cons_zero, List.take_zero, List.foldl_nil]
      rw [respond_decode h hi]
    | succ k =>
      obtain ⟨hv, hl⟩ := respond_valid h request
      rw [List.getElem?_cons_succ, List.take_succ_cons, List.foldl_cons]
      exact ih hv hk (hl ▸ hi)

def uncached (s : Step) : Step :=
  { s with config := { s.config with cacheSchemas := false } }

@[simp] theorem guide_uncached : s.uncached.guide = s.guide :=
  rfl

@[simp] theorem width_uncached : s.uncached.width = s.width :=
  rfl

@[simp] theorem columns_uncached : s.uncached.columns = s.columns :=
  rfl

@[simp] theorem bind_uncached : s.uncached.bind = s.bind :=
  rfl

@[simp] theorem cells_uncached : s.uncached.cells = s.cells := by
  funext g b v
  simp [cells]

@[simp] theorem decodeValue_uncached : s.uncached.decodeValue = s.decodeValue := by
  funext binding passed v d isDefault
  cases binding <;> simp [decodeValue]

@[simp] theorem named_uncached {text : String} : s.uncached.named read text = s.named read text :=
  rfl

@[simp] theorem schemaText_uncached : s.uncached.schemaText r = s.schemaText r :=
  rfl

@[simp] theorem chosen_uncached : s.uncached.chosen read r = s.chosen read r :=
  rfl

@[simp] theorem answer_uncached : s.uncached.answer read last r = s.answer read last r := by
  rw [answer, answer, rowsBy, rowsBy, decodeValue_uncached, chosen_uncached, bind_uncached]
  rfl

theorem assemble_uncached :
    assemble { c with cacheSchemas := false } default = (assemble c default).map uncached := by
  have hcolumns : { c with cacheSchemas := false }.columns = c.columns := rfl
  rw [assemble_of_columns hcolumns]
  cases h : assemble c default with
  | error f => rfl
  | ok s => simp [uncached, (assemble_eq_ok h).1]

theorem ofConfig_uncached :
    ofConfig fs { c with cacheSchemas := false } = (ofConfig fs c).map uncached := by
  rw [ofConfig, ofConfig]
  change (loadDefault fs c >>= _) = _
  cases loadDefault fs c with
  | error f => rfl
  | ok default =>
    simp only [ok_bind, assemble_uncached]
    split <;> rfl

theorem Built.exists_worker (h : s.Built) : ∃ w, s.worker = .ok w := by
  obtain ⟨ps, -, hplan⟩ := Plan.compile_eq_ok_iff.mp h.compile
  rw [worker]
  cases hg : s.plan.groups.head? with
  | none => exact ⟨_, rfl⟩
  | some group =>
    have hm : group.members ≠ [] := by
      refine Plan.groupsOf_ne_nil ps group ?_
      rw [hplan] at hg
      exact List.mem_of_mem_head? hg
    have hi : Engine.init group = .ok ⟨group, none⟩ := by
      rw [Engine.init, Group.check, if_neg (by simpa using hm)]
      rfl
    exact ⟨⟨none, some ⟨group, none⟩⟩, by simp only [hi]; rfl⟩

/-- The worker that a fresh worker becomes when it is bound once, or not at all. -/
def bindOnce (s : Step) (w : Worker) (last : Option Variables) : Worker :=
  last.elim w (s.bindWorker w)

theorem serves_bindOnce (h : s.worker = .ok w) (last : Option Variables) :
    s.Serves last (s.bindOnce w last) := by
  cases last with
  | none => exact .taken h
  | some vars => exact .bound vars (.taken h)

/-- However the workers of a step are bound, decode rows and have their cache cleared, each answer is
what a fresh worker of a step without a cache gives for the row, bound once to the variables to which
the worker was bound last. -/
theorem responses_decode (h : ofConfig fs c = .ok s) :
    ∃ s' w, ofConfig fs { c with cacheSchemas := false } = .ok s' ∧
      s.worker = .ok w ∧ s'.worker = .ok w ∧
      ∀ (n : Nat) (requests : List Session.Request) (k i : Nat) (r : Row),
        requests[k]? = some (.decode i r) → i < n →
        (s.responses fs ⟨.empty, List.replicate n w⟩ requests)[k]? =
          some (some (s'.workRow (s'.bindOnce w (Session.Request.latest (requests.take k) i)) fs .empty
            r).1) := by
  obtain ⟨w, hw⟩ := (Built.ofConfig h).exists_worker
  refine ⟨s.uncached, w, by rw [ofConfig_uncached, h]; rfl, hw, hw, ?_⟩
  intro n requests k i r hk hi
  have hvalid : Session.Valid s fs (fun _ => none) ⟨.empty, List.replicate n w⟩ := by
    refine ⟨backs_of_sound (Cache.sound_empty _), fun {j w'} hj => ?_⟩
    obtain rfl := (List.mem_replicate.mp (List.mem_of_getElem? hj)).2
    exact .taken hw
  have hw' : s.uncached.worker = .ok w := hw
  have hb : s.uncached.Backs fs (s.uncached.reader fs) .empty := backs_of_sound (Cache.sound_empty _)
  obtain ⟨cache', hrow, -⟩ :=
    (serves_bindOnce hw' (Session.Request.latest (requests.take k) i)).workRowSince (r := r) hb hb
  rw [responses_of_valid hvalid hk (by simpa using hi), workRow, hrow, answer_uncached]
  rfl

def entry : Config :=
  { columns := [⟨"entry", "$[$\x7bkey\x7d]", .integer, none⟩], schemaColumn := some 1 }

def entryStep : Step :=
  ⟨entry, ⟨entry.columns, [⟨⟨"entry", "$[$\x7bkey\x7d]", .integer, none⟩, 0,
    ⟨"$[$\x7bkey\x7d]", .container, [.key "$\x7bkey\x7d"]⟩⟩], []⟩, none⟩

def entryRow : Row :=
  [some (.binary [4, 2, 97, 2, 2, 98, 4, 0]),
    some (.string "\x7b\"type\":\"map\",\"values\":\"int\"\x7d")]

def keyed (key : String) : Variables :=
  .ofList [("key", key)]

theorem workRow_entryRow (key : String) (n : Int) (h : (key, n) ∈ [("a", 1), ("b", 2)]) :
    (entryStep.uncached.workRow (entryStep.uncached.bindWorker ⟨none, none⟩ (keyed key))
        (fun _ => .error .notFound) .empty entryRow).1 =
      .ok [entryRow ++ [some (.integer n)]] := by
  apply toOption_eq_some_iff.mp
  simp only [List.mem_cons, Prod.mk.injEq, List.not_mem_nil, or_false] at h
  rcases h with ⟨rfl, rfl⟩ | ⟨rfl, rfl⟩
  · decide +kernel
  · decide +kernel

theorem responses_decode_entries :
    ∃ s w, ofConfig (fun _ => .error .notFound) entry = .ok s ∧ s.worker = .ok w ∧
      let answers := s.responses (fun _ => .error .notFound) ⟨.empty, [w, w]⟩
        [.bind 0 (keyed "a"), .bind 1 (keyed "b"), .decode 0 entryRow, .decode 1 entryRow, .clear,
          .bind 0 (keyed "b"), .decode 0 entryRow]
      answers[2]? = some (some (.ok [entryRow ++ [some (.integer 1)]])) ∧
        answers[3]? = some (some (.ok [entryRow ++ [some (.integer 2)]])) ∧
        answers[6]? = some (some (.ok [entryRow ++ [some (.integer 2)]])) := by
  have h : ofConfig (fun _ => .error .notFound) entry = .ok entryStep := rfl
  obtain ⟨s', w, hs', hw, -, hall⟩ := responses_decode h
  obtain rfl : entryStep.uncached = s' := Except.ok.inj hs'
  obtain rfl : ⟨none, none⟩ = w := Except.ok.inj hw
  refine ⟨_, _, h, hw, ?_, ?_, ?_⟩
  · rw [← workRow_entryRow "a" 1 (by simp)]
    exact hall 2 _ 2 0 _ rfl (by decide)
  · rw [← workRow_entryRow "b" 2 (by simp)]
    exact hall 2 _ 3 1 _ rfl (by decide)
  · rw [← workRow_entryRow "b" 2 (by simp)]
    exact hall 2 _ 6 0 _ rfl (by decide)

end Step

end AvroColumns
