import AvroColumns.Proofs.Rows.Melt
import AvroColumns.Rows.Parallel

namespace AvroColumns

open Outcome

section

variable {α : Type} {size : Nat} {l piece : List α}

theorem flatten_chunks (h : size ≠ 0) (l : List α) : (chunks size l).flatten = l := by
  fun_induction chunks size l with
  | case1 l hl => simp [hl.resolve_left h]
  | case2 l _ ih => rw [List.flatten_cons, ih, List.take_append_drop]

theorem flatten_chunks_subset (size : Nat) (l : List α) : (chunks size l).flatten ⊆ l := by
  by_cases h : size = 0
  · rw [chunks, dif_pos (.inl h)]
    exact List.nil_subset l
  · rw [flatten_chunks h]
    exact List.Subset.refl l

theorem ne_nil_of_mem_chunks (h : piece ∈ chunks size l) : piece ≠ [] := by
  fun_induction chunks size l with
  | case1 => cases h
  | case2 l hl ih =>
    rcases List.mem_cons.mp h with rfl | h
    · rw [Ne, List.take_eq_nil_iff]
      exact hl
    · exact ih h

theorem chunks_ne_nil (h : size ≠ 0) (hl : l ≠ []) : chunks size l ≠ [] := by
  rw [chunks, dif_neg (by simp [h, hl])]
  exact List.cons_ne_nil _ _

end

namespace Step

variable {s : Step} {fs : Files} {read : String → Except Schema.Fault Document} {vars : Variables}
  {w : Worker} {seen cache : Cache} {input : Input.Numbered} {inputs : List Input.Numbered} {t : Task}
  {tasks : List Task} {turns : List Nat} {workers : Nat} {p : Progress}
  {rows : List (Except Input.Fault Input.Numbered)}

def chunkRows (s : Step) (read : String → Except Schema.Fault Document) (vars : Variables)
    (inputs : List Input.Numbered) : Except Input.Fault (List Row) :=
  (inputs.mapM (s.inputRows read vars)).map List.flatten

def outcome (s : Step) (read : String → Except Schema.Fault Document) (vars : Variables) :
    Task → Except Input.Fault (List Row)
  | .decoding _ _ rows rest => (s.chunkRows read vars rest).map (rows ++ ·)
  | .ended o => o

def Ready (s : Step) (fs : Files) (read : String → Except Schema.Fault Document) (vars : Variables) :
    Task → Prop
  | .decoding w seen _ _ => s.Serves (some vars) w ∧ ∀ c ∈ seen, s.Backs fs read c
  | .ended _ => True

@[simp] theorem chunkRows_cons :
    s.chunkRows read vars (input :: inputs) =
      s.inputRows read vars input >>= fun rows => (s.chunkRows read vars inputs).map (rows ++ ·) := by
  rw [chunkRows, chunkRows, List.mapM_cons]
  cases s.inputRows read vars input with
  | error f => rfl
  | ok rows => cases inputs.mapM (s.inputRows read vars) <;> rfl

theorem Built.task (hs : s.Built) (fs : Files) (read : String → Except Schema.Fault Document)
    (vars : Variables) (inputs : List Input.Numbered) :
    s.Ready fs read vars (s.task vars inputs) ∧
      s.outcome read vars (s.task vars inputs) = s.chunkRows read vars inputs := by
  obtain ⟨w, hw⟩ := hs.exists_worker
  rw [Step.task, hw]
  refine ⟨⟨.bound vars (.taken hw), nofun⟩, ?_⟩
  rw [outcome]
  cases s.chunkRows read vars inputs <;> rfl

theorem turn_ready (ht : s.Ready fs read vars t) (hc : s.Backs fs read cache) :
    s.Ready fs read vars (s.turn fs cache t).1 ∧
      s.outcome read vars (s.turn fs cache t).1 = s.outcome read vars t ∧
      s.Backs fs read (s.turn fs cache t).2 := by
  cases t with
  | ended o => exact ⟨trivial, rfl, hc⟩
  | decoding w seen rows rest =>
    obtain ⟨hw, hseen⟩ := ht
    cases rest with
    | nil => exact ⟨trivial, by simp [turn, outcome, chunkRows], hc⟩
    | cons input rest =>
      cases seen with
      | none => exact ⟨⟨hw, by simpa using hc⟩, rfl, hc⟩
      | some seen =>
        obtain ⟨cache', hd, hb⟩ := hw.decodeInput input (hseen seen rfl) hc
        simp only [turn, hd, outcome, chunkRows_cons]
        cases s.inputRows read vars input with
        | error f => exact ⟨trivial, rfl, hb⟩
        | ok more =>
          refine ⟨⟨hw, by simp⟩, ?_, hb⟩
          simp only [ok_bind]
          cases s.chunkRows read vars rest <;> simp

theorem takeTurns_ready (turns : List Nat) (ht : ∀ t ∈ tasks, s.Ready fs read vars t)
    (hc : s.Backs fs read cache) :
    (∀ t ∈ (s.takeTurns fs cache tasks turns).1, s.Ready fs read vars t) ∧
      (s.takeTurns fs cache tasks turns).1.map (s.outcome read vars) =
        tasks.map (s.outcome read vars) ∧
      s.Backs fs read (s.takeTurns fs cache tasks turns).2 := by
  induction turns generalizing cache tasks with
  | nil => exact ⟨ht, rfl, hc⟩
  | cons i turns ih =>
    rw [takeTurns]
    cases hi : tasks[i]? with
    | none => exact ih ht hc
    | some t =>
      obtain ⟨ht', ho, hb⟩ := turn_ready (ht t (List.mem_of_getElem? hi)) hc
      have hset : (tasks.set i (s.turn fs cache t).1).map (s.outcome read vars) =
          tasks.map (s.outcome read vars) := by
        obtain ⟨hlt, rfl⟩ := List.getElem?_eq_some_iff.mp hi
        have hlt' : i < (tasks.map (s.outcome read vars)).length := by simpa using hlt
        rw [List.map_set, ho, ← List.getElem_map _ (h := hlt'), List.set_getElem_self]
      have hall : ∀ t' ∈ tasks.set i (s.turn fs cache t).1, s.Ready fs read vars t' := by
        intro t' hm
        rcases List.mem_or_eq_of_mem_set hm with hm | rfl
        · exact ht t' hm
        · exact ht'
      rw [← hset]
      exact ih hall hb

theorem finish_ready (ht : s.Ready fs read vars t) (hc : s.Backs fs read cache) :
    (s.finish fs cache t).1 = s.outcome read vars t ∧ s.Backs fs read (s.finish fs cache t).2 := by
  fun_induction finish s fs cache t with
  | case1 cache o => exact ⟨rfl, hc⟩
  | case2 cache w seen rows rest turned ih =>
    obtain ⟨ht', ho, hb⟩ := turn_ready ht hc
    rw [← ho]
    exact ih ht' hb

theorem join_ready (ht : ∀ t ∈ tasks, s.Ready fs read vars t) (hc : s.Backs fs read cache) :
    (s.join fs cache tasks).1 = tasks.map (s.outcome read vars) ∧
      s.Backs fs read (s.join fs cache tasks).2 := by
  induction tasks generalizing cache with
  | nil => exact ⟨rfl, hc⟩
  | cons t tasks ih =>
    obtain ⟨ho, hb⟩ := finish_ready (ht t (by simp)) hc
    obtain ⟨hos, hb'⟩ := ih (fun t ht' => ht t (by simp [ht'])) hb
    exact ⟨by simp only [join, ho, hos, List.map_cons], hb'⟩

theorem Built.decodeBatch (hs : s.Built) (vars : Variables) (workers : Nat) (turns : List Nat)
    (hc : s.Backs fs read cache) (hi : inputs ≠ []) :
    ∃ pieces cache', s.decodeBatch fs vars workers turns cache inputs =
        (pieces.mapM (s.chunkRows read vars), cache') ∧
      pieces ≠ [] ∧ pieces.flatten = inputs ∧ s.Backs fs read cache' := by
  have hsize : max ((inputs.length + workers - 1) / workers) 1 ≠ 0 := by omega
  generalize hp : chunks (max ((inputs.length + workers - 1) / workers) 1) inputs = pieces
  have hready : ∀ t ∈ pieces.map (s.task vars), s.Ready fs read vars t := by
    intro t ht
    obtain ⟨piece, -, rfl⟩ := List.mem_map.mp ht
    exact (hs.task fs read vars piece).1
  obtain ⟨hready', houtcomes, hb⟩ := takeTurns_ready turns hready hc
  obtain ⟨hjoin, hb'⟩ := join_ready hready' hb
  refine ⟨pieces, _, ?_, hp ▸ chunks_ne_nil hsize hi, hp ▸ flatten_chunks hsize inputs, hb'⟩
  rw [Step.decodeBatch]
  simp only [hp]
  rw [hjoin, houtcomes, List.map_map, List.mapM_map]
  congr 1
  apply mapM_congr
  intro piece _
  exact (hs.task fs read vars piece).2

theorem mapM_chunkRows (pieces : List (List Input.Numbered)) :
    (pieces.mapM (s.chunkRows read vars)).map List.flatten = s.chunkRows read vars pieces.flatten := by
  induction pieces with
  | nil => rfl
  | cons piece pieces ih =>
    rw [chunkRows] at ih ⊢
    rw [List.mapM_cons, List.flatten_cons, List.mapM_append, chunkRows]
    cases piece.mapM (s.inputRows read vars) with
    | error f => rfl
    | ok rows =>
      simp only [map_ok, ok_bind] at ih ⊢
      revert ih
      cases pieces.mapM (s.chunkRows read vars) <;>
        cases pieces.flatten.mapM (s.inputRows read vars) <;> simp +contextual

theorem mapM_lineRows (h : rows.mapM id = .ok inputs) :
    rows.mapM (s.lineRows read vars) = inputs.mapM (s.inputRows read vars) := by
  rw [mapM_eq_ok_iff] at h
  induction h with
  | nil => rfl
  | @cons line input rows inputs hl _ ih =>
    cases hl
    rw [List.mapM_cons, List.mapM_cons, ih]
    rfl

theorem exists_inputs {answers : List (List Row)}
    (h : rows.mapM (s.lineRows read vars) = .ok answers) : ∃ inputs, rows.mapM id = .ok inputs := by
  rw [mapM_eq_ok_iff] at h
  induction h with
  | nil => exact ⟨[], rfl⟩
  | @cons line answer rows answers hl _ ih =>
    obtain ⟨inputs, hi⟩ := ih
    obtain ⟨input, rfl, -⟩ := bind_eq_ok_iff.mp hl
    exact ⟨input :: inputs, by simp [hi]⟩

theorem Built.meltBatch (hs : s.Built) (vars : Variables) (workers : Nat) (turns : List Nat)
    (hc : s.Backs fs read p.cache) (hne : rows ≠ []) :
    (∀ answers, rows.mapM (s.lineRows read vars) = .ok answers →
      s.Passes fs read p answers (s.meltBatch fs vars workers turns p rows)) ∧
    ∀ f, rows.mapM (s.lineRows read vars) = .error f →
      (s.meltBatch fs vars workers turns p rows).1 ≠ none := by
  cases hi : rows.mapM id with
  | error f =>
    have hrun : s.meltBatch fs vars workers turns p rows = (some f, p) := by rw [Step.meltBatch, hi]
    refine ⟨fun answers h => ?_, fun _ _ => by simp [hrun]⟩
    obtain ⟨inputs, hi'⟩ := exists_inputs h
    cases hi.symm.trans hi'
  | ok inputs =>
    have hne' : inputs ≠ [] := by
      rintro rfl
      exact hne (List.length_eq_zero_iff.mp (length_of_mapM hi).symm)
    obtain ⟨pieces, cache', hd, hpieces, hflat, hb⟩ := hs.decodeBatch vars workers turns hc hne'
    have hrows : (pieces.mapM (s.chunkRows read vars)).map List.flatten =
        (inputs.mapM (s.inputRows read vars)).map List.flatten := by
      rw [mapM_chunkRows, hflat, chunkRows]
    rw [mapM_lineRows hi]
    cases hp : pieces.mapM (s.chunkRows read vars) with
    | error f =>
      have hrun : s.meltBatch fs vars workers turns p rows = (some f, { p with cache := cache' }) := by
        simp only [Step.meltBatch, hi, hd, hp]
      refine ⟨fun answers h => ?_, fun _ _ => by simp [hrun]⟩
      rw [hp, h] at hrows
      cases hrows
    | ok parts =>
      have hrun : s.meltBatch fs vars workers turns p rows =
          (none, ⟨cache', parts.foldl Writer.writeRows p.writer, p.count + inputs.length⟩) := by
        simp only [Step.meltBatch, hi, hd, hp]
      refine ⟨fun answers h => ?_, fun f h => ?_⟩
      · rw [hp, h] at hrows
        have hparts : parts.flatten = answers.flatten := Except.ok.inj hrows
        have hparts' : parts ≠ [] := by
          rintro rfl
          exact hpieces (List.length_eq_zero_iff.mp (length_of_mapM hp).symm)
        have hanswers : answers ≠ [] := by
          rintro rfl
          exact hne' (List.length_eq_zero_iff.mp (length_of_mapM h).symm)
        rw [hrun]
        refine ⟨rfl, ?_, ?_, hb⟩
        · rw [Writer.foldl_writeRows _ hparts', Writer.foldl_writeRows _ hanswers, hparts]
        · rw [length_of_mapM h]
      · rw [hp, h] at hrows
        cases hrows

theorem Built.meltBatches (hs : s.Built) (vars : Variables) (workers : Nat) (turns : Nat → List Nat)
    {batches : List (List (Except Input.Fault Input.Numbered))} (hc : s.Backs fs read p.cache)
    (hne : ∀ batch ∈ batches, batch ≠ []) :
    (∀ answers, batches.flatten.mapM (s.lineRows read vars) = .ok answers →
      s.Passes fs read p answers (s.meltBatches fs vars workers turns p batches)) ∧
    ∀ f, batches.flatten.mapM (s.lineRows read vars) = .error f →
      (s.meltBatches fs vars workers turns p batches).1 ≠ none := by
  induction batches generalizing p turns with
  | nil =>
    refine ⟨fun answers h => ?_, fun _ h => absurd h (by simp)⟩
    obtain rfl : [] = answers := by simpa using h
    exact ⟨rfl, rfl, rfl, hc⟩
  | cons batch batches ih =>
    obtain ⟨hpass, hfail⟩ :=
      hs.meltBatch vars workers (turns 0) hc (hne batch List.mem_cons_self)
    rw [List.flatten_cons, List.mapM_append, Step.meltBatches]
    cases hm : batch.mapM (s.lineRows read vars) with
    | error f =>
      simp only [error_bind]
      refine ⟨fun _ h => absurd h (by simp), fun f' _ => ?_⟩
      have hrun := hfail f hm
      revert hrun
      rcases s.meltBatch fs vars workers (turns 0) p batch with ⟨_ | f, p'⟩
      · exact fun h => absurd rfl h
      · exact fun _ => nofun
    | ok answers =>
      have hrun := hpass answers hm
      revert hrun
      rcases s.meltBatch fs vars workers (turns 0) p batch with ⟨_ | f, p'⟩
      · intro hrun
        have ih := ih (fun i => turns (i + 1)) hrun.2.2.2 fun b hb => hne b (List.mem_cons_of_mem _ hb)
        cases hm' : batches.flatten.mapM (s.lineRows read vars) with
        | error f =>
          simp only [ok_bind, error_bind]
          exact ⟨fun _ h => absurd h (by simp), fun _ _ => ih.2 f hm'⟩
        | ok more =>
          simp only [ok_bind, pure_eq_ok]
          refine ⟨fun _ h => ?_, fun _ h => absurd h (by simp)⟩
          rw [← Except.ok.inj h]
          exact hrun.trans (ih.1 more hm')
      · intro hrun
        cases hrun.1

/-- In however many tasks and whatever turns they take, several workers come to the end of an input if one
worker does, and then they have written the same. -/
theorem Built.meltParallel_agrees (hs : s.Built) (hworkers : 2 ≤ workers) (hsize : workers * 1024 < twoTo 64)
    (fs : Files) (vars : Variables) (turns : Nat → List Nat) (p : Progress)
    (rows : List (Except Input.Fault Input.Numbered)) :
    let parallel := s.meltParallel fs vars workers turns p rows
    let sequential := s.meltRows fs vars p rows
    (parallel.1 = none ↔ sequential.1 = none) ∧
      (sequential.1 = none →
        parallel.2.writer.flush.text = sequential.2.writer.flush.text ∧
          parallel.2.writer.rows = sequential.2.writer.rows ∧
          parallel.2.count = sequential.2.count) := by
  intro parallel sequential
  obtain ⟨read, hc⟩ := s.exists_backs fs p.cache
  obtain ⟨w, hw⟩ := hs.exists_worker
  have hbatch : batchSize workers ≠ 0 := by
    rw [batchSize, rowsPerWorker, Nat.mod_eq_of_lt hsize]
    omega
  have hseq : (∀ answers, rows.mapM (s.lineRows read vars) = .ok answers →
      s.Passes fs read p answers sequential) ∧
      ∀ f, rows.mapM (s.lineRows read vars) = .error f → sequential.1 = some f := by
    have hrun : sequential = s.meltBy fs (s.bindWorker w vars) p rows := by
      change s.meltRows fs vars p rows = _
      rw [meltRows, hw]
    rw [hrun]
    exact (Serves.bound vars (.taken hw)).meltBy hc
  have hpar : (∀ answers, rows.mapM (s.lineRows read vars) = .ok answers →
      s.Passes fs read p answers parallel) ∧
      ∀ f, rows.mapM (s.lineRows read vars) = .error f → parallel.1 ≠ none := by
    have hne : ∀ batch ∈ chunks (batchSize workers) rows, batch ≠ [] := fun _ => ne_nil_of_mem_chunks
    have hall := hs.meltBatches vars workers turns hc hne
    rwa [flatten_chunks hbatch] at hall
  cases hm : rows.mapM (s.lineRows read vars) with
  | error f =>
    have hfault := hseq.2 f hm
    exact ⟨iff_of_false (hpar.2 f hm) (by simp [hfault]), by simp [hfault]⟩
  | ok answers =>
    obtain ⟨hnone, hwriter, hcount, -⟩ := hpar.1 answers hm
    obtain ⟨hnone', hwriter', hcount', -⟩ := hseq.1 answers hm
    have hsame : parallel.2.writer = sequential.2.writer := hwriter.trans hwriter'.symm
    exact ⟨iff_of_true hnone hnone',
      fun _ => ⟨by rw [hsame], by rw [hsame], hcount.trans hcount'.symm⟩⟩

def marksLines : List (Except Input.Fault Input.Numbered) :=
  [.ok ⟨1, [some (.binary [1, 4, 6, 8, 0])]⟩, .ok ⟨3, [none]⟩]

def marksStart : Progress :=
  ⟨.empty, .new (some ["row", "mark", "label"]), 0⟩

def marksText : String :=
  "[\"row\",\"mark\",\"label\"]\n[\"AQQGCAA=\",3,true]\n[\"AQQGCAA=\",4,true]\n[null,null,null]\n"

theorem meltParallel_marks :
    marksStep.Built ∧ ∀ turns,
      let run := marksStep.meltParallel (fun _ => .error .notFound) .none 2 turns marksStart marksLines
      run.1 = none ∧ run.2.writer.rows = 3 ∧ run.2.writer.flush.text = marksText := by
  have hstep : forContainer (fun _ => .error .notFound) { columns := marks } marksSchema =
    .ok marksStep := rfl
  have hs : marksStep.Built := .forContainer hstep
  refine ⟨hs, ?_⟩
  intro turns run
  let sequential := marksStep.meltRows (fun _ => .error .notFound) .none marksStart marksLines
  have hnone : sequential.1 = none := rfl
  have hrows : sequential.2.writer.rows = 3 := rfl
  have htext : sequential.2.writer.flush.text = marksText := by decide +kernel
  obtain ⟨hiff, hsame⟩ := hs.meltParallel_agrees (Nat.le_refl 2) (by decide) (fun _ => .error .notFound) .none
    turns marksStart marksLines
  obtain ⟨htext', hrows', -⟩ := hsame hnone
  exact ⟨hiff.mpr hnone, hrows'.trans hrows, htext'.trans htext⟩

end Step

end AvroColumns
