import AvroColumns.Proofs.Rows.Writer
import AvroColumns.Proofs.Step.Session
import AvroColumns.Rows.Melt

/-!
# What a run emits

A run over the lines of an input decodes one after the other, and a fault ends it. What it has emitted
then are the rows of the lines before, and nothing of the line at fault. The same holds of the values of
a container. Every line has its rows by itself: a worker serves the variables and the cache backs the
reading of schemas, which no line changes.
-/

namespace AvroColumns

open Outcome

namespace Step

variable {s : Step} {fs : Files} {c : Config} {read : String → Except Schema.Fault Document}
  {vars : Variables} {w : Worker} {seen cache : Cache} {p p' : Progress}
  {rows before after : List (Except Input.Fault Input.Numbered)}

def inputRows (s : Step) (read : String → Except Schema.Fault Document) (vars : Variables)
    (input : Input.Numbered) : Except Input.Fault (List Row) :=
  (s.answer read (some vars) input.row).mapError (.undecoded input.number)

theorem Serves.decodeInput (hw : s.Serves (some vars) w) (input : Input.Numbered)
    (hseen : s.Backs fs read seen) (hc : s.Backs fs read cache) :
    ∃ cache', s.decodeInput fs w seen cache input = (s.inputRows read vars input, cache') ∧
      s.Backs fs read cache' := by
  obtain ⟨cache', hrow, hb⟩ := hw.workRowSince (r := input.row) hseen hc
  exact ⟨cache', by rw [Step.decodeInput, hrow]; rfl, hb⟩

def lineRows (s : Step) (read : String → Except Schema.Fault Document) (vars : Variables)
    (line : Except Input.Fault Input.Numbered) : Except Input.Fault (List Row) :=
  line >>= s.inputRows read vars

def Passes (s : Step) (fs : Files) (read : String → Except Schema.Fault Document) (p : Progress)
    (answers : List (List Row)) (run : Option Input.Fault × Progress) : Prop :=
  run.1 = none ∧ run.2.writer = answers.foldl Writer.writeRows p.writer ∧
    run.2.count = p.count + answers.length ∧ s.Backs fs read run.2.cache

theorem Passes.trans {answers more : List (List Row)} {run run' : Option Input.Fault × Progress}
    (h : s.Passes fs read p answers run) (h' : s.Passes fs read run.2 more run') :
    s.Passes fs read p (answers ++ more) run' := by
  obtain ⟨-, hw, hn, -⟩ := h
  obtain ⟨hnone, hw', hn', hb⟩ := h'
  refine ⟨hnone, ?_, ?_, hb⟩
  · rw [hw', hw, List.foldl_append]
  · rw [hn', hn, List.length_append]
    omega

theorem meltBy_append (h : s.meltBy fs w p before = (none, p')) :
    s.meltBy fs w p (before ++ after) = s.meltBy fs w p' after := by
  induction before generalizing p with
  | nil =>
    cases h
    rfl
  | cons line before ih =>
    cases line with
    | error f => cases h
    | ok input =>
      rw [List.cons_append, meltBy]
      rw [meltBy] at h
      rcases hd : s.decodeInput fs w p.cache p.cache input with ⟨f | answer, cache⟩
      · rw [hd] at h
        cases h
      · rw [hd] at h
        exact ih h

theorem Serves.meltBy_passes (hw : s.Serves (some vars) w) (hc : s.Backs fs read p.cache)
    {answers : List (List Row)} (h : rows.mapM (s.lineRows read vars) = .ok answers) :
    s.Passes fs read p answers (s.meltBy fs w p rows) := by
  induction rows generalizing p answers with
  | nil =>
    obtain rfl : [] = answers := by simpa using h
    exact ⟨rfl, rfl, rfl, hc⟩
  | cons line rows ih =>
    rw [List.mapM_cons] at h
    obtain ⟨answer, hl, h⟩ := bind_eq_ok_iff.mp h
    obtain ⟨answers, hm, h⟩ := bind_eq_ok_iff.mp h
    cases h
    cases line with
    | error f => cases hl
    | ok input =>
      replace hl : s.inputRows read vars input = .ok answer := hl
      obtain ⟨cache', hd, hb⟩ := hw.decodeInput input hc hc
      have hone : s.Passes fs read p [answer]
          (none, ⟨cache', p.writer.writeRows answer, p.count + 1⟩) := ⟨rfl, rfl, rfl, hb⟩
      rw [Step.meltBy, hd, hl]
      exact hone.trans (ih hb hm)

theorem Serves.meltBy_stops (hw : s.Serves (some vars) w) (hc : s.Backs fs read p.cache)
    {answers : List (List Row)} {line : Except Input.Fault Input.Numbered} {f : Input.Fault}
    (h : before.mapM (s.lineRows read vars) = .ok answers)
    (hl : s.lineRows read vars line = .error f)
    (after : List (Except Input.Fault Input.Numbered)) :
    ∃ p' cache, s.meltBy fs w p before = (none, p') ∧ s.Passes fs read p answers (none, p') ∧
      s.meltBy fs w p (before ++ line :: after) = (some f, { p' with cache }) := by
  have hpass := hw.meltBy_passes hc h
  rcases hrun : s.meltBy fs w p before with ⟨fault, p'⟩
  rw [hrun] at hpass
  obtain rfl : fault = none := hpass.1
  have hend : ∃ cache, s.meltBy fs w p' (line :: after) = (some f, { p' with cache }) := by
    cases line with
    | error f' =>
      cases hl
      exact ⟨p'.cache, rfl⟩
    | ok input =>
      replace hl : s.inputRows read vars input = .error f := hl
      obtain ⟨cache', hd, -⟩ := hw.decodeInput input hpass.2.2.2 hpass.2.2.2
      exact ⟨cache', by rw [Step.meltBy, hd, hl]⟩
  obtain ⟨cache, hend⟩ := hend
  exact ⟨p', cache, rfl, hpass, by rw [meltBy_append hrun, hend]⟩

theorem Serves.meltBy (hw : s.Serves (some vars) w) (hc : s.Backs fs read p.cache) :
    (∀ answers, rows.mapM (s.lineRows read vars) = .ok answers →
      s.Passes fs read p answers (s.meltBy fs w p rows)) ∧
    ∀ f, rows.mapM (s.lineRows read vars) = .error f → (s.meltBy fs w p rows).1 = some f := by
  refine ⟨fun answers h => hw.meltBy_passes hc h, fun f h => ?_⟩
  obtain ⟨before, line, after, rfl, hok, hl⟩ := mapM_eq_error_iff.mp h
  obtain ⟨answers, hb⟩ := exists_mapM hok
  obtain ⟨p', cache, -, -, hrun⟩ := hw.meltBy_stops hc hb hl after
  rw [hrun]

end Step

namespace Input

variable {read : String → Option Json} {c : Config} {lines : List (List UInt8)}
  {before after : List (Except Fault Numbered)} {entry : Except Fault Numbered}

def isBlankLine (line : List UInt8) : Bool :=
  (Utf8.decode? line).any fun text => Text.trim text = ""

def onLines (read : String → Option Json) (c : Config) (lines : List (List UInt8)) :
    List (Except Fault Numbered) :=
  lines.zipIdx.filterMap fun (line, i) => ofLine read c (i + 1) line

theorem rows_eq_onLines (read : String → Option Json) (c : Config) (bytes : List UInt8) :
    rows read c bytes = onLines read c (splitLines bytes) :=
  rfl

@[simp] theorem isSome_ofLine (read : String → Option Json) (c : Config) (number : Nat) (line : List UInt8) :
    (ofLine read c number line).isSome = !isBlankLine line := by
  rw [ofLine, isBlankLine]
  cases Utf8.decode? line with
  | none => rfl
  | some text => by_cases h : Text.trim text = "" <;> simp [h]

@[simp] theorem length_onLines (read : String → Option Json) (c : Config) (lines : List (List UInt8)) :
    (onLines read c lines).length = lines.countP (!isBlankLine ·) := by
  have hlines : lines.countP (!isBlankLine ·) =
      lines.zipIdx.countP fun (line, _) => !isBlankLine line := by
    rw [← Function.comp_def (!isBlankLine ·) Prod.fst, ← List.countP_map, List.zipIdx_map_fst]
  rw [onLines, List.length_filterMap_eq_countP, hlines]
  simp only [isSome_ofLine]

theorem exists_line (h : onLines read c lines = before ++ entry :: after) :
    ∃ (i : Nat) (line : List UInt8), lines[i]? = some line ∧
      ofLine read c (i + 1) line = some entry ∧ onLines read c (lines.take i) = before := by
  obtain ⟨front, back, hz, rfl, hback⟩ := List.filterMap_eq_append_iff.mp h
  obtain ⟨blank, ⟨line, i⟩, rest, rfl, hblank, hentry, -⟩ := List.filterMap_eq_cons_iff.mp hback
  rw [← List.append_assoc, List.zipIdx_eq_append_iff] at hz
  obtain ⟨passed, left, rfl, hpassed, hleft⟩ := hz
  cases left with
  | nil => cases hleft
  | cons line' left =>
    rw [List.zipIdx_cons, Nat.zero_add] at hleft
    obtain ⟨⟨rfl, rfl⟩, -⟩ : (line = line' ∧ i = passed.length) ∧ _ := by simpa using hleft
    refine ⟨passed.length, line, by simp, hentry, ?_⟩
    rw [List.take_left, onLines, ← hpassed, List.filterMap_append,
      List.filterMap_eq_nil_iff.mpr hblank, List.append_nil]

end Input

namespace Step

variable {s : Step} {fs : Files} {c : Config} {vars : Variables} {read : String → Option Json}
  {lines : List (List UInt8)}

/-- The rows that a line of an input has by itself, for a worker that has decoded nothing else. A blank
line does not count. -/
def lineAnswer (s : Step) (fs : Files) (vars : Variables) (read : String → Option Json) (number : Nat)
    (line : List UInt8) : Option (Except Input.Fault (List Row)) :=
  (Input.ofLine read s.config number line).map fun entry => entry >>= fun input =>
    (s.decodeRow fs (some (s.bind vars)) .empty input.row).1.mapError (.undecoded input.number)

/-- The rows of lines, a list for each that is not blank, or the first fault. -/
def lineAnswers (s : Step) (fs : Files) (vars : Variables) (read : String → Option Json)
    (lines : List (List UInt8)) : Except Input.Fault (List (List Row)) :=
  (lines.zipIdx.filterMap fun (line, i) => s.lineAnswer fs vars read (i + 1) line).mapM id

@[simp] theorem decodeRow_empty (s : Step) (fs : Files) (vars : Variables) (r : Row) :
    (s.decodeRow fs (some (s.bind vars)) .empty r).1 = s.answer (s.reader fs) (some vars) r := by
  have hb : s.Backs fs (s.reader fs) .empty := backs_of_sound (Cache.sound_empty _)
  obtain ⟨cache', hrow, -⟩ := decodeRowBy_of_backs (r := r)
    (fun v chosen => s.decodeValue (some (s.bind vars)) r v chosen.document chosen.isDefault) hb hb
  rw [decodeRow, hrow]
  rfl

theorem lineAnswer_eq (s : Step) (fs : Files) (vars : Variables) (read : String → Option Json)
    (number : Nat) (line : List UInt8) :
    s.lineAnswer fs vars read number line =
      (Input.ofLine read s.config number line).map (s.lineRows (s.reader fs) vars) := by
  simp only [lineAnswer, decodeRow_empty]
  rfl

theorem lineAnswers_eq (s : Step) (fs : Files) (vars : Variables) (read : String → Option Json)
    (lines : List (List UInt8)) :
    s.lineAnswers fs vars read lines =
      (Input.onLines read s.config lines).mapM (s.lineRows (s.reader fs) vars) := by
  simp only [lineAnswers, lineAnswer_eq, Input.onLines]
  rw [← List.map_filterMap, List.mapM_map]
  rfl

theorem config_of_ofConfig (h : ofConfig fs c = .ok s) : s.config = c := by
  obtain ⟨default, -, h⟩ := bind_eq_ok_iff.mp h
  split at h
  · cases h
  · exact (assemble_eq_ok h).1

end Step

/-- What a container gives one after the other: its values, and the fault at which they end, if one
does. -/
def Container.datums (source : Container) : List (Except Failure Datum) :=
  source.contents.1.map .ok ++ (source.contents.2.map fun f => .error (.payload (.container f))).toList

namespace Step

variable {s : Step} {b : Option Binding} {d : Document} {v : Datum} {vs : List Datum}
  {answers : List (List Row)} {f : Failure}

def datumRows (s : Step) (b : Option Binding) (d : Document) (datum : Except Failure Datum) :
    Except Failure (List Row) :=
  datum >>= fun v => s.decodeValue b [] v d false

@[simp] theorem mapM_datumRows (s : Step) (b : Option Binding) (d : Document) (vs : List Datum) :
    (vs.map Except.ok).mapM (s.datumRows b d) = vs.mapM fun v => s.decodeValue b [] v d false := by
  rw [List.mapM_map]
  rfl

theorem meltValues_eq (h : (vs.mapM fun v => s.decodeValue b [] v d false) = .ok answers) :
    s.meltValues b d vs = (none, answers) := by
  induction vs generalizing answers with
  | nil =>
    cases h
    rfl
  | cons v vs ih =>
    rw [List.mapM_cons] at h
    obtain ⟨rows, hv, h⟩ := bind_eq_ok_iff.mp h
    obtain ⟨more, hvs, h⟩ := bind_eq_ok_iff.mp h
    cases h
    rw [meltValues, hv, ih hvs]

theorem meltValues_stops {before : List Datum}
    (h : (before.mapM fun v => s.decodeValue b [] v d false) = .ok answers)
    (hv : s.decodeValue b [] v d false = .error f) (after : List Datum) :
    s.meltValues b d (before ++ v :: after) = (some f, answers) := by
  induction before generalizing answers with
  | nil =>
    cases h
    rw [List.nil_append, meltValues, hv]
    rfl
  | cons v' before ih =>
    rw [List.mapM_cons] at h
    obtain ⟨rows, hv', h⟩ := bind_eq_ok_iff.mp h
    obtain ⟨more, hbefore, h⟩ := bind_eq_ok_iff.mp h
    cases h
    rw [List.cons_append, meltValues, hv', ih hbefore]

theorem meltContainer_cases (s : Step) (b : Option Binding) (source : Container) :
    (∃ answers, source.datums.mapM (s.datumRows b source.document) = .ok answers ∧
        s.meltContainer b source = (.ok source.datums.length, answers.flatten)) ∨
      ∃ (k : Nat) (datum : Except Failure Datum) (f : Failure) (answers : List (List Row)),
        source.datums[k]? = some datum ∧ s.datumRows b source.document datum = .error f ∧
        (source.datums.take k).mapM (s.datumRows b source.document) = .ok answers ∧
        s.meltContainer b source = (.error f, answers.flatten) := by
  rw [meltContainer, Container.datums]
  rcases source.contents with ⟨vs, fault⟩
  rcases mapM_cases (fun v => s.decodeValue b [] v source.document false) vs with
    ⟨answers, h⟩ | ⟨before, v, after, answers, f, rfl, h, hv⟩
  · have hall := (mapM_datumRows s b source.document vs).trans h
    simp only [meltValues_eq h]
    cases fault with
    | none => exact .inl ⟨answers, by simpa using hall, by simp⟩
    | some f =>
      refine .inr ⟨vs.length, .error (.payload (.container f)), _, answers, by simp, rfl, ?_, rfl⟩
      simpa using hall
  · have hall := (mapM_datumRows s b source.document before).trans h
    simp only [meltValues_stops h hv after]
    refine .inr ⟨before.length, .ok v, f, answers, by simp, hv, ?_, rfl⟩
    simpa using hall

end Step

namespace Step

variable {s : Step} {fs : Files} {c : Config}

theorem meltRows_eq {w : Worker} (h : s.worker = .ok w) (fs : Files) (vars : Variables) (p : Progress)
    (rows : List (Except Input.Fault Input.Numbered)) :
    s.meltRows fs vars p rows = s.meltBy fs (s.bindWorker w vars) p rows := by
  rw [meltRows, h]

theorem melt_eq_ok {vars : Variables} {bytes : List UInt8} {w : Writer} {p : Progress}
    (h : ofConfig fs c = .ok s)
    (hrun : s.meltRows fs vars ⟨.empty, w, 0⟩
      (Input.onLines Json.read? c (Input.splitLines bytes)) = (none, p)) :
    melt fs c vars bytes w = (.ok p.count, p.writer.flush) := by
  rw [melt, h]
  simp only [Input.rows_eq_onLines, hrun]

theorem melt_eq_error {vars : Variables} {bytes : List UInt8} {w : Writer} {p : Progress}
    {f : Input.Fault} (h : ofConfig fs c = .ok s)
    (hrun : s.meltRows fs vars ⟨.empty, w, 0⟩
      (Input.onLines Json.read? c (Input.splitLines bytes)) = (some f, p)) :
    melt fs c vars bytes w = (.error f, p.writer) := by
  rw [melt, h]
  simp only [Input.rows_eq_onLines, hrun]

theorem any_not_isBlankLine {read : String → Option Json} {lines : List (List UInt8)}
    {vars : Variables} {answers : List (List Row)}
    (h : s.lineAnswers fs vars read lines = .ok answers) :
    lines.any (!Input.isBlankLine ·) = !answers.isEmpty := by
  rw [lineAnswers_eq] at h
  have hl : answers.length = lines.countP (!Input.isBlankLine ·) :=
    (length_of_mapM h).trans (Input.length_onLines read s.config lines)
  rw [Bool.eq_iff_iff, List.any_eq_true, Bool.not_eq_true', List.isEmpty_eq_false_iff,
    ← List.length_pos_iff, hl, List.countP_pos_iff]

/-- A run that comes to the end of an input has emitted the header and the rows of all lines. One that
fails at a line has emitted what the lines before it emit by themselves, with the header if one of them
is not blank. Of the values of a container, too, those before the first fault have their rows handed
on, and nothing else is. -/
theorem melt_emits (h : ofConfig fs c = .ok s) (vars : Variables) (bytes : List UInt8) (w : Writer)
    (s' : Step) (b : Option Binding) (source : Container) :
    (let lines := Input.splitLines bytes
      let run := melt fs c vars bytes w
      (∃ answers, s.lineAnswers fs vars Json.read? lines = .ok answers ∧
          run.1 = .ok (lines.countP (!Input.isBlankLine ·)) ∧
          w.Emits true answers.flatten run.2) ∨
        ∃ (i : Nat) (line : List UInt8) (f : Input.Fault) (answers : List (List Row)) (p : Progress),
          lines[i]? = some line ∧
          s.lineAnswer fs vars Json.read? (i + 1) line = some (.error f) ∧
          s.lineAnswers fs vars Json.read? (lines.take i) = .ok answers ∧
          s.meltRows fs vars ⟨.empty, w, 0⟩ (Input.onLines Json.read? c (lines.take i)) =
            (none, p) ∧
          run = (.error f, p.writer) ∧
          w.Emits ((lines.take i).any (!Input.isBlankLine ·)) answers.flatten p.writer) ∧
      ((∃ answers, source.datums.mapM (s'.datumRows b source.document) = .ok answers ∧
          s'.meltContainer b source = (.ok source.datums.length, answers.flatten)) ∨
        ∃ (k : Nat) (datum : Except Failure Datum) (f : Failure) (answers : List (List Row)),
          source.datums[k]? = some datum ∧ s'.datumRows b source.document datum = .error f ∧
          (source.datums.take k).mapM (s'.datumRows b source.document) = .ok answers ∧
          s'.meltContainer b source = (.error f, answers.flatten)) := by
  refine ⟨?_, s'.meltContainer_cases b source⟩
  intro lines run
  obtain rfl := config_of_ofConfig h
  obtain ⟨worker, hworker⟩ := (Built.ofConfig h).exists_worker
  have hw := Serves.bound vars (.taken hworker)
  have hc : s.Backs fs (s.reader fs) .empty := backs_of_sound (Cache.sound_empty _)
  have hmelt := meltRows_eq hworker fs vars ⟨.empty, w, 0⟩
  rcases mapM_cases (s.lineRows (s.reader fs) vars) (Input.onLines Json.read? s.config lines) with
    ⟨answers, hall⟩ | ⟨before, entry, after, answers, f, hlines, hbefore, hentry⟩
  · have hpass := hw.meltBy_passes (p := ⟨.empty, w, 0⟩) hc hall
    rcases hrun : s.meltBy fs (s.bindWorker worker vars) ⟨.empty, w, 0⟩
      (Input.onLines Json.read? s.config lines) with ⟨fault, p⟩
    rw [hrun] at hpass
    obtain ⟨rfl, hwriter, hcount, -⟩ := hpass
    have hend : run = _ := melt_eq_ok h ((hmelt _).trans hrun)
    rw [hend]
    refine .inl ⟨answers, (lineAnswers_eq ..).trans hall, ?_, ?_⟩
    · rw [hcount, Nat.zero_add, length_of_mapM hall, Input.length_onLines]
    · rw [hwriter]
      exact Writer.emits_flush w answers
  · obtain ⟨i, line, hi, hline, rfl⟩ := Input.exists_line hlines
    obtain ⟨p, cache, hrun, ⟨-, hwriter, -, -⟩, hstop⟩ :=
      hw.meltBy_stops (p := ⟨.empty, w, 0⟩) hc hbefore hentry after
    rw [← hlines] at hstop
    have hend : run = _ := melt_eq_error (p := { p with cache }) h ((hmelt _).trans hstop)
    have hanswers : s.lineAnswers fs vars Json.read? (lines.take i) = .ok answers :=
      (lineAnswers_eq ..).trans hbefore
    refine .inr ⟨i, line, f, answers, p, hi, ?_, hanswers, (hmelt _).trans hrun, hend,
      ?_⟩
    · rw [lineAnswer_eq, hline, Option.map_some, hentry]
    · rw [any_not_isBlankLine hanswers, hwriter]
      exact Writer.emits_foldl_writeRows w answers

def texts : Config :=
  { columns := marks, schemaColumn := some 1 }

def unschooled : List UInt8 :=
  Utf8.encode "[null]\n \n[true]\n[null]\n"

def numbered : Container :=
  ⟨.ofSchema (.map (.primitive .string)), .none, List.replicate 16 0,
    [6, 36, 2, 2, 97, 2, 55, 0, 2, 2, 97, 2, 120, 0, 2, 2, 97, 2, 57, 0] ++ List.replicate 16 0⟩

@[simp] theorem datums_numbered :
    numbered.datums = [.ok (.map [("a", .string "7")]), .ok (.map [("a", .string "x")]),
      .ok (.map [("a", .string "9")])] := by
  with_unfolding_all rfl

theorem melt_emits_unschooled :
    (∃ (s : Step) (i : Nat) (line : List UInt8) (f : Input.Fault),
      ofConfig (fun _ => .error .notFound) texts = .ok s ∧
      (Input.splitLines unschooled)[i]? = some line ∧
      s.lineAnswer (fun _ => .error .notFound) .none Json.read? (i + 1) line = some (.error f) ∧
      let run := melt (fun _ => .error .notFound) texts .none unschooled
        (.new (some ["row", "mark", "label"]))
      run.1 = .error f ∧ run.2.rows = 1 ∧
        run.2.text = "[\"row\",\"mark\",\"label\"]\n[null,null,null]\n") ∧
      ∃ f, entryStep.datumRows (some (entryStep.bind (keyed "a"))) numbered.document
          (.ok (.map [("a", .string "x")])) = .error f ∧
        entryStep.meltContainer (some (entryStep.bind (keyed "a"))) numbered =
          (.error f, [[some (.integer 7)]]) := by
  have h : ofConfig (fun _ => .error .notFound) texts =
      .ok { marksStep with config := texts, default := none } := rfl
  have hfails : (melt (fun _ => .error .notFound) texts .none unschooled
      (.new (some ["row", "mark", "label"]))).1.isOk = false := by decide +kernel
  obtain ⟨hlines, hvalues⟩ := melt_emits h .none unschooled (.new (some ["row", "mark", "label"]))
    entryStep (some (entryStep.bind (keyed "a"))) numbered
  constructor
  · rcases hlines with ⟨answers, -, hend, -⟩ | ⟨i, line, f, answers, p, hline, hfault, -, -, hend, -⟩
    · rw [hend] at hfails
      cases hfails
    · refine ⟨_, i, line, f, h, hline, hfault, ?_⟩
      exact ⟨congrArg Prod.fst hend, by decide +kernel, by decide +kernel⟩
  · have hfirst : entryStep.datumRows (some (entryStep.bind (keyed "a"))) numbered.document
        (.ok (.map [("a", .string "7")])) = .ok [[some (.integer 7)]] :=
      toOption_eq_some_iff.mp (by decide +kernel)
    have hsecond : (entryStep.datumRows (some (entryStep.bind (keyed "a"))) numbered.document
        (.ok (.map [("a", .string "x")]))).isOk = false := by decide +kernel
    rw [datums_numbered] at hvalues
    rcases hvalues with ⟨answers, hall, -⟩ | ⟨k, datum, f, answers, hk, hf, hbefore, hend⟩
    · obtain ⟨rows, -, hrows⟩ := exists_mem_of_mapM hall (List.mem_cons_of_mem _ List.mem_cons_self)
      rw [hrows] at hsecond
      cases hsecond
    · match k with
      | 0 =>
        cases hk
        rw [hfirst] at hf
        cases hf
      | 1 =>
        cases hk
        have hanswers : answers = [[[some (.integer 7)]]] := by
          simpa [hfirst] using hbefore.symm
        rw [hanswers] at hend
        exact ⟨f, hf, hend⟩
      | k + 2 =>
        obtain ⟨rows, -, hrows⟩ := exists_mem_of_mapM hbefore
          (List.mem_cons_of_mem _ List.mem_cons_self)
        rw [hrows] at hsecond
        cases hsecond

end Step

end AvroColumns
