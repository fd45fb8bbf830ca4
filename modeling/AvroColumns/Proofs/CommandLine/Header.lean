import AvroColumns.CommandLine.Melt
import AvroColumns.Proofs.Rows.Parallel
import AvroColumns.Proofs.Step.Rows

/-!
# Headers

A header is made from the step alone, before any row is read: it names the cells that are passed
through as far as the configuration speaks of them. A row has as many of those as the input row it comes
of. So the header labels the rows of an input row exactly if that has the cells the configuration speaks
of and no others. The values of a container have none to pass through, and their rows are always
labelled.
-/

namespace AvroColumns

open Outcome

namespace Step

variable {s : Step} {fs : Files} {read : String → Except Schema.Fault Document} {vars : Variables}
  {input : Input.Numbered} {rows : List Row} {row : Row} {p : Progress}
  {lines : List (Except Input.Fault Input.Numbered)} {run : Option Input.Fault × Progress}
  {source : Container} {n : Nat}

theorem Built.mem_inputRows (hs : s.Built) (h : s.inputRows (s.reader fs) vars input = .ok rows)
    (hrow : row ∈ rows) : ∃ cells, row = input.row ++ cells ∧ s.Fills cells := by
  obtain ⟨w, hw⟩ := hs.exists_worker
  have hbound := Serves.bound vars (.taken hw)
  have hb : s.Backs fs (s.reader fs) .empty := backs_of_sound (Cache.sound_empty _)
  obtain ⟨cache', hrun, -⟩ := hbound.workRowSince (r := input.row) hb hb
  have hanswer : s.answer (s.reader fs) (some vars) input.row = .ok rows := mapError_eq_ok_iff.mp h
  exact hs.mem_workRow hbound (by rw [hrun, hanswer]) hrow

theorem Built.exists_answers (hs : s.Built) (hc : s.Backs fs read p.cache) {workers : Nat}
    {turns : Nat → List Nat}
    (hrun : run = if workers ≤ 1 then s.meltRows fs vars p lines
      else s.meltParallel fs vars workers turns p lines) (hend : run.1 = none) :
    ∃ passed answers, passed ⊆ lines ∧ passed.mapM (s.lineRows read vars) = .ok answers ∧
      run.2.writer = answers.foldl Writer.writeRows p.writer := by
  have hpassed {passed : List (Except Input.Fault Input.Numbered)} (hsub : passed ⊆ lines)
      (hpass : ∀ answers, passed.mapM (s.lineRows read vars) = .ok answers →
        s.Passes fs read p answers run)
      (hfail : ∀ f, passed.mapM (s.lineRows read vars) = .error f → run.1 ≠ none) :
      ∃ passed answers, passed ⊆ lines ∧ passed.mapM (s.lineRows read vars) = .ok answers ∧
        run.2.writer = answers.foldl Writer.writeRows p.writer := by
    cases hm : passed.mapM (s.lineRows read vars) with
    | error f => exact absurd hend (hfail f hm)
    | ok answers => exact ⟨passed, answers, hsub, hm, (hpass answers hm).2.1⟩
  split at hrun
  · obtain ⟨w, hw⟩ := hs.exists_worker
    have hall : (∀ answers, lines.mapM (s.lineRows read vars) = .ok answers →
        s.Passes fs read p answers run) ∧
        ∀ f, lines.mapM (s.lineRows read vars) = .error f → run.1 = some f := by
      rw [hrun, meltRows_eq hw]
      exact (Serves.bound vars (.taken hw)).meltBy hc
    exact hpassed (List.Subset.refl _) hall.1 fun f hf => by simp [hall.2 f hf]
  · have hne : ∀ batch ∈ chunks (batchSize workers) lines, batch ≠ [] :=
      fun _ => ne_nil_of_mem_chunks
    have hall := hs.meltBatches vars workers turns hc hne
    rw [← meltParallel, ← hrun] at hall
    exact hpassed (flatten_chunks_subset _ _) hall.1 hall.2

theorem Built.mem_meltContainer (hs : s.Built)
    (h : s.meltContainer (some (s.bind vars)) source = (.ok n, rows)) (hrow : row ∈ rows) :
    s.Fills row := by
  rcases s.meltContainer_cases (some (s.bind vars)) source with
    ⟨answers, hall, hrun⟩ | ⟨k, datum, f, answers, -, -, -, hrun⟩
  · rw [hrun] at h
    cases h
    obtain ⟨answer, hanswer, hmem⟩ := List.mem_flatten.mp hrow
    obtain ⟨datum, -, hdatum⟩ := exists_of_mem_mapM hall hanswer
    obtain ⟨v, -, hv⟩ := bind_eq_ok_iff.mp hdatum
    obtain ⟨cells, rfl, hfilled⟩ := hs.mem_decodeValue hv hmem
    exact .inr hfilled
  · rw [hrun] at h
    cases h

end Step

namespace Melting

variable {s : Step} {r cells row : Row} {i : Nat} {column : Column} {fromContainer : Bool}
  {around : Surroundings} {vars : Variables} {o : Options} {c : Config} {turns : Nat → List Nat}
  {args : List String} {name text : String}

def namedCells (s : Step) (fromContainer : Bool) : Nat :=
  if fromContainer then 0 else max (s.config.schemaColumn.getD 0) s.config.payloadColumn + 1

/-- Names stand over a row, one for each cell, and over the cells of the columns, which come behind
those passed through, stand the names of the columns. -/
def Labels (names : List String) (s : Step) (passed : Nat) (row : Row) : Prop :=
  row.length = names.length ∧
    ∀ (i : Nat) (column : Column), s.columns[i]? = some column →
      names[passed + i]? = some column.name

@[simp] theorem length_columnNames (s : Step) (fromContainer : Bool) :
    (columnNames s fromContainer).length = namedCells s fromContainer + s.columns.length := by
  simp [columnNames, namedCells]

@[simp] theorem getElem?_columnNames (s : Step) (fromContainer : Bool) (i : Nat) :
    (columnNames s fromContainer)[namedCells s fromContainer + i]? =
      (s.columns[i]?).map (·.name) := by
  rw [columnNames, List.getElem?_append_right] <;> simp [namedCells]

theorem labels_iff (hcells : cells.length = s.columns.length) :
    Labels (columnNames s fromContainer) s r.length (r ++ cells) ↔
      r.length = namedCells s fromContainer := by
  rw [Labels, length_columnNames, List.length_append, hcells, Nat.add_right_cancel_iff]
  refine and_iff_left_of_imp fun h i column hi => ?_
  rw [h, getElem?_columnNames, hi]
  rfl

def Prepares (around : Surroundings) (o : Options) (c : Config) (s : Step) : Prop :=
  match o.container with
  | none => Step.ofConfig around.files c = .ok s
  | some name => ∃ source, Container.ofFile around.files name = .ok source ∧
      Step.forContainer around.files c source.document = .ok s

/-- The cells come in, to be passed through: as a row of the input, or none of them with a value of a
container. -/
def ComesIn (around : Surroundings) (o : Options) (c : Config) (r : Row) : Prop :=
  match o.container with
  | none => ∃ bytes number, inputBytes around o = .ok bytes ∧
      .ok ⟨number, r⟩ ∈ Input.rows Json.readLine? c bytes
  | some _ => r = []

/-- The names of cells and rows of them, each on a line. -/
def tableText (names : List String) (rows : List Row) : String :=
  Writer.linesText ((Json.arr (names.map .str)).text :: rows.map (·.toJson.text))

def Tabulates (around : Surroundings) (o : Options) (c : Config) (s : Step) (text : String)
    (rows : List Row) : Prop :=
  text = tableText (columnNames s o.container.isSome) rows ∧
    ∀ row ∈ rows, ∃ r cells, ComesIn around o c r ∧ row = r ++ cells ∧ s.Fills cells

theorem text_of_emits {rows : List Row} {w : Writer} (hheader : o.header = true)
    (h : (writer o s).Emits true rows w) :
    w.text = tableText (columnNames s o.container.isSome) rows := by
  rw [h.text, writer, if_pos hheader]
  exact String.empty_append

theorem tabulates_of_runContainer (hheader : o.header = true) (hcontainer : o.container = some name)
    (h : runContainer around.files vars o c name = .success text) :
    ∃ s rows, Prepares around o c s ∧ Tabulates around o c s text rows := by
  rw [runContainer] at h
  cases hsource : Container.ofFile around.files name with
  | error f =>
    rw [hsource] at h
    cases h
  | ok source =>
    simp only [hsource] at h
    cases hstep : Step.forContainer around.files c source.document with
    | error f =>
      rw [hstep] at h
      cases h
    | ok s =>
      simp only [hstep] at h
      rcases hrun : s.meltContainer (some (s.bind vars)) source with ⟨f | n, rows⟩
      · rw [hrun] at h
        cases h
      · rw [hrun] at h
        cases h
        have hcomes : ComesIn around o c [] := by simp [ComesIn, hcontainer]
        refine ⟨s, rows, by simp [Prepares, hcontainer, hsource, hstep], ?_, fun row hrow => ?_⟩
        · have hemits := Writer.emits_flush (writer o s) (rows.map ([·]))
          rw [← List.flatMap_def, List.flatMap_singleton', List.foldl_map] at hemits
          exact text_of_emits hheader hemits
        · have hs := Step.Built.forContainer hstep
          exact ⟨[], row, hcomes, rfl, hs.mem_meltContainer hrun hrow⟩

theorem tabulates_of_runRows (hheader : o.header = true) (hcontainer : o.container = none)
    (h : runRows around vars o c turns = .success text) :
    ∃ s rows, Prepares around o c s ∧ Tabulates around o c s text rows := by
  rw [runRows] at h
  cases hstep : Step.ofConfig around.files c with
  | error f =>
    rw [hstep] at h
    cases h
  | ok s =>
    simp only [hstep] at h
    cases hbytes : inputBytes around o with
    | error f =>
      rw [hbytes] at h
      cases f <;> cases h
    | ok bytes =>
      simp only [hbytes] at h
      generalize hrun : (if o.workers ≤ 1 then _ else _) = run at h
      rcases run with ⟨_ | f, p⟩
      · cases h
        have hs := Step.Built.ofConfig hstep
        obtain ⟨passed, answers, hsub, hall, hwriter⟩ :=
          hs.exists_answers (Step.backs_of_sound (Cache.sound_empty _)) hrun.symm rfl
        refine ⟨s, answers.flatten, by simp [Prepares, hcontainer, hstep], ?_, fun row hrow => ?_⟩
        · have hemits := Writer.emits_flush (writer o s) answers
          rw [← hwriter] at hemits
          exact text_of_emits hheader hemits
        · obtain ⟨answer, hanswer, hmem⟩ := List.mem_flatten.mp hrow
          obtain ⟨line, hline, hrows⟩ := exists_of_mem_mapM hall hanswer
          obtain ⟨input, rfl, hinput⟩ := bind_eq_ok_iff.mp hrows
          obtain ⟨cells, rfl, hfills⟩ := hs.mem_inputRows hinput hmem
          refine ⟨input.row, cells, ?_, rfl, hfills⟩
          simp only [ComesIn, hcontainer]
          exact ⟨bytes, input.number, hbytes, hsub hline⟩
      · cases h

/-- With a header, a run that succeeds has put names over rows. They label the rows of an input row
exactly if that has the cells that the configuration speaks of and no others, and the rows of a
container's value always. -/
theorem header_labels_iff (hargs : request args = .run o) (hheader : o.header = true)
    (hrun : runTaking turns around args = .success text) :
    ∃ c s rows, Config.ofFile around.files o.config = .ok c ∧ Prepares around o c s ∧
      text = tableText (columnNames s o.container.isSome) rows ∧
      ∀ row ∈ rows, ∃ r cells, ComesIn around o c r ∧ row = r ++ cells ∧ s.Fills cells ∧
        (Labels (columnNames s o.container.isSome) s r.length row ↔
          o.container.isSome ∨
            r.length = max (s.config.schemaColumn.getD 0) s.config.payloadColumn + 1) := by
  rw [runTaking, hargs] at hrun
  cases hc : Config.ofFile around.files o.config with
  | error f =>
    simp only [hc] at hrun
    cases hrun
  | ok c =>
    simp only [hc] at hrun
    have htable : ∃ s rows, Prepares around o c s ∧ Tabulates around o c s text rows := by
      cases hcontainer : o.container with
      | none =>
        rw [hcontainer] at hrun
        exact tabulates_of_runRows hheader hcontainer hrun
      | some name =>
        rw [hcontainer] at hrun
        exact tabulates_of_runContainer hheader hcontainer hrun
    obtain ⟨s, rows, hs, htext, hrows⟩ := htable
    refine ⟨c, s, rows, rfl, hs, htext, fun row hrow => ?_⟩
    obtain ⟨r, cells, hr, rfl, hfills⟩ := hrows row hrow
    refine ⟨r, cells, hr, rfl, hfills, ?_⟩
    rw [labels_iff hfills.length, namedCells]
    cases hcontainer : o.container with
    | none => simp
    | some name =>
      have hnone : r = [] := by simpa [ComesIn, hcontainer] using hr
      simp [hnone]

def tabled (input : String) : Surroundings where
  files name :=
    if name = "x.json" then
      .ok (Utf8.encode ("\x7b\"fields\":[\x7b\"name\":\"x\",\"path\":\"$\",\"type\":\"Integer\"\x7d],"
        ++ "\"schema_column\":1\x7d"))
    else .error .notFound
  environment := .none
  input := Utf8.encode input

theorem header_labels_pair :
    ∃ s rows,
      "[\"input_0\",\"input_1\",\"x\"]\n[null,null,null]\n" = tableText (columnNames s false) rows ∧
      ∀ row ∈ rows, ∃ r cells, row = r ++ cells ∧ s.Fills cells ∧
        (Labels (columnNames s false) s r.length row ↔ r.length = 2) := by
  have hargs : request ["-c", "x.json", "--header"] =
      .run ⟨"x.json", none, none, [], true, 1⟩ := by decide +kernel
  have hrun : runTaking (fun _ => []) (tabled "[null,null]\n") ["-c", "x.json", "--header"] =
      .success "[\"input_0\",\"input_1\",\"x\"]\n[null,null,null]\n" := by decide +kernel
  obtain ⟨c, s, rows, hc, hs, htext, hrows⟩ := header_labels_iff hargs rfl hrun
  have hcolumns : ((Config.ofFile (tabled "[null,null]\n").files "x.json").toOption.map
      fun c => (c.schemaColumn, c.payloadColumn)) = some (some 1, 0) := by decide +kernel
  rw [hc] at hcolumns
  obtain ⟨hschema, hpayload⟩ : c.schemaColumn = some 1 ∧ c.payloadColumn = 0 := by
    simpa using hcolumns
  obtain rfl : s.config = c := Step.config_of_ofConfig hs
  refine ⟨s, rows, htext, fun row hrow => ?_⟩
  obtain ⟨r, cells, -, hcells, hfills, hiff⟩ := hrows row hrow
  rw [hschema, hpayload] at hiff
  exact ⟨r, cells, hcells, hfills, by simpa using hiff⟩

theorem long_row_unlabelled :
    ∃ names row, run (tabled "[null,null,7]\n") ["-c", "x.json", "--header"] =
        .success (tableText names [row]) ∧
      row.length ≠ names.length :=
  ⟨["input_0", "input_1", "x"], [none, none, some (.integer 7), none], by decide +kernel,
    by decide⟩

end Melting

end AvroColumns
