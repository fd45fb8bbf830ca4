import AvroColumns.CommandLine.Arguments
import AvroColumns.CommandLine.Outcome
import AvroColumns.Config.File
import AvroColumns.Rows.Parallel

namespace AvroColumns.Melting

structure Options where
  config : String
  input : Option String
  container : Option String
  bindings : List (String × String)
  header : Bool
  workers : Nat
  deriving DecidableEq, Repr

structure Draft where
  config : Option String := none
  input : Option String := none
  container : Option String := none
  bindings : List (String × String) := []
  header : Bool := false
  workers : Option Nat := none

namespace Draft

def set (d : Draft) (name value : String) : Option Draft :=
  match name with
  | "config" => do return { d with config := ← Arguments.once d.config (← Arguments.fileName? value) }
  | "container" => do
    return { d with container := ← Arguments.once d.container (← Arguments.fileName? value) }
  | "var" => do return { d with bindings := d.bindings ++ [← Arguments.assignment? value] }
  | "workers" => do return { d with workers := ← Arguments.once d.workers (← Arguments.count? value) }
  | _ => none

def setInput (d : Draft) (value : String) : Option Draft := do
  return { d with input := ← Arguments.once d.input (← Arguments.fileName? value) }

def options? (d : Draft) : Option Options := do
  let config ← d.config
  if d.input.isSome ∧ d.container.isSome then none
  return ⟨config, d.input, d.container, d.bindings, d.header, d.workers.getD 1⟩

def takesValue (name : String) : Bool :=
  ["config", "container", "var", "workers"].contains name

def read (optionsOver : Bool) (d : Draft) (args : List String) : Request Draft :=
  match args with
  | [] => .run d
  | arg :: rest =>
    if optionsOver then
      match d.setInput arg with
      | some d => read true d rest
      | none => .refuse
    else
      match Arguments.Form.ofArgument arg with
      | .ending => read true d rest
      | .plain =>
        match d.setInput arg with
        | some d => read false d rest
        | none => .refuse
      | .long name given =>
        if takesValue name then
          match _h : Arguments.value? given rest with
          | none => .refuse
          | some (value, tail) =>
            match d.set name value with
            | some d => read false d tail
            | none => .refuse
        else if name = "header" ∧ given = none ∧ !d.header then read false { d with header := true } rest
        else if name = "help" ∧ given = none then .help
        else .refuse
      | .short letter more =>
        if letter = 'c' then
          match _h : Arguments.value? (Arguments.attached more) rest with
          | none => .refuse
          | some (value, tail) =>
            match d.set "config" value with
            | some d => read false d tail
            | none => .refuse
        else if letter = 'h' then .help
        else .refuse
termination_by args.length
decreasing_by
  all_goals
    try have := Arguments.length_le_of_value? _h
    simp only [List.length_cons]
    omega

end Draft

def request (args : List String) : Request Options :=
  match Draft.read false {} args with
  | .run d =>
    match d.options? with
    | some options => .run options
    | none => .refuse
  | .help => .help
  | .refuse => .refuse

def help : String :=
  "Flatten Avro payloads into relational rows\n\n"
    ++ "Usage: avro-melt [OPTIONS] --config <CONFIG> [FILE]\n\n"
    ++ "Arguments:\n"
    ++ "  [FILE]  Input rows as JSON Lines (use stdin if omitted)\n\n"
    ++ "Options:\n"
    ++ "  -c, --config <CONFIG>        Decode configuration (JSON)\n"
    ++ "      --container <CONTAINER>  "
    ++ "Decode an Avro object container file instead of input rows\n"
    ++ "      --var <NAME=VALUE>       Path variable as NAME=VALUE; may be repeated\n"
    ++ "      --header                 Write the column names as the first output line\n"
    ++ "      --workers <WORKERS>      "
    ++ "Number of threads decoding rows (default: 1) [default: 1]\n"
    ++ "  -h, --help                   Print help\n"

/-- The names of the columns. Cells that are passed through are named by their positions, as far as
the configuration speaks of them. -/
def columnNames (s : Step) (fromContainer : Bool) : List String :=
  let passed :=
    if fromContainer then 0
    else max (s.config.schemaColumn.getD 0) s.config.payloadColumn + 1
  (List.range passed).map (fun i => "input_" ++ toString i) ++ s.columns.map (·.name)

def headline : Input.Fault → String
  | .malformed line => "Line " ++ toString line
  | fault => fault.chain.headD ""

def writer (o : Options) (s : Step) : Writer :=
  .new (if o.header then some (columnNames s o.container.isSome) else none)

def runContainer (fs : Files) (vars : Variables) (o : Options) (c : Config) (name : String) :
    Outcome :=
  match Container.ofFile fs name with
  | .error _ => .failure "" ("Failed to open container: " ++ name)
  | .ok source =>
    match Step.forContainer fs c source.document with
    | .error _ => .failure "" "Failed to initialize decode step"
    | .ok s =>
      let (result, rows) := s.meltContainer (some (s.bind vars)) source
      let written := rows.foldl (fun w r => w.writeRows [r]) (writer o s)
      match result with
      | .error f => .failure written.text f.message
      | .ok _ => .success written.flush.text

/-- The bytes of the input rows. A directory can be opened, but not read. -/
def inputBytes (around : Surroundings) (o : Options) : Except File.Fault (List UInt8) :=
  match o.input with
  | none => .ok around.input
  | some name => around.files name

def runRows (around : Surroundings) (vars : Variables) (o : Options) (c : Config)
    (turns : Nat → List Nat) : Outcome :=
  match Step.ofConfig around.files c with
  | .error _ => .failure "" "Failed to initialize decode step"
  | .ok s =>
    let start : Progress := ⟨.empty, writer o s, 0⟩
    match inputBytes around o with
    | .error .isDirectory => .failure "" (headline (.unreadable .isDirectory))
    | .error _ => .failure "" ("Failed to open input: " ++ o.input.getD "")
    | .ok bytes =>
      let rows := Input.rows Json.readLine? c bytes
      let (fault, p) :=
        if o.workers ≤ 1 then s.meltRows around.files vars start rows
        else s.meltParallel around.files vars o.workers turns start rows
      match fault with
      | some f => .failure p.writer.text (headline f)
      | none => .success p.writer.flush.text

def namedInRows (around : Surroundings) (o : Options) (c : Config) : List String :=
  match c.schemaIsPath, c.schemaColumn, inputBytes around o with
  | true, some column, .ok bytes =>
    (Input.rows Json.readLine? c bytes).filterMap fun
      | .ok input => ((input.row[column]?).join.bind Cell.text?).map Text.trim
      | .error _ => none
  | _, _, _ => []

def fileNames (around : Surroundings) (args : List String) : List String :=
  match request args with
  | .run o =>
    o.config :: o.input.toList ++ o.container.toList
      ++ match Config.ofFile around.files o.config with
        | .ok c => c.schemaPath.toList ++ namedInRows around o c
        | .error _ => []
  | _ => []

def variableNames (around : Surroundings) (args : List String) : List String :=
  match request args with
  | .run o =>
    match Config.ofFile around.files o.config with
    | .ok c => c.columns.flatMap fun column =>
      Placeholder.names (String.ofList (Placeholder.cleanse column.path.toList))
    | .error _ => []
  | _ => []

/-- A run in which the tasks of each batch take turns. -/
def runTaking (turns : Nat → List Nat) (around : Surroundings) (args : List String) : Outcome :=
  match request args with
  | .refuse => .refusal
  | .help => .success help
  | .run o =>
    match Config.ofFile around.files o.config with
    | .error _ => .failure "" ("Failed to load config: " ++ o.config)
    | .ok c =>
      let vars := (Variables.ofList o.bindings).orElse around.environment
      match o.container with
      | some name => runContainer around.files vars o c name
      | none => runRows around vars o c turns

/-- A run whose tasks take their turns when they are waited for. -/
def run (around : Surroundings) (args : List String) : Outcome :=
  runTaking (fun _ => []) around args

end AvroColumns.Melting
