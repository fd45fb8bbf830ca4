import AvroColumns.CommandLine.Arguments
import AvroColumns.CommandLine.Outcome
import AvroColumns.Config.Basic
import AvroColumns.Plan.Discovery
import AvroColumns.Schema.Loading

namespace AvroColumns.Listing

structure Options where
  schema : String
  compact : Bool
  deriving DecidableEq, Repr

def read (optionsOver : Bool) (schema : Option String) (compact : Bool) :
    List String → Request Options
  | [] =>
    match schema with
    | some name => .run ⟨name, compact⟩
    | none => .refuse
  | arg :: rest =>
    let plain : Request Options :=
      match (Arguments.fileName? arg).bind (Arguments.once schema) with
      | some schema => read optionsOver schema compact rest
      | none => .refuse
    if optionsOver then plain
    else
      match Arguments.Form.ofArgument arg with
      | .ending => read true schema compact rest
      | .plain => plain
      | .long "compact" none => if compact then .refuse else read false schema true rest
      | .long "help" none => .help
      | .short 'h' _ => .help
      | _ => .refuse

def help : String :=
  "List the leaf fields of an Avro schema\n\n"
    ++ "Usage: avro-fields [OPTIONS] <SCHEMA>\n\n"
    ++ "Arguments:\n"
    ++ "  <SCHEMA>  Schema file (.avsc) or object container file (.avro)\n\n"
    ++ "Options:\n"
    ++ "      --compact  Compact output (no pretty-printing)\n"
    ++ "  -h, --help     Print help\n"

def output (compact : Bool) (columns : List Column) : String :=
  let j := Json.arr (columns.map Column.toJson)
  (if compact then j.text else j.prettyText) ++ "\n"

def list (fs : Files) (o : Options) : Outcome :=
  match Document.ofFile fs o.schema with
  | .error _ => .failure "" ("Failed to load schema: " ++ o.schema)
  | .ok d =>
    match d.discover with
    | .error e => .failure "" (Failure.ofUnknown e).message
    | .ok [] => ⟨0, output o.compact [], ["Warning: No leaf fields found in schema"]⟩
    | .ok columns => .success (output o.compact columns)

def fileNames (args : List String) : List String :=
  match read false none false args with
  | .run o => [o.schema]
  | _ => []

def run (around : Surroundings) (args : List String) : Outcome :=
  match read false none false args with
  | .refuse => .refusal
  | .help => .success help
  | .run o => list around.files o

end AvroColumns.Listing
