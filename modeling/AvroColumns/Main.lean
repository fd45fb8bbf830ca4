import AvroColumns.CommandLine.Listing
import AvroColumns.CommandLine.Melt

namespace AvroColumns.Main

def readFile (name : String) : IO (String × Except File.Fault (List UInt8)) := do
  try
    return (name, .ok (← IO.FS.readBinFile name).toList)
  catch
    | .noFileOrDirectory .. => return (name, .error .notFound)
    | _ => return (name, .error .isDirectory)

def fetchFiles (names : List String) : IO Files := do
  let files ← names.mapM readFile
  return fun name =>
    match files.find? (·.1 == name) with
    | some (_, r) => r
    | none => .error .notFound

def fetchVariables (names : List String) : IO Variables := do
  let values ← names.mapM fun name => return (name, ← IO.getEnv name)
  return fun name => (values.find? (·.1 == name)).bind (·.2)

partial def readAll (stream : IO.FS.Stream) (read : ByteArray) : IO (List UInt8) := do
  let more ← stream.read 65536
  if more.isEmpty then return read.toList
  readAll stream (read ++ more)

def report (outcome : Outcome) : IO UInt32 := do
  IO.print outcome.output
  for line in outcome.complaints do
    IO.eprintln line
  if outcome.status = 2 then
    IO.eprintln "error: unusable arguments; for more information, try '--help'"
  return outcome.status.toUInt32

/-- Runs the melting program. The files that a configuration names are known once it is read. -/
def melt (args : List String) : IO UInt32 := do
  let needsInput :=
    match Melting.request args with
    | .run o => o.input.isNone && o.container.isNone
    | _ => false
  let input ← if needsInput then readAll (← IO.getStdin) .empty else pure []
  let around : Surroundings := ⟨.none, .none, input⟩
  let files ← fetchFiles (Melting.fileNames around args)
  let around := { around with files }
  let files ← fetchFiles (Melting.fileNames around args)
  let around := { around with files }
  let environment ← fetchVariables (Melting.variableNames around args)
  report (Melting.run { around with environment } args)

def list (args : List String) : IO UInt32 := do
  let files ← fetchFiles (Listing.fileNames args)
  report (Listing.run ⟨files, .none, []⟩ args)

end AvroColumns.Main

def main (args : List String) : IO UInt32 :=
  match args with
  | "melt" :: rest => AvroColumns.Main.melt rest
  | "fields" :: rest => AvroColumns.Main.list rest
  | _ => do
    IO.eprintln "usage: melt ARGUMENTS | fields ARGUMENTS"
    return 2
