import AvroColumns.Cell.Basic
import AvroColumns.File.Basic

namespace AvroColumns

structure Writer where
  header : Option (List String)
  lines : Array String
  rows : Nat

structure Writer.Fault where
  name : String
  cause : File.Fault
  deriving DecidableEq, Repr

def Writer.Fault.chain (f : Fault) : List String :=
  ["Failed to create output file: " ++ f.name, f.cause.message]

namespace Writer

def new (header : Option (List String)) : Writer :=
  ⟨header, #[], 0⟩

def create (fs : Files) (name : String) (header : Option (List String)) : Except Fault Writer :=
  match fs.create name with
  | .ok () => .ok (new header)
  | .error cause => .error ⟨name, cause⟩

def writeLine (w : Writer) (j : Json) : Writer :=
  { w with lines := w.lines.push j.text }

def writeHeader (w : Writer) : Writer :=
  match w.header with
  | none => w
  | some names => { w with header := none }.writeLine (.arr (names.map .str))

def writeRow (w : Writer) (r : Row) : Writer :=
  let w := w.writeLine r.toJson
  { w with rows := w.rows + 1 }

def writeRows (w : Writer) (rows : List Row) : Writer :=
  rows.foldl writeRow w.writeHeader

def flush (w : Writer) : Writer :=
  w.writeHeader

def text (w : Writer) : String :=
  w.lines.foldl (fun s line => s ++ line ++ "\n") ""

end Writer

end AvroColumns
