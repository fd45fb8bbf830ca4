import AvroColumns.Config.Reader
import AvroColumns.Failure.Basic

namespace AvroColumns.Config

def ofFile (fs : Files) (name : String) : Except Failure Config :=
  match fs.text name with
  | .error fault => .error (.file fault)
  | .ok text =>
    match ofText? text with
    | some c => .ok c
    | none => .error (.configuration (.invalidFile name))

end AvroColumns.Config
