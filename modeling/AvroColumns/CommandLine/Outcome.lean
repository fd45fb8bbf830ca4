import AvroColumns.File.Basic
import AvroColumns.Path.Placeholder

namespace AvroColumns

structure Surroundings where
  files : Files
  environment : Variables
  input : List UInt8

structure Outcome where
  status : Nat
  output : String
  complaints : List String
  deriving DecidableEq, Repr

namespace Outcome

def success (output : String) : Outcome :=
  ⟨0, output, []⟩

def failure (output message : String) : Outcome :=
  ⟨1, output, ["Error: " ++ message]⟩

def refusal : Outcome :=
  ⟨2, "", []⟩

end Outcome

end AvroColumns
