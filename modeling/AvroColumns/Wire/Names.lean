import AvroColumns.Schema.Basic
import AvroColumns.Wire.Fault

namespace AvroColumns.Wire

abbrev Names := List (TypeName × Schema)

namespace Names

def find? (names : Names) (n : TypeName) : Option Schema :=
  (List.find? (·.1 = n) names).map (·.2)

def define (names : Names) (n : TypeName) (s : Schema) : Except Fault Names :=
  if (names.find? n).isSome then .error (.repeatedName n.full) else .ok ((n, s) :: names)

mutual

def collect (space : String) (names : Names) : Schema → Except Fault Names
  | .enum e => names.define (e.name.within space) (.enum e)
  | .fixed f => names.define (f.name.within space) (.fixed f)
  | .record ⟨name, fields⟩ => do
    let name' := name.within space
    let names ← names.define name' (.record ⟨name, fields⟩)
    collectFields name'.space names fields
  | .array items => collect space names items
  | .map values => collect space names values
  | .union members => collectMembers space names members
  | .ref name =>
    let name := name.within space
    if (names.find? name).isSome then .ok names else .error (.unresolvedName name.full)
  | .primitive _ | .decimal .. => .ok names

def collectMembers (space : String) (names : Names) : List Schema → Except Fault Names
  | [] => .ok names
  | s :: ss => do
    let names ← collect space names s
    collectMembers space names ss

def collectFields (space : String) (names : Names) : List (Field Schema) → Except Fault Names
  | [] => .ok names
  | ⟨_, _, s, _⟩ :: fs => do
    let names ← collect space names s
    collectFields space names fs

end

def ofSchema (s : Schema) : Except Fault Names :=
  collect "" [] s

end Names

end AvroColumns.Wire
