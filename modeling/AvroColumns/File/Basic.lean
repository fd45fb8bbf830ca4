import AvroColumns.Text.Utf8

namespace AvroColumns

/-- Why a file cannot be read. A directory can be opened, but not read. -/
inductive File.Fault
  | notFound
  | notDirectory
  | isDirectory
  | nameTooLong
  | notUtf8
  deriving DecidableEq, Repr

def File.Fault.message : File.Fault → String
  | .notFound => "No such file or directory (os error 2)"
  | .notDirectory => "Not a directory (os error 20)"
  | .isDirectory => "Is a directory (os error 21)"
  | .nameTooLong => "File name too long (os error 36)"
  | .notUtf8 => "stream did not contain valid UTF-8"

abbrev Files := String → Except File.Fault (List UInt8)

namespace Files

def none : Files := fun _ => .error .notFound

def text (fs : Files) (name : String) : Except File.Fault String := do
  match Utf8.decode? (← fs name) with
  | some s => return s
  | .none => throw .notUtf8

def parts (name : String) : List (List Char) :=
  (name.toList.splitOn '/').filter fun part => part ≠ [] ∧ part ≠ ['.']

def largestPart : Nat := 255

def largestName : Nat := 4095

/-- The file in a list that the parts of a name lead to. The list is one directory, in which files
may have names of several parts. -/
def lookup (files : List (String × List UInt8)) : List (List Char) → Except File.Fault (List UInt8)
  | [] => .error .isDirectory
  | part :: rest =>
    if part = [] ∨ part = ['.'] then lookup files rest
    else if part = ['.', '.'] then
      if rest.all fun part => part == [] || part == ['.'] then .error .isDirectory
      else .error .notFound
    else if largestPart < (String.ofList part).utf8ByteSize then .error .nameTooLong
    else
      match files.reverse.find? fun (n, _) => parts n == [part], rest with
      | some (_, bytes), [] => .ok bytes
      | some _, _ :: _ => .error .notDirectory
      | .none, _ =>
        match files.reverse.find? fun (n, _) => parts n == part :: rest with
        | some (_, bytes) => .ok bytes
        | .none => .error .notFound

/-- The files of a list, by their names. Outside their directory there are none. -/
def ofList (files : List (String × List UInt8)) : Files := fun name =>
  if name = "" then .error .notFound
  else if largestName < name.utf8ByteSize then .error .nameTooLong
  else if name.toList.head? = some '/' ∧ parts name ≠ [] then .error .notFound
  else lookup files (name.toList.splitOn '/')

/-- Whether a file can be made under a name, or emptied if there is one. New files go into the
directory of the others, and what ends in a slash can only be a directory. -/
def create (fs : Files) (name : String) : Except File.Fault Unit :=
  let parts := (name.toList.splitOn '/').dropWhile fun part => part == [] || part == ['.']
  let isSlashed := 1 < parts.length ∧ parts.tail.all (· == [])
  match fs name with
  | .ok _ => .ok ()
  | .error .notFound =>
    if parts.length = 1 then .ok ()
    else if isSlashed then .error .isDirectory
    else .error .notFound
  | .error .notDirectory => if isSlashed then .error .isDirectory else .error .notDirectory
  | .error fault => .error fault

def extension? (name : String) : Option String :=
  match (parts name).getLast? with
  | .none => .none
  | some part =>
    if part = ['.', '.'] then .none
    else
      let ending := (part.reverse.takeWhile (· ≠ '.')).reverse
      if part.length ≤ ending.length + 1 then .none else some (String.ofList ending)

end Files

end AvroColumns
