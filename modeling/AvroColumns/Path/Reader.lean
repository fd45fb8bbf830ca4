import AvroColumns.Path.Basic
import AvroColumns.Text.Blank

/-!
# Path texts

The written form of paths. `$.name` starts at a record and `$[...]` at a map or array; after that
`.name` is a record member, `[*]` the wildcard, `[12]` a position and `[key]` a key. The leading `$`
may be left out.
-/

namespace AvroColumns.Path

inductive Defect
  | rootMark
  | emptySegment
  | afterBracket
  | openBracket
  deriving DecidableEq, Repr

def Defect.message : Defect → String
  | .rootMark => "'$' must be followed by '.' or '['"
  | .emptySegment => "empty path segment"
  | .afterBracket => "unexpected text after ']'"
  | .openBracket => "unterminated '['"

inductive Fault
  | blank
  | malformed (raw : String) (defect : Defect)
  deriving DecidableEq, Repr

def Fault.message : Fault → String
  | .blank => "no path set for field"
  | .malformed raw defect => "malformed path '" ++ raw ++ "': " ++ defect.message

/-- The segments of a run such as `[0][key][*]`. Inside brackets, the content so far is given, last
character first. -/
def bracketsFrom : (content : Option (List Char)) → List Char → Except Defect (List Segment)
  | none, [] => .ok []
  | none, '[' :: cs => bracketsFrom (some []) cs
  | none, _ :: _ => .error .afterBracket
  | some content, ']' :: cs =>
    (bracketsFrom none cs).map (Segment.ofBracket content.reverse :: ·)
  | some content, c :: cs => bracketsFrom (some (c :: content)) cs
  | some _, [] => .error .openBracket

def partSegments (part : List Char) : Except Defect (List Segment) :=
  if part = [] then .error .emptySegment
  else
    let name := part.takeWhile (· ≠ '[')
    let steps := bracketsFrom none (part.dropWhile (· ≠ '['))
    if name = [] then steps else steps.map (.member (String.ofList name) :: ·)

/-- The segments of a list of parts. The first defect is the one that counts. -/
def partsSegments : List (List Char) → Except Defect (List Segment)
  | [] => .ok []
  | part :: parts => do
    let first ← partSegments part
    let rest ← partsSegments parts
    return first ++ rest

def ofChars (cs : List Char) : Except Defect (Root × List Segment) :=
  match cs.splitOn '.' with
  | ['$'] :: parts => (partsSegments parts).map (.record, ·)
  | ('$' :: '[' :: part) :: parts =>
    (partsSegments (('[' :: part) :: parts)).map (.container, ·)
  | ('$' :: _) :: _ => .error .rootMark
  | ('[' :: part) :: parts => (partsSegments (('[' :: part) :: parts)).map (.container, ·)
  | parts => (partsSegments parts).map (.record, ·)

/-- Reads a path. Blanks around it do not count, and dots inside placeholders do not split it. -/
def compile (raw : String) : Except Fault Path :=
  let cs := Text.trimChars raw.toList
  if cs = [] then .error .blank
  else
    match ofChars (Placeholder.cleanse cs) with
    | .ok (root, segments) => .ok ⟨raw, root, segments⟩
    | .error defect => .error (.malformed raw defect)

end AvroColumns.Path
