import AvroColumns.Numeric.Integer
import AvroColumns.Path.Placeholder

namespace AvroColumns

inductive Segment
  | member (name : String)
  | key (key : String)
  | index (i : Int)
  | wildcard
  deriving DecidableEq, Repr

namespace Segment

def ofBracket (content : List Char) : Segment :=
  if content = ['*'] then .wildcard
  else
    match Numeral.index? content with
    | some i => .index i
    | none => .key (String.ofList content)

def chars : Segment → List Char
  | .member name => '.' :: name.toList
  | .key k => '[' :: (k.toList ++ [']'])
  | .index i => '[' :: (Numeral.ofInt i ++ [']'])
  | .wildcard => ['[', '*', ']']

def text (s : Segment) : String :=
  String.ofList s.chars

def isWildcard : Segment → Bool
  | .wildcard => true
  | _ => false

def hasPlaceholder : Segment → Bool
  | .member name => Placeholder.occurs name.toList
  | .key k => Placeholder.occurs k.toList
  | _ => false

/-- Replaces the placeholders in the segment's text. A key that comes out as a 64-bit integer is a
position. -/
def bind (vars : Variables) : Segment → Segment
  | .member name => .member (Placeholder.substitute vars name)
  | .key k =>
    let bound := Placeholder.substitute vars k
    match Numeral.index? bound.toList with
    | some i => .index i
    | none => .key bound
  | s => s

section

variable (name k : String) (i : Int) (vars : Variables)

@[simp] theorem chars_member : (member name).chars = '.' :: name.toList := rfl

@[simp] theorem chars_key : (key k).chars = '[' :: (k.toList ++ [']']) := rfl

@[simp] theorem chars_index : (index i).chars = '[' :: (Numeral.ofInt i ++ [']']) := rfl

@[simp] theorem chars_wildcard : wildcard.chars = ['[', '*', ']'] := rfl

@[simp] theorem bind_member :
    (member name).bind vars = .member (Placeholder.substitute vars name) :=
  rfl

@[simp] theorem bind_index : (index i).bind vars = .index i := rfl

@[simp] theorem bind_wildcard : wildcard.bind vars = .wildcard := rfl

end

end Segment

inductive Root
  | record
  | container
  deriving DecidableEq, Repr

structure Path where
  raw : String
  root : Root
  segments : List Segment
  deriving DecidableEq, Repr

structure BoundPath where
  root : Root
  segments : List Segment
  deriving DecidableEq, Repr

namespace Path

def wildcard? (p : Path) : Option Nat :=
  p.segments.findIdx? Segment.isWildcard

def rendered (segments : List Segment) : List Char :=
  segments.flatMap Segment.chars

@[simp] theorem rendered_nil : rendered [] = [] := rfl

@[simp] theorem rendered_cons (s : Segment) (segments : List Segment) :
    rendered (s :: segments) = s.chars ++ rendered segments :=
  List.flatMap_cons

@[simp] theorem rendered_append (before after : List Segment) :
    rendered (before ++ after) = rendered before ++ rendered after :=
  List.flatMap_append

def bind (p : Path) (vars : Variables) : BoundPath :=
  ⟨p.root,
    if p.segments.any Segment.hasPlaceholder then p.segments.map (Segment.bind vars)
    else p.segments⟩

end Path

end AvroColumns
