import AvroColumns.Failure.Basic

namespace AvroColumns.Document

def ofText (text : String) : Except Schema.Fault Document :=
  match Schema.ofText text with
  | .ok s => .ok (.ofSchema s)
  | .error defect => .error (.malformed defect)

def isContainerName (name : String) : Bool :=
  match Files.extension? name with
  | some ending => ending.toList.map Char.toLower == "avro".toList
  | none => false

/-- The schema in the header of a container. A directory can be opened, but has no header. -/
def ofContainer (fs : Files) (name : String) : Except Schema.Fault Document :=
  match fs name with
  | .error .isDirectory => .error (.unreadableContainer name .shortHeader)
  | .error fault => .error (.unreadable name fault)
  | .ok bytes =>
    match Container.ofBytes bytes with
    | .ok c => .ok c.document
    | .error fault => .error (.unreadableContainer name fault)

def ofFile (fs : Files) (name : String) : Except Schema.Fault Document :=
  if isContainerName name then ofContainer fs name
  else
    match fs.text name with
    | .error fault => .error (.unreadable name fault)
    | .ok text => ofText text

end AvroColumns.Document
