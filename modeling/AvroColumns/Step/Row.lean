import AvroColumns.Step.Basic

namespace AvroColumns

def Cell.text? : Cell → Option String
  | .string s => some s
  | .binary b => Utf8.decode? b
  | _ => none

namespace Document

def decodePayload (d : Document) (encoding : Encoding) (payload : Cell) : Except Failure Datum :=
  let ofBytes (bytes : List UInt8) : Except Failure Datum :=
    ((d.root.readValue bytes).map (·.1)).mapError fun f => .payload (.wire f)
  match encoding, payload with
  | .binary, .binary b => ofBytes b
  | .binary, .string s => ofBytes (Utf8.encode s)
  | .binary, c => .error (.payload (.notBinary c))
  | .json, c =>
    match c.text? with
    | none => .error (.payload .notText)
    | some text =>
      match Json.read? text with
      | none => .error (.payload .malformed)
      | some j => (d.decode j).mapError Failure.ofDatum

end Document

namespace Step

structure Chosen where
  document : Document
  isDefault : Bool

variable (s : Step)

def chooseDefault (reason : Schema.Fault) : Except Failure Chosen :=
  match s.default with
  | some d => .ok ⟨d, true⟩
  | none => .error (.schema reason)

def schemaText (r : Row) : Except Failure (Option String) :=
  match s.config.schemaColumn with
  | none => .ok none
  | some column =>
    match (r[column]?).join with
    | none => .ok none
    | some c =>
      match c.text? with
      | none => .error (.schema (.cellNotText column))
      | some text => .ok (if Text.isBlankText text then none else some text)

/-- The schema under a key, taken from the cache if schemas are cached. The cache is looked through as
it was, `seen`, and gets what was loaded as it is by then. -/
def load (seen cache : Cache) (key : String) (read : String → Except Schema.Fault Document) :
    Except Schema.Fault Document × Cache :=
  if s.config.cacheSchemas then
    let (r, cache) := seen.resolveSince cache key fun _ => read key
    (r.map (·.document), cache)
  else (read key, cache)

/-- The schema that a row names. One that cannot be loaded from its file gives way to the default
schema. -/
def chooseNamed (fs : Files) (seen cache : Cache) (text : String) : Except Failure Chosen × Cache :=
  if s.config.schemaIsPath then
    let name := Text.trim text
    match s.load seen cache name (Document.ofFile fs), s.default with
    | (.ok d, cache), _ => (.ok ⟨d, false⟩, cache)
    | (.error _, cache), some d => (.ok ⟨d, true⟩, cache)
    | (.error f, cache), none => (.error (.schema f), cache)
  else
    let (r, cache) := s.load seen cache text Document.ofText
    ((r.map (⟨·, false⟩)).mapError Failure.schema, cache)

def choose (fs : Files) (seen cache : Cache) (r : Row) : Except Failure Chosen × Cache :=
  match s.schemaText r with
  | .error f => (.error f, cache)
  | .ok (some text) => s.chooseNamed fs seen cache text
  | .ok none =>
    (s.chooseDefault (if s.config.schemaColumn.isSome then .noneInRow else .noneConfigured), cache)

def decodeRowBy (value : Datum → Chosen → Except Failure (List Row)) (fs : Files) (seen cache : Cache)
    (r : Row) : Except Failure (List Row) × Cache :=
  match r[s.config.payloadColumn]? with
  | none =>
    (.error (.configuration (.payloadOutOfRange s.config.payloadColumn r.length)), cache)
  | some none => (.ok [r ++ List.replicate s.width none], cache)
  | some (some payload) =>
    match s.choose fs seen cache r with
    | (.error f, cache) => (.error f, cache)
    | (.ok chosen, cache) =>
      (chosen.document.decodePayload s.config.encoding payload >>= (value · chosen), cache)

def decodeRow (fs : Files) (binding : Option Binding) (cache : Cache) (r : Row) :
    Except Failure (List Row) × Cache :=
  s.decodeRowBy (fun v chosen => s.decodeValue binding r v chosen.document chosen.isDefault) fs
    cache cache r

end Step

end AvroColumns
