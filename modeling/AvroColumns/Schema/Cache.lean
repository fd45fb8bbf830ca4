import AvroColumns.Schema.Document

namespace AvroColumns

structure Cache.Entry where
  key : String
  number : Nat
  document : Document

structure Cache where
  entries : List Cache.Entry
  next : Nat

namespace Cache

def empty : Cache := ⟨[], 0⟩

instance : Inhabited Cache := ⟨empty⟩

def find? (c : Cache) (key : String) : Option Entry :=
  c.entries.find? (·.key == key)

def size (c : Cache) : Nat :=
  c.entries.length

def keys (c : Cache) : List String :=
  c.entries.map (·.key)

def clear (c : Cache) : Cache :=
  { c with entries := [] }

def insert (c : Cache) (key : String) (d : Document) : Entry × Cache :=
  let entry : Entry := ⟨key, c.next, d⟩
  (entry, ⟨c.entries ++ [entry], c.next + 1⟩)

/-- The entry under a key, which is loaded if it was not there when the cache was looked through. If the
key has come in since then, its entry stays and what was loaded is dropped. What does not load leaves the
cache as it is. -/
def resolveSince {ε : Type} (seen c : Cache) (key : String) (load : Unit → Except ε Document) :
    Except ε Entry × Cache :=
  match seen.find? key with
  | some entry => (.ok entry, c)
  | none =>
    match load () with
    | .error e => (.error e, c)
    | .ok d =>
      match c.find? key with
      | some entry => (.ok entry, c)
      | none =>
        let (entry, c) := c.insert key d
        (.ok entry, c)

def resolve {ε : Type} (c : Cache) (key : String) (load : Unit → Except ε Document) :
    Except ε Entry × Cache :=
  c.resolveSince c key load

end Cache

end AvroColumns
