import AvroColumns.Cell.Target

namespace AvroColumns

structure Column where
  name : String
  path : String
  target : Target
  symbols : Option (List String)
  deriving DecidableEq, Repr

end AvroColumns
