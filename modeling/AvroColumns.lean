import AvroColumns.Main
import AvroColumns.Proofs.Step.OwnDefault
import AvroColumns.Proofs.Step.Session
import AvroColumns.Proofs.Schema.Parts
import AvroColumns.Proofs.Datum.Decoding
import AvroColumns.Proofs.Datum.Calls
import AvroColumns.Proofs.Datum.Ending
import AvroColumns.Proofs.Schema.Reads
import AvroColumns.Proofs.Schema.Scope
import AvroColumns.Proofs.Schema.References
import AvroColumns.Proofs.Datum.Typing
import AvroColumns.Proofs.Datum.Encoding
import AvroColumns.Proofs.Datum.Wrapping
import AvroColumns.Proofs.Datum.Sizes
import AvroColumns.Proofs.Path.Reading
import AvroColumns.Proofs.Plan.Discovery
import AvroColumns.Proofs.Walk.Admission
import AvroColumns.Proofs.Walk.Brackets
import AvroColumns.Proofs.Walk.Crossing
import AvroColumns.Proofs.Walk.Vanishing
import AvroColumns.Proofs.Step.OwnSchema
import AvroColumns.Proofs.Step.Tolerance
import AvroColumns.Proofs.Rows.Parallel
import AvroColumns.Proofs.Step.ColumnTypes
import AvroColumns.Proofs.Rows.PassThrough
import AvroColumns.Proofs.CommandLine.Header
import AvroColumns.Proofs.Cell.Literals
import AvroColumns.Proofs.Path.Substitution
import AvroColumns.Proofs.Step.Wildcards
import AvroColumns.Proofs.Walk.Filling
import AvroColumns.Proofs.Expansion.Fallback
import AvroColumns.Proofs.Numeric.Numerals
import AvroColumns.Proofs.Cell.Instants
import AvroColumns.Proofs.Numeric.Values
import AvroColumns.Proofs.Numeric.Truncation
import AvroColumns.Proofs.Cell.Integers
import AvroColumns.Proofs.Plan.Unfolding
import AvroColumns.Proofs.Plan.Leaves
import AvroColumns.Proofs.Plan.Names
import AvroColumns.Proofs.Cell.Amounts
import AvroColumns.Proofs.Plan.Partition
import AvroColumns.Proofs.Step.Entries
import AvroColumns.Proofs.Rows.Lines
import AvroColumns.Proofs.Walk.Composition
import AvroColumns.Proofs.Walk.Positions
import AvroColumns.Proofs.Path.Cleansing
