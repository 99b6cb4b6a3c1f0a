import RunningStats.Csv.Record
import RunningStats.Decimal.Literal

/-!
# Faults of comma-separated files

Why `Csv.reader` cannot read a file as a table of numbers. Each fault of a record names the position
at which reading the record began.
-/

namespace RunningStats.Csv

/-- The cause of an unreadable file. -/
inductive Fault where
  /-- There is no such file. -/
  | notFound
  /-- A record of another number of fields than the header. -/
  | unequalLengths (position : Position) (found expected : Nat)
  /-- A field that is not UTF-8 beyond its first bytes. -/
  | invalidText (position : Position) (field validBytes : Nat)
  /-- A column that occurs twice. -/
  | repeatedColumn (position : Position) (name : String)
  /-- A column that has to be there is not. -/
  | missingColumn (position : Position) (name : String)
  /-- A field that is no number. -/
  | unreadable (position : Position) (field : Nat) (cause : Decimal.Unreadable)
  deriving DecidableEq, Repr

/-- A position in parentheses, after its record. -/
def Position.describe (p : Position) : String :=
  "record " ++ toString p.record ++ " (line: " ++ toString p.line ++ ", byte: " ++ toString p.byte
    ++ "): "

namespace Fault

/-- The text of what makes a field unreadable. -/
def describe : Decimal.Unreadable → String
  | .empty => "cannot parse float from empty string"
  | .invalid => "invalid float literal"

/-- The text of a fault. -/
def message : Fault → String
  | notFound => "No such file or directory (os error 2)"
  | unequalLengths p found expected =>
    "CSV error: " ++ p.describe ++ "found record with " ++ toString found
      ++ " fields, but the previous record has " ++ toString expected ++ " fields"
  | invalidText p field validBytes =>
    "CSV parse error: record " ++ toString p.record ++ " (line " ++ toString p.line ++ ", field: "
      ++ toString field ++ ", byte: " ++ toString p.byte ++ "): invalid utf-8: "
      ++ "invalid UTF-8 in field " ++ toString field ++ " near byte index " ++ toString validBytes
  | repeatedColumn p name =>
    "CSV deserialize error: " ++ p.describe ++ "duplicate field `" ++ name ++ "`"
  | missingColumn p name =>
    "CSV deserialize error: " ++ p.describe ++ "missing field `" ++ name ++ "`"
  | unreadable p field cause =>
    "CSV deserialize error: " ++ p.describe ++ "field " ++ toString field ++ ": " ++ describe cause

end Fault

end RunningStats.Csv
