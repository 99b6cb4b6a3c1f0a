/-!
# Readers of comma-separated files

`WeightedSample::read` leaves the file format to a library: it sets a reader up (`has_headers`,
`trim`), has each record turned into an `Observation` by the names of the columns (`deserialize`),
and collects them. The library is not part of the program, so `Reader` has what is called of it and
nothing is said here of what it does. Everything that reads a file takes a reader, and the results
about it name what they rely on.

* `header` and `rows` are what an open reader goes through, the records in their order. A record
  may be unreadable by itself.
* `numbers` is the part of `deserialize` that finds the fields of a record by their names and reads
  them. What becomes of a name that has no column is left to the caller.
-/

namespace RunningStats.Csv

/-- Where reading stands: records read, the line counted from one, and bytes read. -/
structure Position where
  record : Nat
  line : Nat
  byte : Nat
  deriving DecidableEq, Repr

/-- Where the blanks around a field are taken away. -/
inductive Trim where
  | none
  | headers
  | fields
  | all
  deriving DecidableEq, Repr

/-- How a reader is set up. -/
structure Setup where
  /-- Whether the first record names the columns. -/
  headed : Bool
  trim : Trim
  deriving DecidableEq, Repr

/-- A record as a reader gives it: its texts, and the position at which reading it began. -/
structure Row where
  position : Position
  texts : List String
  deriving DecidableEq, Repr

/-- A reader of files with records of numbers, and its faults. -/
structure Reader (α ε : Type) where
  /-- There is no file. -/
  notFound : ε
  /-- The names of the columns, if there is a header that is text. -/
  header : Setup → List UInt8 → Option (List String)
  /-- The records, without the header. -/
  rows : Setup → List UInt8 → List (Except ε Row)
  /-- The numbers of a record in the columns of the wanted names, under what the header says. -/
  numbers (wanted : List String) : Option (List String) → Row → Except ε (String → Option α)
  /-- A record has no column of a name that it needs. -/
  missing : Row → String → ε

end RunningStats.Csv
