import RunningStats.Csv.Columns
import RunningStats.Sample.Basic

/-!
# Loading a sample

Model of `WeightedSample::read` and `SampleError`. A sample is read from the contents of a
comma-separated file by a reader that is set up for a header and trims all fields. The first bad
record makes the whole file unreadable, however many good ones there are.

* `Observation.ofRow` is what an `Observation` declares: the field `value`, which must be there, and
  the field `weight`, which is one (`unit_weight`) where there is no such column.
* `Sample.read` works with any `Csv.Reader`; `Sample.load` is that with the library's own.
* A path is replaced by the contents of its file, or none if there is no such file. Files that
  cannot be read to their end are not modelled.
-/

namespace RunningStats

/-- Why a sample could not be read, with the fault of its reader. -/
inductive Sample.ReadFault (ε : Type) where
  | csv (cause : ε)
  /-- There is at most a header. -/
  | noRecords
  deriving DecidableEq, Repr

/-- Why a sample could not be loaded. -/
abbrev LoadFault := Sample.ReadFault Csv.Fault

/-- The text of a fault. -/
def LoadFault.message : LoadFault → String
  | .csv cause => "CSV error: " ++ cause.message
  | .noRecords => "CSV file contains no data records"

variable {α ε : Type} [Scalar α]

/-- The observation of a record, if the reader could read it: its value, and its weight or one if
there is no such column. -/
def Observation.ofRow (reader : Csv.Reader α ε) (header : Option (List String))
    (read : Except ε Csv.Row) : Except ε (Observation α) := do
  let r ← read
  let number ← reader.numbers ["value", "weight"] header r
  match number "value" with
  | none => .error (reader.missing r "value")
  | some value => .ok { value, weight := (number "weight").getD 1 }

namespace Sample

/-- How a reader is set up for a sample. -/
def setup : Csv.Setup := { headed := true, trim := .all }

/-- The sample in a file, read by a given reader. -/
def read (reader : Csv.Reader α ε) (contents : Option (List UInt8)) :
    Except (ReadFault ε) (Sample α) :=
  match contents with
  | none => .error (.csv reader.notFound)
  | some bytes =>
    let header := reader.header setup bytes
    match (reader.rows setup bytes).mapM (Observation.ofRow reader header) with
    | .error cause => .error (.csv cause)
    | .ok [] => .error .noRecords
    | .ok os => .ok ⟨os⟩

/-- The sample in a file; a file that does not exist has no contents. -/
def load [Patterned α] (contents : Option (List UInt8)) : Except LoadFault (Sample α) :=
  read Csv.reader contents

end Sample

end RunningStats
