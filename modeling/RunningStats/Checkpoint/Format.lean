import RunningStats.Checkpoint.Document

/-!
# Formats of records

`KahanSum`, `CentralMoments`, `WeightedStatistics`, `Interval` and `Observation` only declare their
fields: they derive `Serialize` and `Deserialize`, and how a record is written and found again is a
matter of the derived code and of the format it meets. Neither is part of the program, so
`RecordFormat` has what is called of them and nothing is said here of what it does. What is saved
and loaded is saved and loaded in a format, and the results about it name what they rely on.

`RecordFormat.plain` is a format of this library's own, so that there is one to run with.
-/

namespace RunningStats

/-- How records are written as documents, and their fields found in documents. -/
structure RecordFormat where
  /-- The document of a record of named fields. -/
  write : List (String × Document) → Document
  /-- What a document has under each of the wanted names, if it can be one of a record of such
  fields. -/
  fields (wanted : List String) : Document → Option (String → Option Document)

/-- Records are objects, in which a wanted name may not occur twice. -/
def RecordFormat.plain : RecordFormat where
  write := .object
  fields wanted
    | .object given =>
      if ∀ name ∈ wanted, (given.filter fun field => field.1 = name).length ≤ 1 then
        some fun name => given.lookup name
      else none
    | _ => none

end RunningStats
