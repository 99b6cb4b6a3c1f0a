import RunningStats.Csv.Fault
import RunningStats.Csv.Reader
import RunningStats.Observation
import RunningStats.Text.Blank
import RunningStats.Text.Utf8

/-!
# A reader of comma-separated files

`Csv.reader` is a `Reader` of this library's own, so that files can be read without another. The
records are those of `Csv.records`. Every one must have as many fields as the first, all of them
valid text. Of the columns of a name that is wanted there may be one; other columns are ignored.
Under a header that is not valid text the columns have the wanted names in the order in which these
are given.
-/

namespace RunningStats.Csv

/-- Whether the names of the columns are trimmed. -/
def Trim.ofHeader : Trim → Bool
  | headers | all => true
  | none | fields => false

/-- Whether the fields of the records are trimmed. -/
def Trim.ofFields : Trim → Bool
  | fields | all => true
  | none | headers => false

/-- The text of a field without the blanks around it, or the length of its valid part. -/
def fieldText (bytes : List UInt8) : Except Nat String :=
  (Text.Utf8.decode (Text.trim Text.isBlankByte bytes)).map fun cs =>
    String.ofList (Text.trim Text.isBlank cs)

/-- The text of a field as it stands, or the length of its valid part. -/
def wholeText (bytes : List UInt8) : Except Nat String :=
  (Text.Utf8.decode bytes).map String.ofList

/-- The texts of fields, the first of which has the given number. -/
def fieldTexts (trimmed : Bool) (position : Position) :
    Nat → List (List UInt8) → Except Fault (List String)
  | _, [] => .ok []
  | i, field :: rest =>
    match if trimmed then fieldText field else wholeText field with
    | .error valid => .error (.invalidText position i valid)
    | .ok text => (fieldTexts trimmed position (i + 1) rest).map (text :: ·)

/-- A record of as many fields as the first. -/
def row (trimmed : Bool) (width : Nat) (r : Record) : Except Fault Row :=
  if r.fields.length ≠ width then
    .error (.unequalLengths r.position r.fields.length width)
  else (fieldTexts trimmed r.position 0 r.fields).map fun texts => ⟨r.position, texts⟩

/-- The records after the header, if there is to be one. -/
def rows (setup : Setup) (bytes : List UInt8) : List (Except Fault Row) :=
  match records bytes with
  | [] => []
  | first :: rest =>
    let rs := if setup.headed then rest else first :: rest
    rs.map (row setup.trim.ofFields first.fields.length)

/-- The names of the columns. -/
def header (setup : Setup) (bytes : List UInt8) : Option (List String) :=
  match records bytes with
  | [] => none
  | first :: _ =>
    if setup.headed then
      (fieldTexts setup.trim.ofHeader first.position 0 first.fields).toOption
    else none

variable {α : Type} [Patterned α]

/-- The number in a field. -/
def number (position : Position) (field : Nat) (text : String) : Except Fault α :=
  match Decimal.readNumber α text.toList with
  | .ok x => .ok x
  | .error cause => .error (.unreadable position field cause)

/-- The numbers in the wanted columns among the fields from a given one on, added to those found
before. -/
def collect (wanted : List String) (position : Position) :
    Nat → List (String × String) → (String → Option α) → Except Fault (String → Option α)
  | _, [], found => .ok found
  | i, (name, text) :: rest, found =>
    if name ∉ wanted then collect wanted position (i + 1) rest found
    else if (found name).isSome then .error (.repeatedColumn position name)
    else do
      let x ← number position i text
      collect wanted position (i + 1) rest fun other => if other = name then some x else found other

/-- The library's own reader. -/
def reader : Reader α Fault where
  notFound := .notFound
  header := header
  rows := rows
  numbers wanted names r :=
    collect wanted r.position 0 ((names.getD wanted).zip r.texts) fun _ => none
  missing r name := .missingColumn r.position name

end RunningStats.Csv
