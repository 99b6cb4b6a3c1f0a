import RunningStats.Csv.Reader

/-!
# Records of comma-separated text

Bytes are divided into records, and records into fields, by a machine that takes one byte at a
time (`Scanner.step`). Commas part fields; a carriage return or a line feed ends a record, and any
number of them before one is skipped. A field that begins with a quote runs to the quote that
closes it, with two quotes standing for one; what follows a closing quote is taken as it stands.

Each record is given the position at which reading it began, blank lines before it included.
-/

namespace RunningStats.Csv

/-- The byte between two fields. -/
def comma : UInt8 := 0x2C

/-- The byte around a quoted field. -/
def quote : UInt8 := 0x22

/-- The byte that ends a line. -/
def lineFeed : UInt8 := 0x0A

/-- The other byte that may end a record. -/
def carriageReturn : UInt8 := 0x0D

/-- A byte that ends a record. -/
def isTerminator (b : UInt8) : Bool := b == lineFeed || b == carriageReturn

/-- A record's fields, with the position at which reading it began. -/
structure Record where
  position : Position
  fields : List (List UInt8)
  deriving DecidableEq, Repr

/-- Where the machine stands between two bytes. -/
inductive Phase where
  /-- Before a record. -/
  | outside
  /-- Before the first byte of a field. -/
  | fieldStart
  /-- In a field that is not quoted, or after its quotes. -/
  | plain
  /-- Between quotes. -/
  | quoted
  /-- After a quote between quotes. -/
  | quoteSeen
  deriving DecidableEq, Repr

/-- The machine: its phase, the field, record and list of records so far, each with its last part
first, the position at which the record began, and that reached. -/
structure Scanner where
  phase : Phase
  field : List UInt8
  fields : List (List UInt8)
  records : List Record
  start : Position
  reached : Position

namespace Scanner

/-- The machine before a text whose first byte has the given offset. -/
def init (offset : Nat) : Scanner where
  phase := .outside
  field := []
  fields := []
  records := []
  start := ⟨0, 1, offset⟩
  reached := ⟨0, 1, offset⟩

/-- One byte further. -/
def advance (s : Scanner) (b : UInt8) : Scanner :=
  { s with reached :=
    { s.reached with
      line := if b = lineFeed then s.reached.line + 1 else s.reached.line
      byte := s.reached.byte + 1 } }

/-- Copy a byte into the field. -/
def copy (s : Scanner) (b : UInt8) (phase : Phase) : Scanner :=
  { s with field := b :: s.field, phase }

/-- End the field. -/
def endField (s : Scanner) : Scanner :=
  { s with field := [], fields := s.field.reverse :: s.fields, phase := .fieldStart }

/-- End the field and the record. -/
def endRecord (s : Scanner) : Scanner :=
  let fields := (s.field.reverse :: s.fields).reverse
  let next := { s.reached with record := s.reached.record + 1 }
  { phase := .outside, field := [], fields := [],
    records := ⟨s.start, fields⟩ :: s.records, start := next, reached := next }

/-- A byte that may end the field: a comma or a terminator does, any other is copied. -/
def plainByte (s : Scanner) (b : UInt8) : Scanner :=
  if b = comma then s.endField
  else if isTerminator b then s.endRecord
  else s.copy b .plain

/-- The first byte of a field. -/
def firstByte (s : Scanner) (b : UInt8) : Scanner :=
  if b = quote then { s with phase := .quoted } else s.plainByte b

/-- Take one byte. -/
def step (s : Scanner) (b : UInt8) : Scanner :=
  let s := s.advance b
  match s.phase with
  | .outside => if isTerminator b then s else s.firstByte b
  | .fieldStart => s.firstByte b
  | .plain => s.plainByte b
  | .quoted => if b = quote then { s with phase := .quoteSeen } else s.copy b .quoted
  | .quoteSeen => if b = quote then s.copy b .quoted else s.plainByte b

/-- The records, the one under way ending with the text. -/
def finish (s : Scanner) : List Record :=
  match s.phase with
  | .outside => s.records.reverse
  | _ => s.endRecord.records.reverse

end Scanner

/-- The mark that may stand before the text. -/
def byteOrderMark : List UInt8 := [0xEF, 0xBB, 0xBF]

/-- The records of a text whose first byte has the given offset. -/
def scan (offset : Nat) (bytes : List UInt8) : List Record :=
  (bytes.foldl Scanner.step (Scanner.init offset)).finish

/-- The records of a text. A byte order mark before it is skipped and counts as read. -/
def records (bytes : List UInt8) : List Record :=
  let mark := byteOrderMark.length
  if byteOrderMark.isPrefixOf bytes then scan mark (bytes.drop mark) else scan 0 bytes

end RunningStats.Csv
