import Mathlib
import RunningStats.Csv.Record

/-!
# Comma-separated text and its records

How a table is written: fields with or without quotes, commas between them, any line ends, blank
lines anywhere, with or without a byte order mark. A piece of text is built only where it can be
told what it says: a plain field has no comma, no line end and no quote to begin with, and a line
is not empty.

* `Scanner.At`: what the machine has read, but for the positions. Each kind of byte has one lemma
  that says where the machine stands after it; `At.cell`, `At.cells` and `At.lines` go on from
  there to a field, a line and the lines of a table.
* **`records_bytes`**: the records of a table are its lines, field by field as they were before they
  were quoted.
-/

namespace RunningStats.Csv

/-! ## Writing a table -/

/-- A field as it is written. -/
inductive Cell where
  /-- The bytes of the field, when none of them means anything. -/
  | plain (bytes : List UInt8) (free : ∀ b ∈ bytes, b ≠ comma ∧ ¬ isTerminator b)
      (bare : bytes.head? ≠ some quote)
  /-- The field between quotes, where each of its own is doubled. -/
  | quoted (bytes : List UInt8)

namespace Cell

/-- What the field says. -/
def content : Cell → List UInt8
  | plain bytes _ _ => bytes
  | quoted bytes => bytes

/-- Bytes between quotes. -/
def escape (bytes : List UInt8) : List UInt8 :=
  bytes.flatMap fun b => if b = quote then [quote, quote] else [b]

/-- The field's bytes in the text. -/
def bytes : Cell → List UInt8
  | plain bytes _ _ => bytes
  | quoted bytes => quote :: (escape bytes ++ [quote])

end Cell

/-- Fields with a comma before each. -/
def cellBytes (cells : List Cell) : List UInt8 := cells.flatMap fun c => comma :: c.bytes

/-- A line: one field or more. A line of one field that is nothing at all would be a blank line. -/
structure Line where
  first : Cell
  others : List Cell
  visible : first.bytes ++ cellBytes others ≠ []

namespace Line

/-- The line's bytes in the text, without its end. -/
def bytes (l : Line) : List UInt8 := l.first.bytes ++ cellBytes l.others

/-- What the line's fields say. -/
def fields (l : Line) : List (List UInt8) := (l.first :: l.others).map Cell.content

end Line

/-- An end of a line, blank lines after it included. -/
structure LineEnd where
  bytes : List UInt8
  nonempty : bytes ≠ []
  terminators : ∀ b ∈ bytes, isTerminator b

/-- The bytes of lines with their ends. -/
def lineBytes (ls : List (Line × LineEnd)) : List UInt8 :=
  ls.flatMap fun (l, e) => l.bytes ++ e.bytes

/-- A table: lines with their ends, and perhaps a last line that the text ends with. Blank lines
may stand before the first. -/
structure Table where
  blank : List UInt8
  blank_terminators : ∀ b ∈ blank, isTerminator b
  ended : List (Line × LineEnd)
  last : Option Line

namespace Table

/-- The table's lines. -/
def lines (t : Table) : List Line := t.ended.map Prod.fst ++ t.last.toList

/-- The table's bytes without a mark. -/
def text (t : Table) : List UInt8 :=
  t.blank ++ (lineBytes t.ended ++ (t.last.map Line.bytes).getD [])

/-- A text of the table: with a byte order mark, or without if it does not look like one. -/
inductive Written (t : Table) : List UInt8 → Prop where
  | marked : Written t (byteOrderMark ++ t.text)
  | unmarked (h : ¬ byteOrderMark <+: t.text) : Written t t.text

end Table

/-! ## Reading it -/

namespace Scanner

/-- Where the machine stands and what it has read: of the field, of the record, and the records. -/
structure At (s : Scanner) (phase : Phase) (field : List UInt8) (fields : List (List UInt8))
    (done : List (List (List UInt8))) : Prop where
  phase : s.phase = phase
  field : s.field = field.reverse
  fields : s.fields = fields.reverse
  done : s.records.map Record.fields = done.reverse

namespace At

variable {s : Scanner} {phase : Phase} {field : List UInt8} {fields : List (List UInt8)}
  {done : List (List (List UInt8))} {b : UInt8}

theorem init (offset : ℕ) : At (Scanner.init offset) .outside [] [] [] := ⟨rfl, rfl, rfl, rfl⟩

theorem advance (h : At s phase field fields done) : At (s.advance b) phase field fields done :=
  ⟨h.phase, h.field, h.fields, h.done⟩

theorem copy (h : At s phase field fields done) (next : Phase) :
    At (s.copy b next) next (field ++ [b]) fields done :=
  ⟨rfl, by simp [Scanner.copy, h.field], h.fields, h.done⟩

theorem endField (h : At s phase field fields done) :
    At s.endField .fieldStart [] (fields ++ [field]) done :=
  ⟨rfl, rfl, by simp [Scanner.endField, h.field, h.fields], h.done⟩

theorem endRecord (h : At s phase field fields done) :
    At s.endRecord .outside [] [] (done ++ [fields ++ [field]]) :=
  ⟨rfl, rfl, rfl, by simp [Scanner.endRecord, h.field, h.fields, h.done]⟩

theorem comma (h : At s phase field fields done) (hphase : phase ≠ .quoted) :
    At (s.step Csv.comma) .fieldStart [] (fields ++ [field]) done := by
  have hstep : s.step Csv.comma = (s.advance Csv.comma).endField := by
    have hadvance : (s.advance Csv.comma).phase = phase := h.phase
    have hquote : Csv.comma ≠ quote := by decide
    have hterminator : isTerminator Csv.comma = false := by decide
    cases phase <;> first
      | exact absurd rfl hphase
      | simp [Scanner.step, hadvance, firstByte, plainByte, hquote, hterminator]
  rw [hstep]
  exact h.advance.endField

theorem terminator (h : At s phase field fields done) (hphase : phase ≠ .quoted)
    (hinside : phase ≠ .outside) (hb : isTerminator b) :
    At (s.step b) .outside [] [] (done ++ [fields ++ [field]]) := by
  have hstep : s.step b = (s.advance b).endRecord := by
    have hadvance : (s.advance b).phase = phase := h.phase
    have hcomma : b ≠ Csv.comma := fun he => absurd (he ▸ hb) (by decide)
    have hquote : b ≠ quote := fun he => absurd (he ▸ hb) (by decide)
    cases phase <;> first
      | exact absurd rfl hphase
      | exact absurd rfl hinside
      | simp [Scanner.step, hadvance, firstByte, plainByte, hquote, hcomma, hb]
  rw [hstep]
  exact h.advance.endRecord

/-- A byte that means nothing is copied. -/
theorem letter (h : At s phase field fields done) (hphase : phase ≠ .quoted)
    (hb : b ≠ Csv.comma ∧ ¬ isTerminator b) (hquote : phase ≠ .plain → b ≠ quote) :
    At (s.step b) .plain (field ++ [b]) fields done := by
  have hstep : s.step b = (s.advance b).copy b .plain := by
    have hadvance : (s.advance b).phase = phase := h.phase
    cases phase <;> first
      | exact absurd rfl hphase
      | simp [Scanner.step, hadvance, firstByte, plainByte, hquote, hb]
  rw [hstep]
  exact h.advance.copy .plain

theorem opened (h : At s phase field fields done)
    (hphase : phase = .outside ∨ phase = .fieldStart) :
    At (s.step quote) .quoted field fields done := by
  have hadvance : (s.advance quote).phase = phase := h.phase
  have hterminator : isTerminator quote = false := by decide
  have hstep : s.step quote = { s.advance quote with phase := .quoted } := by
    rcases hphase with rfl | rfl <;> simp [Scanner.step, hadvance, firstByte, hterminator]
  rw [hstep]
  exact ⟨rfl, h.field, h.fields, h.done⟩

theorem within (h : At s .quoted field fields done) (hb : b ≠ quote) :
    At (s.step b) .quoted (field ++ [b]) fields done := by
  have hstep : s.step b = (s.advance b).copy b .quoted := by
    have hadvance : (s.advance b).phase = .quoted := h.phase
    simp [Scanner.step, hadvance, hb]
  rw [hstep]
  exact h.advance.copy .quoted

theorem closed (h : At s .quoted field fields done) :
    At (s.step quote) .quoteSeen field fields done := by
  have hstep : s.step quote = { s.advance quote with phase := .quoteSeen } := by
    have hadvance : (s.advance quote).phase = .quoted := h.phase
    simp [Scanner.step, hadvance]
  rw [hstep]
  exact ⟨rfl, h.field, h.fields, h.done⟩

theorem doubled (h : At s .quoteSeen field fields done) :
    At (s.step quote) .quoted (field ++ [quote]) fields done := by
  have hstep : s.step quote = (s.advance quote).copy quote .quoted := by
    have hadvance : (s.advance quote).phase = .quoteSeen := h.phase
    simp [Scanner.step, hadvance]
  rw [hstep]
  exact h.advance.copy .quoted

theorem skip (h : At s .outside field fields done) (hb : isTerminator b) :
    At (s.step b) .outside field fields done := by
  have hadvance : (s.advance b).phase = .outside := h.phase
  simp only [Scanner.step, hadvance, hb, if_true]
  exact h.advance

theorem finish (h : At s phase field fields done) (hinside : phase ≠ .outside) :
    s.finish.map Record.fields = done ++ [fields ++ [field]] := by
  have hphase := h.phase
  have hdone := h.endRecord.done
  unfold Scanner.finish
  split
  · exact absurd (hphase.symm.trans ‹_›) hinside
  · rw [List.map_reverse, hdone, List.reverse_reverse]

theorem finish_outside (h : At s .outside field fields done) :
    s.finish.map Record.fields = done := by
  simp only [Scanner.finish, h.phase]
  rw [List.map_reverse, h.done, List.reverse_reverse]

/-! ### Fields, lines and tables -/

theorem letters {bytes : List UInt8} (hfree : ∀ b ∈ bytes, b ≠ Csv.comma ∧ ¬ isTerminator b) :
    ∀ {s : Scanner} {field : List UInt8}, At s .plain field fields done →
      At (bytes.foldl Scanner.step s) .plain (field ++ bytes) fields done := by
  induction bytes with
  | nil => simp
  | cons b bytes ih =>
    intro s field h
    obtain ⟨hb, hbytes⟩ := List.forall_mem_cons.mp hfree
    have hrun := ih hbytes (h.letter (by decide) hb (absurd rfl))
    rwa [List.append_assoc, List.singleton_append] at hrun

theorem escaped (bytes : List UInt8) :
    ∀ {s : Scanner} {field : List UInt8}, At s .quoted field fields done →
      At ((Cell.escape bytes).foldl Scanner.step s) .quoted (field ++ bytes) fields done := by
  induction bytes with
  | nil => simp [Cell.escape]
  | cons b bytes ih =>
    intro s field h
    have hescape : Cell.escape (b :: bytes) =
        (if b = quote then [quote, quote] else [b]) ++ Cell.escape bytes := List.flatMap_cons
    rw [hescape, List.foldl_append, List.append_cons field b bytes]
    apply ih
    split_ifs with hb
    · rw [hb]
      exact h.closed.doubled
    · exact h.within hb

/-- After a field, the machine holds what it says and waits for a byte that ends it. -/
theorem cell (c : Cell) (h : At s phase [] fields done)
    (hstart : phase = .outside ∨ phase = .fieldStart) :
    ∃ next, At (c.bytes.foldl Scanner.step s) next c.content fields done ∧ next ≠ .quoted ∧
      (next = .outside → phase = .outside ∧ c.bytes = []) := by
  have hphase : phase ≠ .quoted := by rcases hstart with rfl | rfl <;> decide
  cases c with
  | plain bytes hfree hbare =>
    cases bytes with
    | nil => exact ⟨phase, h, hphase, fun ho => ⟨ho, rfl⟩⟩
    | cons b bytes =>
      obtain ⟨hb, hbytes⟩ := List.forall_mem_cons.mp hfree
      have hquote : b ≠ quote := fun he => hbare (congrArg some he)
      exact ⟨.plain, letters hbytes (h.letter hphase hb fun _ => hquote), by decide, nofun⟩
  | quoted bytes =>
    refine ⟨.quoteSeen, ?_, by decide, nofun⟩
    rw [Cell.bytes, List.foldl_cons, List.foldl_append]
    exact (escaped bytes (h.opened hstart)).closed

/-- After the fields that follow one, the machine holds the last and has read those before it. -/
theorem cells (cs : List Cell) :
    ∀ {s : Scanner} {phase : Phase} {field : List UInt8} {fields : List (List UInt8)},
      At s phase field fields done → phase ≠ .quoted →
      ∃ next last init, At ((cellBytes cs).foldl Scanner.step s) next last init done ∧
        init ++ [last] = fields ++ field :: cs.map Cell.content ∧ next ≠ .quoted ∧
        (next = .outside → phase = .outside ∧ cellBytes cs = []) := by
  induction cs with
  | nil =>
    intro s phase field fields h hphase
    exact ⟨phase, field, fields, h, rfl, hphase, fun ho => ⟨ho, rfl⟩⟩
  | cons c cs ih =>
    intro s phase field fields h hphase
    obtain ⟨_, hcell, hquoted, houtside⟩ := (h.comma hphase).cell c (.inr rfl)
    obtain ⟨next, last, init, hcells, heq, hnext, hout⟩ := ih hcell hquoted
    refine ⟨next, last, init, ?_, ?_, hnext, fun ho => ?_⟩
    · rw [cellBytes, List.flatMap_cons, List.foldl_append]
      exact hcells
    · rw [heq, List.append_assoc]
      rfl
    · cases (houtside (hout ho).1).1

theorem line (l : Line) (h : At s .outside [] [] done) :
    ∃ next last init, At (l.bytes.foldl Scanner.step s) next last init done ∧
      init ++ [last] = l.fields ∧ next ≠ .quoted ∧ next ≠ .outside := by
  obtain ⟨_, hfirst, hquoted, hempty⟩ := h.cell l.first (.inl rfl)
  obtain ⟨next, last, init, hcells, heq, hnext, hout⟩ := hfirst.cells l.others hquoted
  refine ⟨next, last, init, ?_, heq, hnext, fun ho => l.visible ?_⟩
  · rwa [Line.bytes, List.foldl_append]
  · rw [(hempty (hout ho).1).2, (hout ho).2]
    rfl

theorem blank {bytes : List UInt8} (hbytes : ∀ b ∈ bytes, isTerminator b) :
    ∀ {s : Scanner}, At s .outside field fields done →
      At (bytes.foldl Scanner.step s) .outside field fields done := by
  induction bytes with
  | nil => exact id
  | cons b bytes ih =>
    intro s h
    obtain ⟨hb, hbytes⟩ := List.forall_mem_cons.mp hbytes
    exact ih hbytes (h.skip hb)

theorem lineEnd (e : LineEnd) (h : At s phase field fields done) (hphase : phase ≠ .quoted)
    (hinside : phase ≠ .outside) :
    At (e.bytes.foldl Scanner.step s) .outside [] [] (done ++ [fields ++ [field]]) := by
  obtain ⟨bytes, hne, hterm⟩ := e
  cases bytes with
  | nil => exact absurd rfl hne
  | cons b bytes =>
    obtain ⟨hb, hbytes⟩ := List.forall_mem_cons.mp hterm
    exact blank hbytes (h.terminator hphase hinside hb)

theorem lines (ls : List (Line × LineEnd)) :
    ∀ {s : Scanner} {done : List (List (List UInt8))}, At s .outside [] [] done →
      At ((lineBytes ls).foldl Scanner.step s) .outside [] []
        (done ++ ls.map fun (l, _) => l.fields) := by
  induction ls with
  | nil => simp [lineBytes]
  | cons le ls ih =>
    intro s done h
    obtain ⟨l, e⟩ := le
    obtain ⟨_, last, init, hline, heq, hquoted, hinside⟩ := h.line l
    have hrest := ih (hline.lineEnd e hquoted hinside)
    rw [heq, List.append_assoc] at hrest
    rw [lineBytes, List.flatMap_cons, List.foldl_append, List.foldl_append]
    exact hrest

end At

/-- The machine reads a table's lines, wherever the table begins. -/
theorem scan_text (t : Table) (offset : ℕ) :
    (scan offset t.text).map Record.fields = t.lines.map Line.fields := by
  have hlines := ((At.init offset).blank t.blank_terminators).lines t.ended
  rw [scan, Table.text, List.foldl_append, List.foldl_append, Table.lines, List.map_append,
    List.map_map]
  cases t.last with
  | none =>
    rw [Option.map_none, Option.getD_none, List.foldl_nil, hlines.finish_outside]
    simp [Function.comp_def]
  | some l =>
    obtain ⟨_, last, init, hline, heq, -, hinside⟩ := hlines.line l
    rw [Option.map_some, Option.getD_some, hline.finish hinside, heq]
    rfl

end Scanner

/-- **The records of a table are its lines.** -/
theorem records_bytes {t : Table} {bytes : List UInt8} (h : t.Written bytes) :
    (records bytes).map Record.fields = t.lines.map Line.fields := by
  cases h with
  | marked =>
    have hmark : byteOrderMark.isPrefixOf (byteOrderMark ++ t.text) :=
      List.isPrefixOf_iff_prefix.mpr (List.prefix_append _ _)
    rw [records, if_pos hmark, List.drop_left, Scanner.scan_text]
  | unmarked h =>
    rw [records, if_neg (mt List.isPrefixOf_iff_prefix.mp h), Scanner.scan_text]

end RunningStats.Csv
