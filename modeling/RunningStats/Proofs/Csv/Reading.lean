import RunningStats.Proofs.Csv.Rendering
import RunningStats.Proofs.Text

/-!
# What is known of a reader

A sample is read by a library that is no part of this one. `Reader.Documented` collects what is
relied on, stage by stage, for a reader that is set up for a header and trims all fields:

* `header`: the texts of the first line name the columns;
* `rows`: every other line is a record, readable if it has as many fields as the first line and all
  of them are texts;
* `numbers`: in a record the columns are found by their names. Of the columns of a wanted name there
  may be one, whose text must be that of a number (`Found`); other columns do not matter.

Lines and fields are as `Table` writes them, between quotes or not, and a field says a text if
that is what remains of it without the blanks on both sides (`Says`). Of a table whose first line is
not text nothing is assumed.

**`reader_documented`**: the reader of this library is such a one.
-/

namespace RunningStats.Csv

open Text

/-- The elements of a list under the columns of a name. -/
def under {β : Type} (name : String) (names : List String) (xs : List β) : List β :=
  (names.zip xs).filterMap fun (column, x) => if column = name then some x else none

/-- A record is readable if it has a number of fields and all of them are texts, and then it has
these texts. -/
def RowOf {ε : Type} (width : ℕ) (fields : List (List UInt8)) (r : Except ε Row) : Prop :=
  ∀ texts, r.map Row.texts = .ok texts ↔ fields.length = width ∧ List.Forall₂ Says fields texts

variable {α : Type} [Patterned α]

/-- What the texts under the columns of a name add to what was found before: the number that the
only one says, where nothing was. -/
inductive Found : List String → Option α → Option α → Prop where
  | none {x : Option α} : Found [] x x
  | one {text : String} {x : α} (h : Decimal.readNumber α text.toList = .ok x) :
    Found [text] none (some x)

/-- What is relied on of a reader. -/
structure Reader.Documented {ε : Type} (reader : Reader α ε) : Prop where
  header : ∀ {t : Table} {bytes : List UInt8} {first : Line} {rest : List Line}
    {names : List String}, t.Written bytes → t.lines = first :: rest →
      List.Forall₂ Says first.fields names →
        reader.header { headed := true, trim := .all } bytes = some names
  rows : ∀ {t : Table} {bytes : List UInt8} (width : ℕ), t.Written bytes →
    (∀ first ∈ t.lines.head?, first.fields.length = width) →
      List.Forall₂ (RowOf width) (t.lines.tail.map Line.fields)
        (reader.rows { headed := true, trim := .all } bytes)
  numbers : ∀ {wanted names : List String} {r : Row} {number : String → Option α},
    r.texts.length = names.length →
      (reader.numbers wanted (some names) r = .ok number ↔
        ∀ name, if name ∈ wanted then Found (under name names r.texts) none (number name)
          else number name = none)

/-! ## Texts -/

theorem fieldTexts_eq_ok_iff {position : Position} {fields : List (List UInt8)} :
    ∀ {i : ℕ} {texts : List String},
      fieldTexts true position i fields = .ok texts ↔ List.Forall₂ Says fields texts := by
  induction fields with
  | nil =>
    intro i texts
    simp [fieldTexts, eq_comm]
  | cons field fields ih =>
    intro i texts
    rw [List.forall₂_cons_left_iff]
    simp only [← fieldText_eq_ok_iff, ← ih (i := i + 1)]
    cases hfield : fieldText field with
    | error valid => simp [fieldTexts, hfield]
    | ok text =>
      cases hfields : fieldTexts true position (i + 1) fields <;>
        simp [fieldTexts, hfield, hfields, Except.map, eq_comm]

theorem rowOf_row (width : ℕ) (r : Record) : RowOf width r.fields (row true width r) := by
  intro texts
  rw [row, ← @fieldTexts_eq_ok_iff r.position r.fields 0]
  by_cases hwidth : r.fields.length = width
  · cases fieldTexts true r.position 0 r.fields <;> simp [hwidth, Except.map]
  · simp [hwidth, Except.map]

/-! ## Numbers by the names of their columns -/

@[simp] theorem under_nil {β : Type} (name : String) (xs : List β) : under name [] xs = [] := rfl

@[simp] theorem under_cons {β : Type} (name column : String) (names : List String) (x : β)
    (xs : List β) : under name (column :: names) (x :: xs) =
      if column = name then x :: under name names xs else under name names xs := by
  by_cases h : column = name <;> simp [under, h]

theorem found_nil_iff {before after : Option α} : Found [] before after ↔ after = before := by
  constructor
  · rintro ⟨⟩
    rfl
  · rintro rfl
    exact .none

theorem found_cons_iff {text : String} {texts : List String} {before after : Option α} :
    Found (text :: texts) before after ↔ before = none ∧
      ∃ x, Decimal.readNumber α text.toList = .ok x ∧ Found texts (some x) after := by
  constructor
  · rintro (_ | h)
    exact ⟨rfl, _, h, .none⟩
  · rintro ⟨rfl, x, h, ⟨⟩⟩
    exact .one h

/-- **Going through the fields of a record** finds what the ones in the wanted columns say,
whichever way the columns stand. -/
theorem collect_eq_ok_iff {wanted : List String} {position : Position} {names : List String} :
    ∀ {texts : List String} {i : ℕ} {before after : String → Option α},
      texts.length = names.length →
        (collect wanted position i (names.zip texts) before = .ok after ↔
          ∀ name, if name ∈ wanted then Found (under name names texts) (before name) (after name)
            else after name = before name) := by
  induction names with
  | nil =>
    intro texts i before after _
    simp [collect, found_nil_iff, funext_iff, eq_comm]
  | cons column names ih =>
    intro texts i before after hlength
    obtain _ | ⟨text, texts⟩ := texts
    · cases hlength
    have hrest : texts.length = names.length := Nat.succ.inj hlength
    rw [List.zip_cons_cons, collect]
    by_cases hwanted : column ∈ wanted
    · rw [if_neg (not_not_intro hwanted)]
      -- all that is said of the column itself is in the instance at its name
      have hcolumn (h : ∀ name, if name ∈ wanted then
          Found (under name (column :: names) (text :: texts)) (before name) (after name)
            else after name = before name) :
          before column = none ∧ ∃ x, Decimal.readNumber α text.toList = .ok x ∧
            Found (under column names texts) (some x) (after column) := by
        simpa [hwanted, found_cons_iff] using h column
      cases hbefore : before column with
      | some x =>
        rw [Option.isSome_some, if_pos rfl]
        refine ⟨nofun, fun h => ?_⟩
        rw [hbefore] at hcolumn
        cases (hcolumn h).1
      | none =>
        rw [Option.isSome_none, if_neg Bool.false_ne_true, number]
        cases hread : Decimal.readNumber α text.toList with
        | error cause =>
          refine ⟨nofun, fun h => ?_⟩
          obtain ⟨-, x, hx, -⟩ := hcolumn h
          rw [hread] at hx
          cases hx
        | ok x =>
          refine (ih hrest).trans (forall_congr' fun name => ?_)
          by_cases hname : column = name
          · subst hname
            simp [hwanted, hbefore, found_cons_iff, hread]
          · simp [hname, Ne.symm hname]
    · rw [if_pos hwanted]
      refine (ih hrest).trans (forall_congr' fun name => ?_)
      by_cases hname : column = name
      · subst hname
        simp [hwanted]
      · simp [hname]

/-! ## The reader of this library -/

/-- **The reader of this library is as documented.** -/
theorem reader_documented : (reader : Reader α Fault).Documented where
  header {t bytes first rest names} hwritten hlines hnames := by
    have hrecords := records_bytes hwritten
    rw [hlines] at hrecords
    obtain ⟨head, tail, hread, hhead, -⟩ := List.map_eq_cons_iff.mp hrecords
    rw [← hhead] at hnames
    simp [reader, header, hread, Trim.ofHeader, fieldTexts_eq_ok_iff.mpr hnames, Except.toOption]
  rows {t bytes} width hwritten hwidth := by
    have hrecords := records_bytes hwritten
    simp only [reader, rows]
    rcases hread : records bytes with _ | ⟨head, tail⟩
    · rw [hread, List.map_nil, eq_comm, List.map_eq_nil_iff] at hrecords
      simp [hrecords]
    · rw [hread, eq_comm, List.map_cons, List.map_eq_cons_iff] at hrecords
      obtain ⟨first, rest, hlines, hfirst, hrest⟩ := hrecords
      rw [hlines] at hwidth ⊢
      rw [← hwidth first rfl, hfirst, List.tail_cons, hrest, List.forall₂_map_left_iff]
      simpa [Trim.ofFields, List.forall₂_map_right_iff, List.forall₂_same]
        using fun r _ => rowOf_row head.fields.length r
  numbers {wanted names r number} hlength := collect_eq_ok_iff hlength

end RunningStats.Csv
