import RunningStats.Proofs.Csv.Reading
import RunningStats.Sample.Load

/-!
# A sample is what its file records

A table under a header gives a sample if every one of its records is an observation, and then it
gives those observations in order. One record that is none makes the whole file unreadable. This is
so with every reader that is as documented (`Csv.Reader.Documented`).

* `Recorded` says when a record is that of an observation: it has as many fields as the header, all
  of them texts, one that reads as the value, and one that reads as the weight if there is a column
  of weights. `Malformed` says when it is that of none.
* `ofRow_eq_ok_iff`: a record gives an observation if it is `Recorded`.
* **`Sample.read_table`**: a table is read as the sample of its records or not at all.
-/

namespace RunningStats

open Text

namespace Csv

/-! ## Records of observations -/

theorem Says.unique {field : List UInt8} {text text' : String} (h : Says field text)
    (h' : Says field text') : text = text' :=
  Except.ok.inj ((fieldText_eq_ok_iff.mpr h).symm.trans (fieldText_eq_ok_iff.mpr h'))

theorem exists_texts_iff {fields : List (List UInt8)} :
    (∃ texts, List.Forall₂ Says fields texts) ↔ ∀ field ∈ fields, ∃ text, Says field text := by
  induction fields with
  | nil => simp
  | cons field fields ih =>
    rw [List.forall_mem_cons, ← ih]
    constructor
    · rintro ⟨_, _ | ⟨hfield, hfields⟩⟩
      exact ⟨⟨_, hfield⟩, _, hfields⟩
    · rintro ⟨⟨text, htext⟩, texts, htexts⟩
      exact ⟨text :: texts, .cons htext htexts⟩

theorem forall₂_under {β γ : Type} {r : β → γ → Prop} (name : String) (names : List String)
    {xs : List β} {ys : List γ} (h : List.Forall₂ r xs ys) :
    List.Forall₂ r (under name names xs) (under name names ys) := by
  induction names generalizing xs ys with
  | nil => exact .nil
  | cons column names ih =>
    cases h with
    | nil => exact .nil
    | cons h hs =>
      by_cases hname : column = name
      · simpa [hname] using ⟨h, ih hs⟩
      · simpa [hname] using ih hs

variable {α : Type} [Patterned α]

/-- The text of a field is that of a number. -/
def Gives (field : List UInt8) (x : α) : Prop :=
  ∃ text, Says field text ∧ Decimal.readNumber α text.toList = .ok x

/-- Blanks are no number: a weight that is left empty does not stand for one. -/
theorem not_gives_of_blank {field : List UInt8} (h : Says field "") (x : α) : ¬ Gives field x := by
  rintro ⟨text, htext, hread⟩
  rw [htext.unique h] at hread
  cases hread

theorem found_some_iff {fields : List (List UInt8)} {texts : List String} {x : α}
    (h : List.Forall₂ Says fields texts) :
    Found texts none (some x) ↔ ∃ field, fields = [field] ∧ Gives field x := by
  constructor
  · rintro (_ | hread)
    obtain ⟨field, rest, hfield, hrest, rfl⟩ := List.forall₂_cons_right_iff.mp h
    cases hrest
    exact ⟨field, rfl, _, hfield, hread⟩
  · rintro ⟨field, rfl, text', htext', hread⟩
    obtain ⟨text, rest, htext, hrest, rfl⟩ := List.forall₂_cons_left_iff.mp h
    cases hrest
    rw [htext.unique htext']
    exact .one hread

theorem found_none_iff {fields : List (List UInt8)} {texts : List String}
    (h : List.Forall₂ Says fields texts) :
    Found (α := α) texts none none ↔ fields = [] := by
  constructor
  · rintro ⟨⟩
    exact List.forall₂_nil_right_iff.mp h
  · rintro rfl
    rw [List.forall₂_nil_left_iff.mp h]
    exact .none

/-- A record under the names of its columns is that of an observation. -/
structure Recorded [Scalar α] (names : List String) (fields : List (List UInt8))
    (o : Observation α) : Prop where
  length : fields.length = names.length
  texts : ∀ field ∈ fields, ∃ text, Says field text
  value : ∃ field, under "value" names fields = [field] ∧ Gives field o.value
  weight : (under "weight" names fields = [] ∧ o.weight = 1) ∨
    ∃ field, under "weight" names fields = [field] ∧ Gives field o.weight

/-- A record is that of no observation: it has another number of fields than there are columns, a
field that is no text, or a value or a weight that is no number. -/
def Malformed (α : Type) [Patterned α] (names : List String) (fields : List (List UInt8)) : Prop :=
  fields.length ≠ names.length ∨ (∃ field ∈ fields, ∀ text, ¬ Says field text) ∨
    ∃ field ∈ under "value" names fields ++ under "weight" names fields, ∀ x : α, ¬ Gives field x

theorem Recorded.not_malformed [Scalar α] {names : List String} {fields : List (List UInt8)}
    {o : Observation α} (h : Recorded names fields o) : ¬ Malformed α names fields := by
  rintro (hlength | ⟨field, hfield, hspelled⟩ | ⟨field, hfield, hgives⟩)
  · exact hlength h.length
  · obtain ⟨text, htext⟩ := h.texts field hfield
    exact hspelled text htext
  · obtain ⟨value, hvalue, hv⟩ := h.value
    rcases h.weight with ⟨hnone, -⟩ | ⟨weight, hweight, hw⟩
    · rw [hvalue, hnone, List.append_nil, List.mem_singleton] at hfield
      exact hgives o.value (hfield ▸ hv)
    · rw [hvalue, hweight, List.singleton_append, List.mem_pair] at hfield
      rcases hfield with rfl | rfl
      · exact hgives o.value hv
      · exact hgives o.weight hw

end Csv

/-! ## Reading them -/

open Csv

variable {α ε : Type} {reader : Csv.Reader α ε}

/-- An observation is made of the two numbers that a record has under its names. -/
theorem Observation.ofRow_eq_ok [Scalar α] {header : Option (List String)} {r : Row}
    {o : Observation α} : Observation.ofRow reader header (.ok r) = .ok o ↔
      ∃ number, reader.numbers ["value", "weight"] header r = .ok number ∧
        number "value" = some o.value ∧ (number "weight").getD 1 = o.weight := by
  obtain ⟨x, w⟩ := o
  rw [ofRow]
  cases hnumbers : reader.numbers ["value", "weight"] header r with
  | error e => simp [bind, Except.bind, hnumbers]
  | ok number => cases hvalue : number "value" <;> simp [bind, Except.bind, hnumbers, hvalue]

section Documented

variable [Patterned α] (hreader : reader.Documented)
include hreader

/-- What is found in a record whose fields are texts. -/
theorem Csv.Reader.Documented.numbers_eq_ok {names : List String} {r : Row}
    (hlength : r.texts.length = names.length) {value weight : Option α} :
    (∃ number, reader.numbers ["value", "weight"] (some names) r = .ok number ∧
        number "value" = value ∧ number "weight" = weight) ↔
      Found (under "value" names r.texts) none value ∧
        Found (under "weight" names r.texts) none weight := by
  simp only [hreader.numbers hlength]
  constructor
  · rintro ⟨number, hnumber, rfl, rfl⟩
    exact ⟨by simpa using hnumber "value", by simpa using hnumber "weight"⟩
  · rintro ⟨hvalue, hweight⟩
    refine ⟨fun name => if name = "value" then value else if name = "weight" then weight else none,
      fun name => ?_, by simp, by simp⟩
    by_cases hv : name = "value"
    · simpa [hv] using hvalue
    · by_cases hw : name = "weight" <;> simp [hv, hw, hweight]

/-- **A record gives the observation that it records**, and fails where there is none. -/
theorem Observation.ofRow_eq_ok_iff [Scalar α] {names : List String} {fields : List (List UInt8)}
    {r : Except ε Row} (hr : RowOf names.length fields r) (o : Observation α) :
    Observation.ofRow reader (some names) r = .ok o ↔ Recorded names fields o := by
  cases r with
  | error e =>
    refine ⟨nofun, fun h => ?_⟩
    obtain ⟨texts, htexts⟩ := exists_texts_iff.mpr h.texts
    cases (hr texts).mpr ⟨h.length, htexts⟩
  | ok r =>
    obtain ⟨hlength, hspelled⟩ := (hr r.texts).mp rfl
    have htexts : r.texts.length = names.length := hspelled.length_eq.symm.trans hlength
    have hunder (name : String) := forall₂_under name names hspelled
    refine ofRow_eq_ok.trans ⟨?_, ?_⟩
    · rintro ⟨number, hnumber, hvalue, hweight⟩
      obtain ⟨hv, hw⟩ := (hreader.numbers_eq_ok htexts).mp ⟨number, hnumber, hvalue, rfl⟩
      refine ⟨hlength, exists_texts_iff.mp ⟨_, hspelled⟩, (found_some_iff (hunder _)).mp hv, ?_⟩
      cases hn : number "weight" with
      | none =>
        rw [hn] at hw hweight
        exact .inl ⟨(found_none_iff (hunder _)).mp hw, hweight.symm⟩
      | some w =>
        rw [hn] at hw hweight
        cases hweight
        exact .inr ((found_some_iff (hunder _)).mp hw)
    · rintro ⟨-, -, hvalue, hweight⟩
      have hv := (found_some_iff (hunder _)).mpr hvalue
      obtain ⟨w, hw, hone⟩ : ∃ w, Found (under "weight" names r.texts) none w ∧
          w.getD 1 = o.weight := by
        rcases hweight with ⟨hnone, hone⟩ | hsome
        · exact ⟨none, (found_none_iff (hunder _)).mpr hnone, hone.symm⟩
        · exact ⟨some o.weight, (found_some_iff (hunder _)).mpr hsome, rfl⟩
      obtain ⟨number, hnumber, hvalue, rfl⟩ := (hreader.numbers_eq_ok htexts).mpr ⟨hv, hw⟩
      exact ⟨number, hnumber, hvalue, hone⟩

end Documented

/-- A list is gone through without a fault if every element is. -/
theorem mapM_eq_ok_iff {β γ ε : Type} {f : β → Except ε γ} {xs : List β} {ys : List γ} :
    xs.mapM f = .ok ys ↔ List.Forall₂ (fun x y => f x = .ok y) xs ys := by
  induction xs generalizing ys with
  | nil => simp [pure, Except.pure, eq_comm]
  | cons x xs ih =>
    rw [List.forall₂_cons_left_iff, List.mapM_cons]
    simp only [← ih]
    cases hx : f x with
    | error e => simp [bind, Except.bind]
    | ok y =>
      cases hxs : xs.mapM f <;> simp [bind, Except.bind, pure, Except.pure, eq_comm]

/-- Lists that correspond are related to the same lists if their elements are to the same. -/
theorem forall₂_congr_left {β γ δ : Type} {p : β → γ → Prop} {r : γ → δ → Prop} {s : β → δ → Prop}
    (hrs : ∀ x y, p x y → ∀ z, r y z ↔ s x z) {xs : List β} {ys : List γ}
    (h : List.Forall₂ p xs ys) (zs : List δ) : List.Forall₂ r ys zs ↔ List.Forall₂ s xs zs := by
  induction h generalizing zs with
  | nil => simp
  | cons hxy _ ih => simp only [List.forall₂_cons_left_iff, hrs _ _ hxy, ih]

/-! ## The sample of a table -/

namespace Sample

variable [Scalar α] {bytes : List UInt8}

theorem read_eq_ok_iff {os : List (Observation α)} :
    Sample.read reader (some bytes) = .ok ⟨os⟩ ↔ os ≠ [] ∧
      (reader.rows setup bytes).mapM (Observation.ofRow reader (reader.header setup bytes)) =
        .ok os := by
  rw [Sample.read]
  cases (reader.rows setup bytes).mapM (Observation.ofRow reader (reader.header setup bytes)) with
  | error cause => simp
  | ok os' => cases os' <;> simp +contextual [eq_comm]

/-- **A sample is what its file records, or there is none**, with every reader that is as
documented. Under a header that names its columns, a table is read as some observations just if its
other lines are their records, one after the other; if one of them is no record of any, the file is
unreadable. Without other lines there is no sample. -/
theorem read_table [Patterned α] (hreader : reader.Documented) {t : Csv.Table}
    (hwritten : t.Written bytes) :
    (t.lines.tail = [] → Sample.read reader (some bytes) = .error .noRecords) ∧
      ∀ header rest, t.lines = header :: rest →
        ∀ names, List.Forall₂ Says header.fields names →
          (∀ os : List (Observation α), Sample.read reader (some bytes) = .ok ⟨os⟩ ↔
            os ≠ [] ∧ List.Forall₂ (Recorded names) (rest.map Line.fields) os) ∧
          ((∃ l ∈ rest, Malformed α names l.fields) →
            ∃ cause, Sample.read reader (some bytes) = .error (.csv cause)) := by
  refine ⟨fun htail => ?_, fun header rest hlines names hnames => ?_⟩
  · have hrows := hreader.rows ((t.lines.head?.map (·.fields.length)).getD 0) hwritten
      fun first hfirst => by simp [Option.mem_def.mp hfirst]
    rw [htail, List.map_nil, List.forall₂_nil_left_iff] at hrows
    simp only [Sample.read, setup, hrows]
    rfl
  · have hrows := hreader.rows names.length hwritten fun first hfirst => by
      rw [hlines] at hfirst
      obtain rfl := Option.some.inj hfirst
      exact hnames.length_eq
    rw [hlines, List.tail_cons] at hrows
    have hiff (os : List (Observation α)) :
        (reader.rows setup bytes).mapM (Observation.ofRow reader (reader.header setup bytes)) =
          .ok os ↔ List.Forall₂ (Recorded names) (rest.map Line.fields) os := by
      rw [mapM_eq_ok_iff, setup, hreader.header hwritten hlines hnames]
      exact forall₂_congr_left (p := RowOf names.length)
        (fun _ _ hr o => Observation.ofRow_eq_ok_iff hreader hr o) hrows os
    refine ⟨fun os => by rw [read_eq_ok_iff, hiff], fun ⟨l, hl, hmalformed⟩ => ?_⟩
    cases hread : (reader.rows setup bytes).mapM
        (Observation.ofRow reader (reader.header setup bytes)) with
    | error cause => exact ⟨cause, by simp only [Sample.read, hread]⟩
    | ok os =>
      have hgood := ((hiff os).mp hread).imp fun fields o (ho : Recorded names fields o) =>
        And.intro ho.not_malformed ho
      exact absurd hmalformed (((List.forall₂_and_left ..).mp hgood).1 _ (List.mem_map_of_mem hl))

/-- A marked file of two observations, with a further column before theirs, the weights first, and
a blank line between the records. -/
theorem read_table_permuted :
    let header : Line := ⟨
      .plain (Utf8.encode "note".toList) (by decide +kernel) (by decide +kernel),
      [.quoted (Utf8.encode " weight ".toList),
        .plain (Utf8.encode "value".toList) (by decide +kernel) (by decide +kernel)],
      by decide +kernel⟩
    let first : Line := ⟨
      .quoted (Utf8.encode "a, \"b\"".toList),
      [.plain (Utf8.encode " 2.5 ".toList) (by decide +kernel) (by decide +kernel),
        .plain (Utf8.encode "1.5e0".toList) (by decide +kernel) (by decide +kernel)],
      by decide +kernel⟩
    let second : Line := ⟨
      .plain [] (by decide +kernel) (by decide +kernel),
      [.quoted (Utf8.encode "3".toList),
        .plain (Utf8.encode "-2".toList) (by decide +kernel) (by decide +kernel)],
      by decide +kernel⟩
    let table : Csv.Table := ⟨
      [], by decide +kernel,
      [(header, ⟨[carriageReturn, lineFeed], by decide +kernel, by decide +kernel⟩),
        (first, ⟨[lineFeed, lineFeed], by decide +kernel, by decide +kernel⟩)],
      some second⟩
    let bytes := byteOrderMark ++ Utf8.encode
      "note,\" weight \",value\r\n\"a, \"\"b\"\"\", 2.5 ,1.5e0\n\n,\"3\",-2".toList
    (Csv.reader : Csv.Reader Float Csv.Fault).Documented ∧ table.Written bytes ∧
      (Sample.load (some bytes) : Except LoadFault (Sample Float)) = .ok ⟨[
        ⟨Patterned.ofPattern 0x3FF8000000000000, Patterned.ofPattern 0x4004000000000000⟩,
        ⟨Patterned.ofPattern 0xC000000000000000, Patterned.ofPattern 0x4008000000000000⟩]⟩ := by
  intro header first second table bytes
  have hwritten : table.Written bytes := by
    have hbytes : bytes = byteOrderMark ++ table.text := by decide +kernel
    rw [hbytes]
    exact .marked
  have hspelled {field : List UInt8} {text : String} (h : fieldText field = .ok text) :
      Says field text := fieldText_eq_ok_iff.mp h
  have hgives {field : List UInt8} (text : String) (l : Decimal.Literal) {n : ℕ}
      (h : fieldText field = .ok text) (hread : Decimal.Literal.read text.toList = .ok l)
      (hn : Decimal.ofLiteral Binary.binary64 l = n) :
      Gives field (Patterned.ofPattern n : Float) :=
    ⟨text, hspelled h, by rw [Decimal.readNumber, hread, ← hn]; rfl⟩
  have hnames : List.Forall₂ Says header.fields ["note", "weight", "value"] :=
    .cons (hspelled (by decide +kernel)) (.cons (hspelled (by decide +kernel))
      (.cons (hspelled (by decide +kernel)) .nil))
  have hfirst : Recorded ["note", "weight", "value"] first.fields
      (⟨Patterned.ofPattern 0x3FF8000000000000, Patterned.ofPattern 0x4004000000000000⟩ :
        Observation Float) :=
    { length := rfl
      texts := exists_texts_iff.mp ⟨["a, \"b\"", "2.5", "1.5e0"],
        .cons (hspelled (by decide +kernel)) (.cons (hspelled (by decide +kernel))
          (.cons (hspelled (by decide +kernel)) .nil))⟩
      value := ⟨_, rfl, hgives "1.5e0" (.finite false 15 (-1)) (by decide +kernel)
        (by decide +kernel) (by decide +kernel)⟩
      weight := .inr ⟨_, rfl, hgives "2.5" (.finite false 25 (-1)) (by decide +kernel)
        (by decide +kernel) (by decide +kernel)⟩ }
  have hsecond : Recorded ["note", "weight", "value"] second.fields
      (⟨Patterned.ofPattern 0xC000000000000000, Patterned.ofPattern 0x4008000000000000⟩ :
        Observation Float) :=
    { length := rfl
      texts := exists_texts_iff.mp ⟨["", "3", "-2"],
        .cons (hspelled (by decide +kernel)) (.cons (hspelled (by decide +kernel))
          (.cons (hspelled (by decide +kernel)) .nil))⟩
      value := ⟨_, rfl, hgives "-2" (.finite true 2 0) (by decide +kernel)
        (by decide +kernel) (by decide +kernel)⟩
      weight := .inr ⟨_, rfl, hgives "3" (.finite false 3 0) (by decide +kernel)
        (by decide +kernel) (by decide +kernel)⟩ }
  have hreader : (Csv.reader : Csv.Reader Float Csv.Fault).Documented := reader_documented
  exact ⟨hreader, hwritten,
    (((read_table hreader hwritten).2 header [first, second] rfl _ hnames).1 _).mpr
      ⟨List.cons_ne_nil _ _, .cons hfirst (.cons hsecond .nil)⟩⟩

end Sample

end RunningStats
