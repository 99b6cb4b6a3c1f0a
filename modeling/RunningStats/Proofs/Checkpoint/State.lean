import RunningStats.Checkpoint.State
import RunningStats.Proofs.Checkpoint.Pattern

/-!
# Checkpoints are lossless and strict

Records are written and found again by a format that is no part of this library.
`RecordFormat.Documented` collects what is relied on: a record is written as an object of its
fields, in whatever order; in an object of distinct fields each wanted one is found by its name; and
a single value is no record. What becomes of an object with two fields of one name, and of a list
that stands for a record, is left open (`Document.Ordinary`).

The documents of a type are described by a list of fields (`Slot`): the name of each, the documents
that are of its kind, and those that hold the part of a given state. `Faithful` says that the type
is saved and loaded by its fields, no more and no less:

* `reads`: a document is that of a state if every field of the state is in it under its name;
* `accepts`: it is that of some state if every field is there and of its kind;
* `lossless`: what was saved is loaded as it was;
* `unordered`: objects with the same documents under the names of the fields are loaded alike, in
  whatever order and among whatever other fields these stand.

**`faithful_sum`**, **`faithful_moments`**, **`faithful_summary`** and **`faithful_interval`** say
so of every state there is, also of those that no stream of observations leads to, in every format
that is as documented. Observations are only loaded: `Observation.ofDocument_eq_some_iff` says
from what, and when the weight is one without being read.
-/

namespace RunningStats

open Document Stored

/-! ## Objects and formats -/

namespace Document

/-- A document is an object with a field of a name, and what stands in it satisfies a condition. -/
def Has (d : Document) (name : String) (p : Document → Prop) : Prop :=
  ∃ given, d = object given ∧ ∃ v, (name, v) ∈ given ∧ p v

@[simp] theorem has_object {given : List (String × Document)} {name : String}
    {p : Document → Prop} : (object given).Has name p ↔ ∃ v, (name, v) ∈ given ∧ p v := by
  simp [Has]

/-- No two fields have one name. -/
def Distinct (fields : List (String × Document)) : Prop := (fields.map Prod.fst).Nodup

/-- An object without two fields of one name, or a single value. -/
def Ordinary : Document → Prop
  | object given => Distinct given
  | list _ => False
  | _ => True

theorem lookup_eq_some_iff {fields : List (String × Document)} (h : Distinct fields)
    {name : String} {v : Document} : fields.lookup name = some v ↔ (name, v) ∈ fields := by
  induction fields with
  | nil => simp
  | cons f fields ih =>
    obtain ⟨hf, hfields⟩ : f.1 ∉ fields.map Prod.fst ∧ Distinct fields := List.nodup_cons.mp h
    rw [List.lookup_cons, List.mem_cons]
    by_cases hname : name = f.1
    · have hnot : (name, v) ∉ fields := fun hmem => hf (hname ▸ List.mem_map_of_mem hmem)
      rw [beq_iff_eq.mpr hname]
      simp [Prod.ext_iff, hname, hname ▸ hnot, eq_comm]
    · rw [beq_eq_false_iff_ne.mpr hname]
      simp [Prod.ext_iff, hname, ih hfields]

/-- Objects agree on a name if they have the same field of it, or both have none. -/
def Agree (fields fields' : List (String × Document)) (name : String) : Prop :=
  ∀ v, (name, v) ∈ fields ↔ (name, v) ∈ fields'

end Document

namespace RecordFormat

/-- What is relied on of a format. -/
structure Documented (format : RecordFormat) : Prop where
  writes : ∀ fields, Distinct fields →
    ∃ given, format.write fields = object given ∧ given.Perm fields
  finds : ∀ wanted given, Distinct given →
    ∃ field, format.fields wanted (object given) = some field ∧
      ∀ name ∈ wanted, ∀ v, field name = some v ↔ (name, v) ∈ given
  refuses : ∀ wanted d, (∀ given, d ≠ object given) → (∀ items, d ≠ list items) →
    format.fields wanted d = none

/-- **The plain format is as documented.** -/
theorem documented_plain : plain.Documented where
  writes fields _ := ⟨fields, rfl, .refl fields⟩
  finds wanted given hd := by
    have hone : ∀ name ∈ wanted, (given.filter fun field => field.1 = name).length ≤ 1 := by
      intro name _
      have hcount := List.nodup_iff_count_le_one.mp hd name
      rwa [List.count, List.countP_map, List.countP_eq_length_filter] at hcount
    exact ⟨_, if_pos hone, fun name _ v => lookup_eq_some_iff hd⟩
  refuses wanted d hobject _ := by
    cases d with
    | object given => exact absurd rfl (hobject given)
    | _ => rfl

end RecordFormat

/-! ## The kinds of documents -/

namespace Document

/-- The documents that numbers are read from. -/
def IsNumber (α : Type) [Patterned α] (d : Document) : Prop :=
  ∃ s, d = text s ∧ Pattern.IsNumeral α s

/-- The documents that counts are read from. -/
def IsCount (d : Document) : Prop := ∃ n : ℕ, n < 2 ^ 64 ∧ d = integer n

/-- Whether a text is read does not depend on what else the document could be. -/
theorem isSome_text?_bind {β : Type} {read : String → Option β} {d : Document} :
    (d.text?.bind read).isSome ↔ ∃ s, d = text s ∧ (read s).isSome := by
  cases d <;> simp [text?]

section

variable {α : Type} [Patterned α] [Wide α Float] {d : Document}

theorem isSome_number? : (d.number? : Option α).isSome ↔ IsNumber α d := by
  simp only [number?, isSome_text?_bind, Pattern.isSome_read, IsNumber]

/-- A number stands in a field just if one is read from it. -/
theorem has_isNumber {name : String} : d.Has name (IsNumber α) ↔
    ∃ x : α, d.Has name fun v => v.number? = some x := by
  simp only [Has, ← isSome_number?, Option.isSome_iff_exists]
  constructor
  · rintro ⟨given, rfl, v, hmem, x, hx⟩
    exact ⟨x, given, rfl, v, hmem, hx⟩
  · rintro ⟨x, given, rfl, v, hmem, hx⟩
    exact ⟨given, rfl, v, hmem, x, hx⟩

theorem isSome_readWide : (d.text?.bind (Pattern.readWide α)).isSome ↔ IsNumber α d := by
  simp only [isSome_text?_bind, Pattern.isSome_readWide, IsNumber]

end

/-- A count is read from its own document only. -/
theorem count?_eq_some_iff {d : Document} {n : UInt64} : d.count? = some n ↔ d = ofCount n := by
  constructor
  · intro h
    cases d with
    | integer m =>
      rw [count?] at h
      split_ifs at h with hm
      obtain ⟨k, rfl⟩ := Int.eq_ofNat_of_zero_le hm.1
      obtain rfl := Option.some.inj h
      rw [ofCount, Int.toNat_natCast, UInt64.toNat_ofNat_of_lt' (Int.ofNat_lt.mp hm.2)]
    | _ => cases h
  · rintro rfl
    have hn : (0 : ℤ) ≤ n.toNat ∧ (n.toNat : ℤ) < UInt64.size :=
      ⟨Int.natCast_nonneg _, Int.ofNat_lt.mpr n.toNat_lt⟩
    rw [ofCount, count?, if_pos hn, Int.toNat_natCast, UInt64.ofNat_toNat]

theorem isSome_count? {d : Document} : d.count?.isSome ↔ IsCount d := by
  simp only [Option.isSome_iff_exists, count?_eq_some_iff]
  constructor
  · rintro ⟨n, rfl⟩
    exact ⟨n.toNat, n.toNat_lt, rfl⟩
  · rintro ⟨n, hn, rfl⟩
    exact ⟨UInt64.ofNat n, by rw [ofCount, UInt64.toNat_ofNat_of_lt' hn]⟩

theorem number?_ofNumber {α : Type} [Scalar α] [RoundedScalar α] [Patterned α] [SpelledScalar α]
    [Wide α Float] (x : α) : (ofNumber x).number? = some x :=
  Pattern.read_write x

/-- **A number has one document** with a pattern of its own format. -/
theorem ofNumber_of_number? {α : Type} [Scalar α] [RoundedScalar α] [Patterned α] [SpelledScalar α]
    [Wide α Float] {s : String} {x : α} (hs : Pattern.IsPattern (Patterned.format α) s)
    (h : (text s).number? = some x) :
    ofNumber x = text (if Patterned.datum x = .nan then "nan" else s) := by
  obtain ⟨y, hy⟩ := Option.isSome_iff_exists.mp (Pattern.isSome_readOwn (α := α).mpr (.inr hs))
  have hread : Pattern.read s = some y := by
    rw [Pattern.read, hy]
    rfl
  obtain rfl : y = x := Option.some.inj (hread.symm.trans h)
  split_ifs with hnan
  · rw [ofNumber, Pattern.write, if_pos hnan]
  · rw [ofNumber, Pattern.write_of_readOwn hs hy hnan]

end Document

/-! ## Reading field by field -/

/-- A field of a name was found, and what stands in it satisfies a condition. -/
def Finds (field : String → Option Document) (name : String) (p : Document → Prop) : Prop :=
  ∃ v, field name = some v ∧ p v

section

variable {β γ : Type} {field : String → Option Document} {name : String}
  {read : Document → Option β} {rest : β → Option γ}

/-- A part is read from the field of its name, and then the rest. -/
theorem field_bind_eq_some_iff {y : γ} :
    (field name >>= fun v => read v >>= rest) = some y ↔
      ∃ x, Finds field name (fun v => read v = some x) ∧ rest x = some y := by
  simp only [Option.bind_eq_bind, Option.bind_eq_some_iff, Finds]
  constructor
  · rintro ⟨v, hv, x, hx, hy⟩
    exact ⟨x, ⟨v, hv, hx⟩, hy⟩
  · rintro ⟨x, ⟨v, hv, hx⟩, hy⟩
    exact ⟨v, hv, x, hx, hy⟩

/-- If the rest can be read or not whatever the part is, then both are judged apart. -/
theorem isSome_field_bind {p : Prop} (hrest : ∀ x, (rest x).isSome ↔ p) :
    (field name >>= fun v => read v >>= rest).isSome ↔
      Finds field name (fun v => (read v).isSome) ∧ p := by
  simp only [Option.isSome_iff_exists, field_bind_eq_some_iff, Finds] at hrest ⊢
  constructor
  · rintro ⟨y, x, ⟨v, hv, hx⟩, hy⟩
    exact ⟨⟨v, hv, x, hx⟩, (hrest x).mp ⟨y, hy⟩⟩
  · rintro ⟨⟨v, hv, x, hx⟩, hp⟩
    obtain ⟨y, hy⟩ := (hrest x).mpr hp
    exact ⟨y, x, ⟨v, hv, hx⟩, hy⟩

theorem finds_congr {p q : Document → Prop} (h : ∀ v, field name = some v → (p v ↔ q v)) :
    Finds field name p ↔ Finds field name q :=
  exists_congr fun v => and_congr_right (h v)

end

/-- A number is found where it was written. -/
theorem finds_ofNumber {α : Type} [Scalar α] [RoundedScalar α] [Patterned α] [SpelledScalar α]
    [Wide α Float] {field : String → Option Document} {name : String} {x : α}
    (h : field name = some (ofNumber x)) :
    Finds field name fun v => v.number? = some x ∧ True :=
  ⟨_, h, number?_ofNumber x, trivial⟩

/-- A documented format finds in an ordinary document the fields that it has, or it has none. -/
theorem RecordFormat.Documented.fields_cases {format : RecordFormat} (hformat : format.Documented)
    {d : Document} (hd : d.Ordinary) (wanted : List String) :
    (format.fields wanted d = none ∧ ∀ name p, ¬ d.Has name p) ∨
      ∃ field, format.fields wanted d = some field ∧
        ∀ name ∈ wanted, ∀ p, Finds field name p ↔ d.Has name p := by
  cases d with
  | object given =>
    obtain ⟨field, hfield, hmem⟩ := hformat.finds wanted given hd
    exact .inr ⟨field, hfield, fun name hname p => by simp [Finds, hmem name hname]⟩
  | list items => exact hd.elim
  | _ => exact .inl ⟨hformat.refuses _ _ nofun nofun, by simp [Has]⟩

/-! ## Slots -/

/-- A field of the documents of a type. -/
structure Slot (σ : Type) where
  name : String
  /-- The documents that may stand in it. -/
  kind : Document → Prop
  /-- The documents that hold the part of a state. -/
  part : σ → Document → Prop
  /-- The documents that every format judges alike. -/
  clear : Document → Prop

namespace Slot

variable {σ τ : Type} {f : Slot σ} {slots : List (Slot σ)} {s : σ} {d : Document}

/-- A document has all the parts of a state. -/
def Holds (slots : List (Slot σ)) (s : σ) (d : Document) : Prop :=
  ∀ f ∈ slots, d.Has f.name (f.part s)

/-- A document has every field, each with a document of its kind. -/
def Fits (slots : List (Slot σ)) (d : Document) : Prop :=
  ∀ f ∈ slots, d.Has f.name f.kind

/-- A document is ordinary, and so are those in it that stand for records. -/
structure Clear (slots : List (Slot σ)) (d : Document) : Prop where
  ordinary : d.Ordinary
  fields : ∀ f ∈ slots, ∀ v, d.Has f.name (· = v) → f.clear v

/-- A count. -/
def count (name : String) (get : σ → UInt64) : Slot σ where
  name := name
  kind := IsCount
  part s d := d = ofCount (get s)
  clear _ := True

/-- An object of its own. -/
def record (name : String) (slots : List (Slot τ)) (get : σ → τ) : Slot σ where
  name := name
  kind := Fits slots
  part s d := Holds slots (get s) d
  clear := Clear slots

variable {α : Type} [Patterned α] [Wide α Float]

/-- A number. -/
def number (name : String) (get : σ → α) : Slot σ where
  name := name
  kind := IsNumber α
  part s d := d.number? = some (get s)
  clear _ := True

/-- A number that is wide in the documents of any format. -/
def wide (α : Type) [Patterned α] [Wide α Float] (name : String) (get : σ → Float) : Slot σ where
  name := name
  kind := IsNumber α
  part s d := d.text?.bind (Pattern.readWide α) = some (get s)
  clear _ := True

end Slot

open Slot

/-- A type is saved and loaded by its fields. -/
structure Faithful {σ : Type} [Stored σ] (format : RecordFormat) (slots : List (Slot σ)) :
    Prop where
  reads : ∀ d : Document, Clear slots d → ∀ s : σ, load d format = some s ↔ Holds slots s d
  accepts : ∀ d : Document, Clear slots d →
    ((load d format : Option σ).isSome ↔ Fits slots d)
  lossless : ∀ s : σ, load (save s format) format = some s
  unordered : ∀ given given' : List (String × Document), Clear slots (object given) →
    Clear slots (object given') → (∀ f ∈ slots, Agree given given' f.name) →
      (load (object given) format : Option σ) = load (object given') format

/-- What a type declares is described by its slots: they are its fields, a state is read from them
if its parts are found there, and its own fields hold its parts. -/
structure Declares {σ : Type} [Stored σ] (format : RecordFormat) (slots : List (Slot σ)) :
    Prop where
  nonempty : slots ≠ []
  names : slots.map (·.name) = Stored.names σ
  distinct : (Stored.names σ).Nodup
  named : ∀ s : σ, (parts format s).map Prod.fst = Stored.names σ
  parts : ∀ s : σ, ∀ f ∈ slots,
    Finds (fun name => (parts format s).lookup name) f.name fun v => f.part s v ∧ f.clear v
  reads : ∀ field, (∀ f ∈ slots, ∀ v, field f.name = some v → f.clear v) → ∀ s : σ,
    ofParts format field = some s ↔ ∀ f ∈ slots, Finds field f.name (f.part s)
  accepts : ∀ field, (∀ f ∈ slots, ∀ v, field f.name = some v → f.clear v) →
    ((ofParts format field : Option σ).isSome ↔ ∀ f ∈ slots, Finds field f.name f.kind)

namespace Declares

variable {σ : Type} [Stored σ] {format : RecordFormat} {slots : List (Slot σ)}
  (h : Declares format slots) (hformat : format.Documented)
include h hformat

/-- A document is loaded from the fields that it has, or has none. -/
theorem load_cases {d : Document} (hd : Clear slots d) :
    ((load d format : Option σ) = none ∧ ∀ name p, ¬ d.Has name p) ∨
      ∃ field, (load d format : Option σ) = ofParts format field ∧
        (∀ f ∈ slots, ∀ v, field f.name = some v → f.clear v) ∧
          ∀ f ∈ slots, ∀ p, Finds field f.name p ↔ d.Has f.name p := by
  obtain ⟨hnone, hhas⟩ | ⟨field, hfield, hfinds⟩ :=
    hformat.fields_cases hd.ordinary (Stored.names σ)
  · exact .inl ⟨by rw [load, hnone]; rfl, hhas⟩
  · have hslot (f : Slot σ) (hf : f ∈ slots) (p : Document → Prop) :
        Finds field f.name p ↔ d.Has f.name p :=
      hfinds f.name (h.names ▸ List.mem_map_of_mem hf) p
    exact .inr ⟨field, by rw [load, hfield]; rfl,
      fun f hf v hv => hd.fields f hf v ((hslot f hf (· = v)).mp ⟨v, hv, rfl⟩), hslot⟩

theorem load_eq_some_iff {d : Document} (hd : Clear slots d) (s : σ) :
    load d format = some s ↔ Holds slots s d := by
  obtain ⟨hnone, hhas⟩ | ⟨field, hfield, hclear, hfinds⟩ := h.load_cases hformat hd
  · obtain ⟨f, hf⟩ := List.exists_mem_of_ne_nil slots h.nonempty
    rw [hnone]
    exact ⟨nofun, fun hholds => absurd (hholds f hf) (hhas _ _)⟩
  · rw [hfield, h.reads field hclear]
    exact forall₂_congr fun f hf => hfinds f hf _

theorem isSome_load {d : Document} (hd : Clear slots d) :
    (load d format : Option σ).isSome ↔ Fits slots d := by
  obtain ⟨hnone, hhas⟩ | ⟨field, hfield, hclear, hfinds⟩ := h.load_cases hformat hd
  · obtain ⟨f, hf⟩ := List.exists_mem_of_ne_nil slots h.nonempty
    rw [hnone]
    exact ⟨nofun, fun hfits => absurd (hfits f hf) (hhas _ _)⟩
  · rw [hfield, h.accepts field hclear]
    exact forall₂_congr fun f hf => hfinds f hf _

/-- What is saved is a document that leaves nothing open and holds the state. -/
theorem save_holds (s : σ) :
    Clear slots (save s format) ∧ Holds slots s (save s format) := by
  have hdistinct : Distinct (Stored.parts format s) := by
    rw [Distinct, h.named]
    exact h.distinct
  obtain ⟨given, hwrite, hperm⟩ := hformat.writes _ hdistinct
  rw [save, hwrite]
  refine ⟨⟨(hperm.map _).nodup_iff.mpr hdistinct, fun f hf v hv => ?_⟩, fun f hf => ?_⟩
  · obtain ⟨v, hmem, rfl⟩ := has_object.mp hv
    obtain ⟨v', hfound, -, hclear⟩ := h.parts s f hf
    have hlookup := (lookup_eq_some_iff hdistinct).mpr (hperm.mem_iff.mp hmem)
    obtain rfl : v = v' := Option.some.inj (hlookup.symm.trans hfound)
    exact hclear
  · obtain ⟨v, hfound, hpart, -⟩ := h.parts s f hf
    exact has_object.mpr ⟨v, hperm.mem_iff.mpr ((lookup_eq_some_iff hdistinct).mp hfound), hpart⟩

/-- **What is declared by its slots is saved and loaded by them.** -/
theorem faithful : Faithful format slots where
  reads _ := h.load_eq_some_iff hformat
  accepts _ := h.isSome_load hformat
  lossless s := by
    obtain ⟨hclear, hholds⟩ := h.save_holds hformat s
    exact (h.load_eq_some_iff hformat hclear s).mpr hholds
  unordered given given' hclear hclear' hagree := by
    have hholds (s : σ) : Holds slots s (object given) ↔ Holds slots s (object given') :=
      forall₂_congr fun f hf => by simp only [has_object, hagree f hf _]
    exact Option.ext fun s => by
      rw [h.load_eq_some_iff hformat hclear, h.load_eq_some_iff hformat hclear', hholds]

end Declares

section Types

variable (α : Type) [Patterned α] [Wide α Float]

/-- The fields of a compensated sum. -/
def sumSlots : List (Slot (CompensatedSum α)) :=
  [number "sum" (·.sum), number "compensation" (·.compensation)]

/-- The fields of moments. -/
def momentsSlots : List (Slot (Moments α)) :=
  [number "weight" (·.weight), number "mean" (·.mean), number "m2" (·.m2), number "m3" (·.m3),
    number "m4" (·.m4)]

/-- The fields of a summary. -/
def summarySlots : List (Slot (Summary α)) :=
  [count "samples" (·.samples), number "min" (·.min), number "max" (·.max),
    record "moments" (momentsSlots α) (·.moments), count "downside_samples" (·.downsideSamples),
    record "downside_weight" (sumSlots α) (·.downsideWeight),
    record "downside_squares" (sumSlots α) (·.downsideSquares)]

/-- The fields of an interval. -/
def intervalSlots : List (Slot (Interval α Float)) :=
  [number "lower" (·.lower), number "upper" (·.upper), number "estimate" (·.estimate),
    wide α "confidence" (·.confidence)]

variable [Scalar α] [RoundedScalar α] [SpelledScalar α] {format : RecordFormat}

theorem declares_sum : Declares format (sumSlots α) where
  nonempty := List.cons_ne_nil _ _
  names := rfl
  distinct := by simp [Stored.names]
  named _ := rfl
  parts s := by
    simp only [sumSlots, List.forall_mem_cons, number]
    exact ⟨finds_ofNumber rfl, finds_ofNumber rfl, nofun⟩
  reads field _ s := by
    obtain ⟨x, y⟩ := s
    simp [ofParts, field_bind_eq_some_iff, sumSlots, number, -Option.bind_eq_bind]
  accepts field _ := by
    refine (isSome_field_bind fun x => isSome_field_bind fun y => (by simp : _ ↔ True)).trans ?_
    simp [isSome_number?, sumSlots, number]

theorem declares_moments : Declares format (momentsSlots α) where
  nonempty := List.cons_ne_nil _ _
  names := rfl
  distinct := by simp [Stored.names]
  named _ := rfl
  parts m := by
    simp only [momentsSlots, List.forall_mem_cons, number]
    exact ⟨finds_ofNumber rfl, finds_ofNumber rfl, finds_ofNumber rfl, finds_ofNumber rfl,
      finds_ofNumber rfl, nofun⟩
  reads field _ m := by
    obtain ⟨w, x, y2, y3, y4⟩ := m
    simp [ofParts, field_bind_eq_some_iff, momentsSlots, number, -Option.bind_eq_bind]
  accepts field _ := by
    refine (isSome_field_bind fun w => isSome_field_bind fun x => isSome_field_bind fun y2 =>
      isSome_field_bind fun y3 => isSome_field_bind fun y4 => (by simp : _ ↔ True)).trans ?_
    simp [isSome_number?, momentsSlots, number]

theorem declares_interval : Declares format (intervalSlots α) where
  nonempty := List.cons_ne_nil _ _
  names := rfl
  distinct := by simp [Stored.names]
  named _ := rfl
  parts i := by
    simp only [intervalSlots, List.forall_mem_cons, number, wide]
    exact ⟨finds_ofNumber rfl, finds_ofNumber rfl, finds_ofNumber rfl,
      ⟨_, rfl, Pattern.readWide_write _, trivial⟩, nofun⟩
  reads field _ i := by
    obtain ⟨lo, hi, x, level⟩ := i
    simp [ofParts, field_bind_eq_some_iff, intervalSlots, number, wide, -Option.bind_eq_bind]
  accepts field _ := by
    refine (isSome_field_bind fun lo => isSome_field_bind fun hi => isSome_field_bind fun x =>
      isSome_field_bind fun level => (by simp : _ ↔ True)).trans ?_
    simp [isSome_number?, isSome_readWide, intervalSlots, number, wide]

variable (hformat : format.Documented)
include hformat

/-- **Sums are saved and loaded by their fields.** -/
theorem faithful_sum : Faithful format (sumSlots α) := (declares_sum α).faithful hformat

/-- **Moments are saved and loaded by their fields.** -/
theorem faithful_moments : Faithful format (momentsSlots α) :=
  (declares_moments α).faithful hformat

/-- **Intervals are saved and loaded by their fields**, the level in the wide format. -/
theorem faithful_interval : Faithful format (intervalSlots α) :=
  (declares_interval α).faithful hformat

theorem declares_summary : Declares format (summarySlots α) where
  nonempty := List.cons_ne_nil _ _
  names := rfl
  distinct := by simp [Stored.names]
  named _ := rfl
  parts s := by
    have hsum (t : CompensatedSum α) := (declares_sum α).save_holds hformat t
    have hmoments := (declares_moments α).save_holds hformat s.moments
    simp only [summarySlots, List.forall_mem_cons, number, count, record]
    exact ⟨⟨_, rfl, rfl, trivial⟩, finds_ofNumber rfl, finds_ofNumber rfl,
      ⟨_, rfl, hmoments.2, hmoments.1⟩,
      ⟨_, rfl, rfl, trivial⟩, ⟨_, rfl, (hsum _).2, (hsum _).1⟩, ⟨_, rfl, (hsum _).2, (hsum _).1⟩,
      nofun⟩
  reads field hclear s := by
    obtain ⟨n, lo, hi, m, k, w, q⟩ := s
    simp only [summarySlots, List.forall_mem_cons, number, count, record] at hclear ⊢
    obtain ⟨-, -, -, hm, -, hw, hq, -⟩ := hclear
    rw [← finds_congr fun v hv => (faithful_moments α hformat).reads v (hm v hv) m,
      ← finds_congr fun v hv => (faithful_sum α hformat).reads v (hw v hv) w,
      ← finds_congr fun v hv => (faithful_sum α hformat).reads v (hq v hv) q]
    simp [ofParts, field_bind_eq_some_iff, count?_eq_some_iff, -Option.bind_eq_bind]
  accepts field hclear := by
    simp only [summarySlots, List.forall_mem_cons, number, count, record] at hclear ⊢
    obtain ⟨-, -, -, hm, -, hw, hq, -⟩ := hclear
    rw [← finds_congr fun v hv => (faithful_moments α hformat).accepts v (hm v hv),
      ← finds_congr fun v hv => (faithful_sum α hformat).accepts v (hw v hv),
      ← finds_congr fun v hv => (faithful_sum α hformat).accepts v (hq v hv)]
    refine (isSome_field_bind fun n => isSome_field_bind fun lo => isSome_field_bind fun hi =>
      isSome_field_bind fun m => isSome_field_bind fun k => isSome_field_bind fun w =>
        isSome_field_bind fun q => (by simp : _ ↔ True)).trans ?_
    simp [isSome_number?, isSome_count?]

/-- **Summaries are saved and loaded by their fields**, the moments and the sums within them by
their own. -/
theorem faithful_summary : Faithful format (summarySlots α) :=
  (declares_summary α hformat).faithful hformat

end Types

/-! ## Observations -/

namespace Observation

variable {α : Type} [Scalar α] [Patterned α] [Wide α Float] {format : RecordFormat}
  (hformat : format.Documented) {d : Document}
include hformat

/-- **The weight of an observation is one if it has no field**, and is read like the value if it
has one. -/
theorem ofDocument_eq_some_iff (hd : d.Ordinary) {o : Observation α} :
    ofDocument d format = some o ↔ d.Has "value" (fun v => v.number? = some o.value) ∧
      ((¬ d.Has "weight" fun _ => True) ∧ o.weight = 1 ∨
        d.Has "weight" fun v => v.number? = some o.weight) := by
  obtain ⟨x, w⟩ := o
  obtain ⟨hnone, hhas⟩ | ⟨field, hfield, hfinds⟩ := hformat.fields_cases hd ["value", "weight"]
  · simp [ofDocument, hnone, hhas]
  · simp only [List.forall_mem_cons] at hfinds
    obtain ⟨hvalue, hweight, -⟩ := hfinds
    rw [ofDocument, hfield, ← hvalue, ← hweight, ← hweight, Option.bind_eq_bind,
      Option.bind_some, field_bind_eq_some_iff]
    cases hw : field "weight" with
    | none => simp [Finds, hw, eq_comm]
    | some v => simp [Finds, hw, Option.bind_eq_some_iff]

/-- A weight that is there and is none makes the document that of no observation. -/
theorem isSome_ofDocument (hd : d.Ordinary) :
    (ofDocument d format : Option (Observation α)).isSome ↔
      d.Has "value" (IsNumber α) ∧
        ((¬ d.Has "weight" fun _ => True) ∨ d.Has "weight" (IsNumber α)) := by
  simp only [Option.isSome_iff_exists, ofDocument_eq_some_iff hformat hd, has_isNumber]
  constructor
  · rintro ⟨o, hvalue, ⟨hnone, -⟩ | hweight⟩
    · exact ⟨⟨_, hvalue⟩, .inl hnone⟩
    · exact ⟨⟨_, hvalue⟩, .inr ⟨_, hweight⟩⟩
  · rintro ⟨⟨x, hvalue⟩, hnone | ⟨w, hweight⟩⟩
    · exact ⟨⟨x, 1⟩, hvalue, .inl ⟨hnone, rfl⟩⟩
    · exact ⟨⟨x, w⟩, hvalue, .inr hweight⟩

/-- Other fields, and the order of the two, do not matter. -/
theorem ofDocument_unordered {given given' : List (String × Document)} (hd : Distinct given)
    (hd' : Distinct given') (hvalue : Agree given given' "value")
    (hweight : Agree given given' "weight") :
    (ofDocument (object given) format : Option (Observation α)) =
      ofDocument (object given') format :=
  Option.ext fun o => by
    rw [ofDocument_eq_some_iff hformat (d := object given) hd,
      ofDocument_eq_some_iff hformat (d := object given') hd']
    simp only [has_object, hvalue _, hweight _]

end Observation

end RunningStats
