import RunningStats.Checkpoint.Pattern
import RunningStats.Proofs.Binary.Datum

/-!
# Reading numbers back

The text of a number holds its whole bit pattern, and all that is no number has one text, so reading
a text back loses nothing, whatever the number is.

* `hex?_eq_some_iff`: digits are those of the number that is read from them.
* `isSome_read`: which texts are read. They are `nan` and those of as many lower-case hexadecimal
  digits as the number's own format takes, or the wide one.
* **`read_write`**: what was written is read as the same number, zeros of either sign, infinities
  and no number included; `readWide_write` is the same for a number that is wide in documents of any
  format.
* `write_of_readOwn`: a number is written with the digits of its own format that it is read from.
-/

namespace RunningStats

open Patterned RoundedScalar
open Float.Model.UnpackedFloat (pack_unpack unpack_packedNaN)

namespace Pattern

/-! ## Digits -/

/-- A lower-case hexadecimal digit. -/
def IsDigit (c : Char) : Prop := ('0' ≤ c ∧ c ≤ '9') ∨ ('a' ≤ c ∧ c ≤ 'f')

instance (c : Char) : Decidable (IsDigit c) := inferInstanceAs (Decidable (_ ∨ _))

theorem isSome_digit? {c : Char} : (digit? c).isSome ↔ IsDigit c := by
  unfold digit? IsDigit
  split_ifs with hdecimal hletter
  · simp [hdecimal]
  · simp [hletter]
  · simp [hdecimal, hletter]

/-- A digit is read as the number that it is written for. -/
theorem digit?_eq_some_iff {c : Char} {n : ℕ} :
    digit? c = some n ↔ n < 16 ∧ Nat.digitChar n = c := by
  constructor
  · intro h
    unfold digit? at h
    split_ifs at h with hdecimal hletter
    · obtain rfl := Option.some.inj h
      obtain ⟨hlow, hhigh⟩ : 48 ≤ c.toNat ∧ c.toNat ≤ 57 := hdecimal
      have hc := Char.ofNat_toNat c
      generalize c.toNat = k at hlow hhigh hc ⊢
      subst hc
      interval_cases k <;> decide
    · obtain rfl := Option.some.inj h
      obtain ⟨hlow, hhigh⟩ : 97 ≤ c.toNat ∧ c.toNat ≤ 102 := hletter
      have hc := Char.ofNat_toNat c
      generalize c.toNat = k at hlow hhigh hc ⊢
      subst hc
      interval_cases k <;> decide
  · rintro ⟨hn, rfl⟩
    interval_cases n <;> decide

theorem hex_succ (width n : ℕ) :
    hex (width + 1) n = Nat.digitChar (n / 16 ^ width % 16) :: hex width n := by
  simp [hex, List.range_succ]

theorem length_hex (width n : ℕ) : (hex width n).length = width := by simp [hex]

/-- What is read from digits that follow those of the number `m`. -/
def hexFrom (m : ℕ) (cs : List Char) : Option ℕ :=
  cs.foldlM (fun n c => (digit? c).map (16 * n + ·)) m

theorem hexFrom_cons (m : ℕ) (c : Char) (cs : List Char) :
    hexFrom m (c :: cs) = (digit? c).bind fun k => hexFrom (16 * m + k) cs := by
  rw [hexFrom, List.foldlM_cons]
  cases digit? c <;> rfl

theorem isSome_hexFrom {cs : List Char} :
    ∀ {m : ℕ}, (hexFrom m cs).isSome ↔ ∀ c ∈ cs, IsDigit c := by
  induction cs with
  | nil => simp [hexFrom]
  | cons c cs ih =>
    intro m
    rw [hexFrom_cons, List.forall_mem_cons, ← isSome_digit?]
    cases digit? c with
    | none => simp
    | some k => simpa using ih

/-- The digits are the last ones of what is read, and `m` is the rest of it. -/
theorem hexFrom_eq_some_iff {n : ℕ} : ∀ {cs : List Char} {m : ℕ},
    hexFrom m cs = some n ↔ n / 16 ^ cs.length = m ∧ hex cs.length n = cs
  | [], m => by simp [hexFrom, hex, eq_comm]
  | c :: cs, m => by
    have hquotient : n / 16 ^ (cs.length + 1) = n / 16 ^ cs.length / 16 := by
      rw [pow_succ, Nat.div_div_eq_div_mul]
    rw [hexFrom_cons, List.length_cons, hex_succ, List.cons.injEq, hquotient]
    simp only [Option.bind_eq_some_iff, digit?_eq_some_iff, @hexFrom_eq_some_iff n cs]
    constructor
    · rintro ⟨k, ⟨hk, hchar⟩, hm, hdigits⟩
      have hmod : n / 16 ^ cs.length % 16 = k := by omega
      exact ⟨by omega, by rw [hmod, hchar], hdigits⟩
    · rintro ⟨hm, hchar, hdigits⟩
      exact ⟨_, ⟨Nat.mod_lt _ (by decide), hchar⟩, by omega, hdigits⟩

theorem isSome_hex? {cs : List Char} : (hex? cs).isSome ↔ ∀ c ∈ cs, IsDigit c := isSome_hexFrom

/-- **Digits are read as the number that they are written for**, and as no other. -/
theorem hex?_eq_some_iff {cs : List Char} {n : ℕ} :
    hex? cs = some n ↔ n < 16 ^ cs.length ∧ hex cs.length n = cs := by
  rw [← Nat.div_eq_zero_iff_lt (by positivity)]
  exact hexFrom_eq_some_iff

/-! ## Texts of numbers -/

/-- A text of the digits of a pattern. -/
def IsPattern (f : Binary.Format) (s : String) : Prop :=
  s.length = f.hexDigits ∧ ∀ c ∈ s.toList, IsDigit c

/-- The texts that numbers of a type are read from. -/
def IsNumeral (α : Type) [Patterned α] (s : String) : Prop :=
  s = "nan" ∨ IsPattern (format α) s ∨ IsPattern Binary.binary64 s

-- the instance found for the digits would go through all characters that there are
instance (f : Binary.Format) (s : String) : Decidable (IsPattern f s) :=
  @instDecidableAnd _ _ inferInstance (List.decidableBAll IsDigit s.toList)

instance (α : Type) [Patterned α] (s : String) : Decidable (IsNumeral α s) :=
  inferInstanceAs (Decidable (_ ∨ _ ∨ _))

section

variable {α : Type} [Patterned α] {s : String}

theorem isSome_readOwn :
    (readOwn s : Option α).isSome ↔ s = "nan" ∨ IsPattern (format α) s := by
  unfold readOwn IsPattern
  split_ifs with hnan hlength
  · simp [hnan]
  · simp [hnan, hlength, isSome_hex?]
  · simp [hnan, hlength]

variable [Wide α Float]

/-- **The texts that are read** do not depend on what the patterns in them stand for. -/
theorem isSome_read : (read s : Option α).isSome ↔ IsNumeral α s := by
  have hor : (read s : Option α) = (readOwn s).or ((readOwn (α := Float) s).map narrow) :=
    Option.orElse_eq_or
  rw [hor, Option.isSome_or, Option.isSome_map, Bool.or_eq_true, isSome_readOwn, isSome_readOwn,
    or_or_or_comm, or_self]
  exact Iff.rfl

theorem isSome_readWide : (readWide α s).isSome ↔ IsNumeral α s := by
  have hor : readWide α s = (readOwn s).or ((readOwn (α := α) s).map widen) :=
    Option.orElse_eq_or
  rw [hor, Option.isSome_or, Option.isSome_map, Bool.or_eq_true, isSome_readOwn, isSome_readOwn,
    or_or_or_comm, or_self, or_comm (a := IsPattern _ _)]
  exact Iff.rfl

end

end Pattern

/-! ## Reading back what was written -/

/-- A native scalar whose patterns take up all the digits that they are written with, and which has
a pattern that is no number. -/
class SpelledScalar (α : Type) [Scalar α] [RoundedScalar α] [Patterned α] : Prop
    extends NativeScalar α where
  numBits_eq : (spec α).numBits = 4 * (format α).hexDigits
  datum_nan : datum (ofPattern (format α).nan : α) = .nan

instance : SpelledScalar Float where
  numBits_eq := rfl
  datum_nan := by decide +kernel

instance : SpelledScalar Float32 where
  numBits_eq := rfl
  datum_nan := by decide +kernel

namespace Pattern

variable {α : Type} [Scalar α] [RoundedScalar α] [Patterned α] [SpelledScalar α]

theorem toPattern_lt (x : α) : toPattern x < 16 ^ (format α).hexDigits := by
  have h := (bits x).isLt
  rwa [← NativeScalar.toPattern_eq, SpelledScalar.numBits_eq, pow_mul] at h

theorem ofPattern_toPattern (x : α) : ofPattern (toPattern x) = x := by
  apply bits_injective
  rw [NativeScalar.bits_ofPattern, NativeScalar.toPattern_eq, BitVec.ofNat_toNat,
    BitVec.setWidth_eq]
  exact (bits_eq x).symm

theorem notANumber_of_datum {x : α} (h : datum x = .nan) : NotANumber x := by
  rw [datum_eq] at h
  unfold NotANumber
  cases hx : number x with
  | notANumber => rfl
  | infinity s => rw [hx] at h; cases h
  | zero s => rw [hx] at h; cases h
  | finite s m e hm => rw [hx] at h; cases h

theorem readOwn_write (x : α) : readOwn (write x) = some x := by
  unfold write
  split_ifs with hnan
  · rw [readOwn, if_pos rfl, (notANumber_of_datum hnan).eq
      (notANumber_of_datum SpelledScalar.datum_nan)]
  · set cs := hex (format α).hexDigits (toPattern x) with hcs
    have hlength : cs.length = (format α).hexDigits := length_hex _ _
    have hread : hex? cs = some (toPattern x) :=
      hex?_eq_some_iff.mpr (by rw [hlength]; exact ⟨toPattern_lt x, hcs.symm⟩)
    -- the other text has a letter that is no digit
    have hne : String.ofList cs ≠ "nan" := by
      intro h
      have hchars : cs = "nan".toList := by rw [← h, String.toList_ofList]
      have hnone : hex? "nan".toList = none := by decide +kernel
      rw [← hchars, hread] at hnone
      cases hnone
    rw [readOwn, if_neg hne, if_pos (String.length_ofList.trans hlength), String.toList_ofList, hread, Option.map_some,
      ofPattern_toPattern]

/-- A pattern of some number is the one that the number has. -/
theorem toPattern_ofPattern {n : ℕ} (hn : n < 16 ^ (format α).hexDigits)
    (hnan : datum (ofPattern n : α) ≠ .nan) : toPattern (ofPattern n : α) = n := by
  have hlt : n < 2 ^ (spec α).numBits := by rwa [SpelledScalar.numBits_eq, pow_mul]
  have hbits : bits (ofPattern n : α) = _ :=
    (NativeScalar.bits_ofPattern n).trans (pack_unpack _ one_lt)
  split_ifs at hbits
  · refine absurd ?_ hnan
    rw [datum_eq, number, hbits, unpack_packedNaN]
    rfl
  · rw [NativeScalar.toPattern_eq, hbits, BitVec.toNat_ofNat, Nat.mod_eq_of_lt hlt]

/-- **A number has one text** in its own format. -/
theorem write_of_readOwn {s : String} {x : α} (hs : IsPattern (format α) s)
    (h : readOwn s = some x) (hx : datum x ≠ .nan) : write x = s := by
  have hne : s ≠ "nan" := by
    rintro rfl
    obtain rfl := Option.some.inj h
    exact hx SpelledScalar.datum_nan
  rw [readOwn, if_neg hne, if_pos hs.1] at h
  obtain ⟨n, hn, rfl⟩ := Option.map_eq_some_iff.mp h
  obtain ⟨hlt, hdigits⟩ := hex?_eq_some_iff.mp hn
  rw [String.length_toList, hs.1] at hlt hdigits
  rw [write, if_neg hx, toPattern_ofPattern hlt hx, hdigits, String.ofList_toList]

/-- **A number is read back as it was written.** -/
theorem read_write [Wide α Float] (x : α) : read (write x) = some x := by
  rw [read, readOwn_write]
  rfl

@[inherit_doc read_write]
theorem readWide_write {β : Type} [Patterned β] [Wide β Float] (x : Float) :
    readWide β (write x) = some x := by
  rw [readWide, readOwn_write]
  rfl

end Pattern

end RunningStats
