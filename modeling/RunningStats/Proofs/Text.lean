import Mathlib
import RunningStats.Csv.Columns

/-!
# The text of a field

A field's text is what is left of its bytes, read as UTF-8, when the blanks on both sides are taken
away. The bytes are trimmed before they are decoded and the characters after it, so the two ways in
which a blank may be written have to agree.

Results:
* `trim_eq_iff`: trimming gives the one core that neither begins nor ends with a blank and has only
  blanks around it.
* `Utf8.decode_eq_ok_iff`: the decoder takes the encodings of texts, and gives the text back.
* `Csv.fieldText_eq_ok_iff`: a field has a text if its bytes encode it with blanks around it.
-/

namespace RunningStats

open List

namespace Text

/-! ## Trimming -/

section Trim

variable {β : Type} {blank : β → Bool} {xs core : List β}

/-- The core of a list with blanks around it, itself without one at its ends. -/
def Padded (blank : β → Bool) (core xs : List β) : Prop :=
  ∃ before after, xs = before ++ core ++ after ∧ (∀ x ∈ before, blank x) ∧ (∀ x ∈ after, blank x) ∧
    (∀ x ∈ core.head?, ¬ blank x) ∧ ∀ x ∈ core.getLast?, ¬ blank x

theorem trim_append_append {before after : List β} (hbefore : ∀ x ∈ before, blank x)
    (hafter : ∀ x ∈ after, blank x) : trim blank (before ++ xs ++ after) = trim blank xs := by
  have hreverse : ∀ x ∈ after.reverse, blank x := fun x hx => hafter x (mem_reverse.mp hx)
  simp only [trim, append_assoc, dropWhile_append_of_pos hbefore, dropWhile_append]
  by_cases hempty : (xs.dropWhile blank).isEmpty
  · rw [if_pos hempty, isEmpty_iff.mp hempty, dropWhile_eq_nil_iff.mpr hafter]
  · rw [if_neg hempty, reverse_append, dropWhile_append_of_pos hreverse]

theorem trim_eq_self (hhead : ∀ x ∈ core.head?, ¬ blank x)
    (hlast : ∀ x ∈ core.getLast?, ¬ blank x) : trim blank core = core := by
  have hdrop (l : List β) (h : ∀ x ∈ l.head?, ¬ blank x) : l.dropWhile blank = l := by
    cases l with
    | nil => rfl
    | cons x l => exact dropWhile_cons_of_neg (h x rfl)
  rw [trim, hdrop core hhead, hdrop core.reverse (by simpa using hlast), reverse_reverse]

theorem padded_trim (blank : β → Bool) (xs : List β) : Padded blank (trim blank xs) xs := by
  have hcore : trim blank xs = (xs.dropWhile blank).rdropWhile blank := rfl
  have hsplit : trim blank xs ++ (xs.dropWhile blank).rtakeWhile blank = xs.dropWhile blank :=
    rdropWhile_append_rtakeWhile
  refine ⟨xs.takeWhile blank, (xs.dropWhile blank).rtakeWhile blank, ?_, fun _ => mem_takeWhile_imp,
    fun _ => mem_rtakeWhile_imp, ?_, ?_⟩
  · rw [append_assoc, hsplit, takeWhile_append_dropWhile]
  · intro x hx
    have hhead : (xs.dropWhile blank).head? = some x := by
      rw [← hsplit, head?_append, Option.mem_def.mp hx, Option.some_or]
    have hnot := head?_dropWhile_not blank xs
    rw [hhead] at hnot
    simp [hnot]
  · intro x hx
    obtain ⟨hne, rfl⟩ := mem_getLast?_eq_getLast hx
    exact rdropWhile_last_not blank _ hne

/-- **Trimming finds the core**: the one part that has only blanks around it and none at its
ends. -/
theorem trim_eq_iff : trim blank xs = core ↔ Padded blank core xs := by
  constructor
  · rintro rfl
    exact padded_trim blank xs
  · rintro ⟨before, after, rfl, hbefore, hafter, hhead, hlast⟩
    rw [trim_append_append hbefore hafter, trim_eq_self hhead hlast]

/-- Trimming away some of the blanks first changes nothing. -/
theorem trim_trim {few : β → Bool} (h : ∀ x, few x → blank x) (xs : List β) :
    trim blank (trim few xs) = trim blank xs := by
  obtain ⟨before, after, heq, hbefore, hafter, -⟩ := padded_trim few xs
  conv_rhs => rw [heq]
  exact (trim_append_append (fun x hx => h x (hbefore x hx)) fun x hx => h x (hafter x hx)).symm

end Trim

/-! ## UTF-8 -/

namespace Utf8

/-- The bytes of a text. -/
def encode (cs : List Char) : List UInt8 := cs.flatMap String.utf8EncodeChar

@[simp] theorem encode_nil : encode [] = [] := rfl

@[simp] theorem encode_cons (c : Char) (cs : List Char) :
    encode (c :: cs) = String.utf8EncodeChar c ++ encode cs := flatMap_cons

@[simp] theorem encode_append (cs ds : List Char) :
    encode (cs ++ ds) = encode cs ++ encode ds := flatMap_append

variable {valid read : ℕ} {b : UInt8} {bs : List UInt8} {cs : List Char}

/-- A character that needs one more byte is complete with a byte of its range. -/
theorem decodeFrom_last_eq_ok_iff {low high : UInt8} {code : ℕ} :
    decodeFrom valid read (some ⟨1, low, high, code⟩) bs = .ok cs ↔
      ∃ b rest ds, bs = b :: rest ∧ low.toNat ≤ b.toNat ∧ b.toNat ≤ high.toNat ∧
        cs = Char.ofNat (code * 64 + (b.toNat - 0x80)) :: ds ∧
        decodeFrom (read + 1) (read + 1) none rest = .ok ds := by
  cases bs with
  | nil => simp [decodeFrom]
  | cons b rest =>
    by_cases hrange : low ≤ b ∧ b ≤ high
    · cases hrest : decodeFrom (read + 1) (read + 1) none rest <;>
        simp [decodeFrom, hrange, ← UInt8.le_iff_toNat_le, hrest, Except.map, eq_comm]
    · simp only [decodeFrom, if_neg hrange, reduceCtorEq, cons.injEq, false_iff]
      rintro ⟨_, _, _, ⟨rfl, rfl⟩, hlow, hhigh, -⟩
      exact hrange ⟨hlow, hhigh⟩

/-- A character that needs more bytes needs one less after a byte of its range. -/
theorem decodeFrom_next_eq_ok_iff {low high : UInt8} {owed code : ℕ} (howed : 1 < owed) :
    decodeFrom valid read (some ⟨owed, low, high, code⟩) bs = .ok cs ↔
      ∃ b rest, bs = b :: rest ∧ low.toNat ≤ b.toNat ∧ b.toNat ≤ high.toNat ∧
        decodeFrom valid (read + 1)
          (some ⟨owed - 1, 0x80, 0xBF, code * 64 + (b.toNat - 0x80)⟩) rest = .ok cs := by
  cases bs with
  | nil => simp [decodeFrom]
  | cons b rest =>
    by_cases hrange : low ≤ b ∧ b ≤ high
    · simp [decodeFrom, hrange, ← UInt8.le_iff_toNat_le, howed.not_ge]
    · simp only [decodeFrom, if_neg hrange, reduceCtorEq, cons.injEq, false_iff]
      rintro ⟨_, _, ⟨rfl, rfl⟩, hlow, hhigh, -⟩
      exact hrange ⟨hlow, hhigh⟩

/-- The first bytes of two, three and four. -/
theorem lead?_eq_some_iff {p : Pending} :
    lead? b = some p ↔
      (0xC2 ≤ b.toNat ∧ b.toNat < 0xE0 ∧ p = ⟨1, 0x80, 0xBF, b.toNat - 0xC0⟩) ∨
      (0xE0 ≤ b.toNat ∧ b.toNat < 0xF0 ∧
        p = ⟨2, if b.toNat = 0xE0 then 0xA0 else 0x80, if b.toNat = 0xED then 0x9F else 0xBF,
          b.toNat - 0xE0⟩) ∨
      (0xF0 ≤ b.toNat ∧ b.toNat < 0xF5 ∧
        p = ⟨3, if b.toNat = 0xF0 then 0x90 else 0x80, if b.toNat = 0xF4 then 0x8F else 0xBF,
          b.toNat - 0xF0⟩) := by
  unfold lead?
  dsimp only
  generalize (⟨2, _, _, _⟩ : Pending) = two
  generalize (⟨3, _, _, _⟩ : Pending) = three
  split_ifs <;> grind

/-! ### The bytes of one character -/

/-- The bytes of a character, with its number. The second byte is bounded further where a shorter
form, a surrogate or a number beyond the last plane would come out. -/
inductive Spelling : List UInt8 → ℕ → Prop where
  | one {b : UInt8} (hb : b.toNat < 0x80) : Spelling [b] b.toNat
  | two {b c : UInt8} (hb : 0xC2 ≤ b.toNat ∧ b.toNat < 0xE0)
      (hc : 0x80 ≤ c.toNat ∧ c.toNat ≤ 0xBF) :
    Spelling [b, c] ((b.toNat - 0xC0) * 64 + (c.toNat - 0x80))
  | three {b c d : UInt8} (hb : 0xE0 ≤ b.toNat ∧ b.toNat < 0xF0)
      (hc : 0x80 ≤ c.toNat ∧ c.toNat ≤ 0xBF) (hlong : b.toNat = 0xE0 → 0xA0 ≤ c.toNat)
      (hsurrogate : b.toNat = 0xED → c.toNat ≤ 0x9F) (hd : 0x80 ≤ d.toNat ∧ d.toNat ≤ 0xBF) :
    Spelling [b, c, d] (((b.toNat - 0xE0) * 64 + (c.toNat - 0x80)) * 64 + (d.toNat - 0x80))
  | four {b c d e : UInt8} (hb : 0xF0 ≤ b.toNat ∧ b.toNat < 0xF5)
      (hc : 0x80 ≤ c.toNat ∧ c.toNat ≤ 0xBF) (hlong : b.toNat = 0xF0 → 0x90 ≤ c.toNat)
      (hplane : b.toNat = 0xF4 → c.toNat ≤ 0x8F) (hd : 0x80 ≤ d.toNat ∧ d.toNat ≤ 0xBF)
      (he : 0x80 ≤ e.toNat ∧ e.toNat ≤ 0xBF) :
    Spelling [b, c, d, e]
      ((((b.toNat - 0xF0) * 64 + (c.toNat - 0x80)) * 64 + (d.toNat - 0x80)) * 64 +
        (e.toNat - 0x80))

theorem utf8EncodeChar_ofNat {n : ℕ} (h : n.isValidChar) :
    String.utf8EncodeChar (Char.ofNat n) =
      if n ≤ 0x7F then [UInt8.ofNat n]
      else if n ≤ 0x7FF then [UInt8.ofNat (n / 64 % 32 + 0xC0), UInt8.ofNat (n % 64 + 0x80)]
      else if n ≤ 0xFFFF then
        [UInt8.ofNat (n / 4096 % 16 + 0xE0), UInt8.ofNat (n / 64 % 64 + 0x80),
          UInt8.ofNat (n % 64 + 0x80)]
      else
        [UInt8.ofNat (n / 262144 % 8 + 0xF0), UInt8.ofNat (n / 4096 % 64 + 0x80),
          UInt8.ofNat (n / 64 % 64 + 0x80), UInt8.ofNat (n % 64 + 0x80)] := by
  have hval : (Char.ofNat n).val.toNat = n := (Char.toNat_ofNat n).trans (if_pos h)
  rw [String.utf8EncodeChar, hval]

theorem toNat_ofNat {n : ℕ} (hn : n < 256) : (UInt8.ofNat n).toNat = n :=
  UInt8.toNat_ofNat_of_lt' hn

theorem ofNat_eq {n : ℕ} {b : UInt8} (h : n = b.toNat) : UInt8.ofNat n = b := by
  rw [h, UInt8.ofNat_toNat]

/-- A spelling is that of a character, and its only one. -/
theorem Spelling.encode {bytes : List UInt8} {n : ℕ} (h : Spelling bytes n) :
    String.utf8EncodeChar (Char.ofNat n) = bytes := by
  have hchar : n.isValidChar := by cases h <;> unfold Nat.isValidChar <;> omega
  rw [utf8EncodeChar_ofNat hchar]
  cases h with
  | one hb => rw [if_pos (by omega), ofNat_eq rfl]
  | @two b c hb hc =>
    rw [if_neg (by omega), if_pos (by omega), ofNat_eq (b := b) (by omega),
      ofNat_eq (b := c) (by omega)]
  | @three b c d hb hc hlong hsurrogate hd =>
    rw [if_neg (by omega), if_neg (by omega), if_pos (by omega), ofNat_eq (b := b) (by omega),
      ofNat_eq (b := c) (by omega), ofNat_eq (b := d) (by omega)]
  | @four b c d e hb hc hlong hplane hd he =>
    rw [if_neg (by omega), if_neg (by omega), if_neg (by omega), ofNat_eq (b := b) (by omega),
      ofNat_eq (b := c) (by omega), ofNat_eq (b := d) (by omega), ofNat_eq (b := e) (by omega)]

/-- Every character is spelt by the bytes that encode it. -/
theorem spelling (c : Char) : Spelling (String.utf8EncodeChar c) c.toNat := by
  have hc : c.toNat.isValidChar := c.valid
  rw [← Char.ofNat_toNat c, utf8EncodeChar_ofNat hc, Char.ofNat_toNat]
  generalize c.toNat = n at hc
  unfold Nat.isValidChar at hc
  split_ifs with h₁ h₂ h₃
  · have hb := toNat_ofNat (n := n) (by omega)
    have h := Spelling.one (b := .ofNat n) (by omega)
    rwa [hb] at h
  · have hb := toNat_ofNat (n := n / 64 % 32 + 0xC0) (by omega)
    have hc := toNat_ofNat (n := n % 64 + 0x80) (by omega)
    have h := Spelling.two (b := .ofNat (n / 64 % 32 + 0xC0)) (c := .ofNat (n % 64 + 0x80))
      (by omega) (by omega)
    rw [hb, hc] at h
    convert h using 1
    omega
  · have hb := toNat_ofNat (n := n / 4096 % 16 + 0xE0) (by omega)
    have hc := toNat_ofNat (n := n / 64 % 64 + 0x80) (by omega)
    have hd := toNat_ofNat (n := n % 64 + 0x80) (by omega)
    have h := Spelling.three (b := .ofNat (n / 4096 % 16 + 0xE0))
      (c := .ofNat (n / 64 % 64 + 0x80)) (d := .ofNat (n % 64 + 0x80))
      (by omega) (by omega) (by omega) (by omega) (by omega)
    rw [hb, hc, hd] at h
    convert h using 1
    omega
  · have hb := toNat_ofNat (n := n / 262144 % 8 + 0xF0) (by omega)
    have hc := toNat_ofNat (n := n / 4096 % 64 + 0x80) (by omega)
    have hd := toNat_ofNat (n := n / 64 % 64 + 0x80) (by omega)
    have he := toNat_ofNat (n := n % 64 + 0x80) (by omega)
    have h := Spelling.four (b := .ofNat (n / 262144 % 8 + 0xF0))
      (c := .ofNat (n / 4096 % 64 + 0x80)) (d := .ofNat (n / 64 % 64 + 0x80))
      (e := .ofNat (n % 64 + 0x80)) (by omega) (by omega) (by omega) (by omega) (by omega)
      (by omega)
    rw [hb, hc, hd, he] at h
    convert h using 1
    omega

/-- **Whatever is read begins with a character's bytes.** -/
theorem decodeFrom_cons_eq_ok (h : decodeFrom valid read none (b :: bs) = .ok cs) :
    ∃ bytes n rest ds, b :: bs = bytes ++ rest ∧ Spelling bytes n ∧ cs = Char.ofNat n :: ds ∧
      ∃ r, decodeFrom r r none rest = .ok ds := by
  by_cases hascii : b < 0x80
  · rw [decodeFrom, if_pos hascii] at h
    cases hrest : decodeFrom (read + 1) (read + 1) none bs with
    | error n => simp [hrest, Except.map] at h
    | ok ds =>
      rw [hrest] at h
      cases h
      exact ⟨_, _, bs, ds, singleton_append.symm, .one hascii, rfl, _, hrest⟩
  · rw [decodeFrom, if_neg hascii] at h
    cases hlead : lead? b with
    | none => simp [hlead] at h
    | some p =>
      simp only [hlead] at h
      rcases lead?_eq_some_iff.mp hlead with
        ⟨hmin, hmax, rfl⟩ | ⟨hmin, hmax, rfl⟩ | ⟨hmin, hmax, rfl⟩
      · obtain ⟨c, rest, ds, rfl, hlow, hhigh, rfl, hrest⟩ := decodeFrom_last_eq_ok_iff.mp h
        exact ⟨_, _, rest, ds, rfl, .two ⟨hmin, hmax⟩ ⟨hlow, hhigh⟩, rfl, _, hrest⟩
      · simp only [decodeFrom_next_eq_ok_iff, Nat.reduceLT, apply_ite UInt8.toNat] at h
        obtain ⟨c, _, rfl, hlow, hhigh, h⟩ := h
        obtain ⟨d, rest, ds, rfl, hlow', hhigh', rfl, hrest⟩ := decodeFrom_last_eq_ok_iff.mp h
        exact ⟨_, _, rest, ds, rfl, .three ⟨hmin, hmax⟩ (by grind) (by grind) (by grind)
          ⟨hlow', hhigh'⟩, rfl, _, hrest⟩
      · simp only [decodeFrom_next_eq_ok_iff, Nat.reduceLT, Nat.reduceSub,
          apply_ite UInt8.toNat] at h
        obtain ⟨c, _, rfl, hlow, hhigh, d, _, rfl, hlow', hhigh', h⟩ := h
        obtain ⟨e, rest, ds, rfl, hlow'', hhigh'', rfl, hrest⟩ := decodeFrom_last_eq_ok_iff.mp h
        exact ⟨_, _, rest, ds, rfl, .four ⟨hmin, hmax⟩ (by grind) (by grind) (by grind)
          ⟨hlow', hhigh'⟩ ⟨hlow'', hhigh''⟩, rfl, _, hrest⟩

theorem decodeFrom_of_lead {p : Pending} (hlead : lead? b = some p) :
    decodeFrom valid read none (b :: bs) = decodeFrom valid (read + 1) (some p) bs := by
  have hascii : ¬ b < 0x80 := by
    intro hlt
    replace hlt : b.toNat < 0x80 := hlt
    rcases lead?_eq_some_iff.mp hlead with h | h | h <;> omega
  rw [decodeFrom, if_neg hascii, hlead]

/-- **A spelling is read as its character.** -/
theorem Spelling.decodeFrom {bytes rest : List UInt8} {n : ℕ} {ds : List Char}
    (h : Spelling bytes n) (hrest : ∀ valid read, decodeFrom valid read none rest = .ok ds) :
    decodeFrom valid read none (bytes ++ rest) = .ok (Char.ofNat n :: ds) := by
  cases h with
  | @one b hb =>
    have hascii : b < 0x80 := hb
    rw [singleton_append, Utf8.decodeFrom, if_pos hascii, hrest]
    rfl
  | @two b c hb hc =>
    rw [cons_append, decodeFrom_of_lead (lead?_eq_some_iff.mpr (.inl ⟨hb.1, hb.2, rfl⟩)),
      decodeFrom_last_eq_ok_iff]
    exact ⟨_, _, _, rfl, hc.1, hc.2, rfl, hrest _ _⟩
  | @three b c d hb hc hlong hsurrogate hd =>
    rw [cons_append, decodeFrom_of_lead (lead?_eq_some_iff.mpr (.inr (.inl ⟨hb.1, hb.2, rfl⟩)))]
    simp only [decodeFrom_next_eq_ok_iff, Nat.reduceLT, apply_ite UInt8.toNat]
    refine ⟨_, _, rfl, ?_, ?_, ?_⟩
    · split_ifs with h
      exacts [hlong h, hc.1]
    · split_ifs with h
      exacts [hsurrogate h, hc.2]
    · exact decodeFrom_last_eq_ok_iff.mpr ⟨_, _, _, rfl, hd.1, hd.2, rfl, hrest _ _⟩
  | @four b c d e hb hc hlong hplane hd he =>
    rw [cons_append, decodeFrom_of_lead (lead?_eq_some_iff.mpr (.inr (.inr ⟨hb.1, hb.2, rfl⟩)))]
    simp only [decodeFrom_next_eq_ok_iff, Nat.reduceLT, Nat.reduceSub, apply_ite UInt8.toNat]
    refine ⟨_, _, rfl, ?_, ?_, _, _, rfl, hd.1, hd.2, ?_⟩
    · split_ifs with h
      exacts [hlong h, hc.1]
    · split_ifs with h
      exacts [hplane h, hc.2]
    · exact decodeFrom_last_eq_ok_iff.mpr ⟨_, _, _, rfl, he.1, he.2, rfl, hrest _ _⟩

/-- What is read of some bytes is the text that they encode. -/
theorem eq_encode_of_decodeFrom (h : decodeFrom valid read none bs = .ok cs) : bs = encode cs := by
  -- a character may take several bytes, so the induction is on how many there are
  induction hk : bs.length using Nat.strong_induction_on generalizing valid read bs cs with
  | _ k ih =>
    cases bs with
    | nil =>
      cases h
      rfl
    | cons b bs =>
      obtain ⟨bytes, n, rest, ds, hbytes, hspelling, rfl, r, hrest⟩ := decodeFrom_cons_eq_ok h
      have hpos : 0 < bytes.length := by cases hspelling <;> simp
      have hlt : rest.length < k := by
        rw [← hk, hbytes, length_append]
        omega
      rw [hbytes, encode_cons, hspelling.encode, ih _ hlt hrest rfl]

/-- An encoded text is read back. -/
theorem decodeFrom_encode (cs : List Char) :
    ∀ valid read, decodeFrom valid read none (encode cs) = .ok cs := by
  induction cs with
  | nil => exact fun _ _ => rfl
  | cons c cs ih =>
    intro valid read
    rw [encode_cons, (spelling c).decodeFrom ih, Char.ofNat_toNat]

/-- **The decoder takes the encodings of texts**, and gives the text back. -/
theorem decode_eq_ok_iff : decode bs = .ok cs ↔ bs = encode cs := by
  constructor
  · exact eq_encode_of_decodeFrom
  · rintro rfl
    exact decodeFrom_encode cs 0 0

/-- A byte below 128 stands only for the character of its number. -/
theorem toNat_eq_of_mem {c : Char} (hb : b ∈ String.utf8EncodeChar c) (hascii : b.toNat < 0x80) :
    c.toNat = b.toNat := by
  have hspelling := spelling c
  generalize String.utf8EncodeChar c = bytes at hb hspelling
  generalize c.toNat = n at hspelling
  cases hspelling <;> simp only [mem_cons, not_mem_nil, or_false] at hb
  case one => rw [hb]
  case two => rcases hb with rfl | rfl <;> omega
  case three => rcases hb with rfl | rfl | rfl <;> omega
  case four => rcases hb with rfl | rfl | rfl | rfl <;> omega

end Utf8

/-! ## Blanks before and after decoding -/

/-- The characters that blank bytes stand for. -/
def isAsciiBlank (c : Char) : Bool := decide (c.toNat < 0x80) && isBlankByte (UInt8.ofNat c.toNat)

theorem isBlankByte_cases {b : UInt8} (h : isBlankByte b) :
    b.toNat < 0x80 ∧ isBlank (Char.ofNat b.toNat) := by
  simp only [isBlankByte, Bool.or_eq_true, beq_iff_eq] at h
  rcases h with (((rfl | rfl) | rfl) | rfl) | rfl <;> decide

theorem isBlank_of_isAsciiBlank {c : Char} (h : isAsciiBlank c) : isBlank c := by
  simp only [isAsciiBlank, Bool.and_eq_true, decide_eq_true_eq] at h
  have hblank := (isBlankByte_cases h.2).2
  rwa [Utf8.toNat_ofNat (by omega), Char.ofNat_toNat] at hblank

namespace Utf8

variable {b : UInt8} {c : Char} {cs : List Char}

theorem isAsciiBlank_of_mem (hb : b ∈ String.utf8EncodeChar c) (h : isBlankByte b) :
    isAsciiBlank c := by
  have hascii := (isBlankByte_cases h).1
  rw [isAsciiBlank, toNat_eq_of_mem hb hascii, UInt8.ofNat_toNat, h, decide_eq_true hascii]
  rfl

theorem isBlankByte_of_mem_encode (hcs : ∀ c ∈ cs, isAsciiBlank c) (hb : b ∈ encode cs) :
    isBlankByte b := by
  obtain ⟨c, hc, hb⟩ := mem_flatMap.mp hb
  have hblank := hcs c hc
  simp only [isAsciiBlank, Bool.and_eq_true, decide_eq_true_eq] at hblank
  have hnat := toNat_ofNat (n := c.toNat) (by omega)
  have hone := (Spelling.one (b := UInt8.ofNat c.toNat) (by omega)).encode
  rw [hnat, Char.ofNat_toNat] at hone
  rw [hone, mem_singleton] at hb
  rw [hb, hblank.2]

theorem encode_map_ofNat {bytes : List UInt8} (h : ∀ b ∈ bytes, isBlankByte b) :
    encode (bytes.map fun b => Char.ofNat b.toNat) = bytes := by
  induction bytes with
  | nil => rfl
  | cons b bytes ih =>
    have hascii := (isBlankByte_cases (h b mem_cons_self)).1
    rw [map_cons, encode_cons, (Spelling.one hascii).encode, singleton_append,
      ih fun b' hb' => h b' (mem_cons_of_mem b hb')]

/-- Trimming the bytes of a text trims the text. -/
theorem trim_encode (cs : List Char) :
    trim isBlankByte (encode cs) = encode (trim isAsciiBlank cs) := by
  obtain ⟨before, after, heq, hbefore, hafter, hhead, hlast⟩ := padded_trim isAsciiBlank cs
  generalize trim isAsciiBlank cs = core at heq hhead hlast
  refine trim_eq_iff.mpr ⟨encode before, encode after, ?_,
    fun b => isBlankByte_of_mem_encode hbefore, fun b => isBlankByte_of_mem_encode hafter, ?_, ?_⟩
  · rw [heq, encode_append, encode_append]
  · intro b hb hblank
    cases core with
    | nil => cases hb
    | cons c core =>
      rw [encode_cons, head?_append_of_ne_nil _ String.utf8EncodeChar_ne_nil] at hb
      exact hhead c rfl (isAsciiBlank_of_mem (mem_of_mem_head? hb) hblank)
  · intro b hb hblank
    rcases eq_nil_or_concat core with rfl | ⟨init, c, rfl⟩
    · cases hb
    · rw [concat_eq_append] at hb hlast
      rw [encode_append, encode_cons, encode_nil, append_nil,
        getLast?_append_of_ne_nil _ String.utf8EncodeChar_ne_nil] at hb
      exact hlast c getLast?_concat (isAsciiBlank_of_mem (mem_of_mem_getLast? hb) hblank)

end Utf8

end Text

open Text

/-- The bytes of a field are those of a text with blanks around it. -/
def Csv.Says (field : List UInt8) (text : String) : Prop :=
  ∃ cs, field = Utf8.encode cs ∧ Padded isBlank text.toList cs

/-- **A field has a text** if its bytes are those of the text with blanks around it. -/
theorem Csv.fieldText_eq_ok_iff {bytes : List UInt8} {text : String} :
    fieldText bytes = .ok text ↔ Says bytes text := by
  simp only [Says, ← trim_eq_iff]
  constructor
  · intro h
    unfold fieldText at h
    cases hdecode : Utf8.decode (trim isBlankByte bytes) with
    | error n => simp [hdecode, Except.map] at h
    | ok cs =>
      rw [hdecode] at h
      obtain rfl := Except.ok.inj h
      obtain ⟨before, after, heq, hbefore, hafter, -⟩ := padded_trim isBlankByte bytes
      rw [Utf8.decode_eq_ok_iff.mp hdecode] at heq
      have hblank {bs : List UInt8} (hbs : ∀ b ∈ bs, isBlankByte b) :
          ∀ c ∈ bs.map fun b => Char.ofNat b.toNat, isBlank c := by
        intro c hc
        obtain ⟨b, hb, rfl⟩ := mem_map.mp hc
        exact (isBlankByte_cases (hbs b hb)).2
      refine ⟨before.map (fun b => Char.ofNat b.toNat) ++ cs ++
        after.map fun b => Char.ofNat b.toNat, ?_, ?_⟩
      · rw [Utf8.encode_append, Utf8.encode_append, Utf8.encode_map_ofNat hbefore,
          Utf8.encode_map_ofNat hafter, heq]
      · rw [trim_append_append (hblank hbefore) (hblank hafter), String.toList_ofList]
  · rintro ⟨cs, rfl, htrim⟩
    rw [fieldText, Utf8.trim_encode, Utf8.decode_eq_ok_iff.mpr rfl, Except.map,
      trim_trim (fun c => isBlank_of_isAsciiBlank), htrim, String.ofList_toList]

end RunningStats
