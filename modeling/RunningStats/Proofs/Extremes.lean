import RunningStats.Proofs.Binary.Order
import RunningStats.Proofs.Holdings

/-!
# Counts and extrema of a session

In an ordered scalar type, exact or floating point, the counts and extrema of a summary are those
of the observations it holds, whatever the order of commands. An empty summary stores zeros in
place of its extrema, so the invariant `Describes` asks for extrema only where something is held,
and for the empty summary itself where nothing is: the branches of `commit` and `merge` that
overwrite a placeholder are the cases `H = 0` of `Attained.add`.

* `describes_tracks`: `Describes` survives every observation and every merge.
* `session_invariant`: what it says at the end of a session, for each name that holds fewer than
  `2 ^ 64` observations.
-/

namespace RunningStats.Summary

variable {α : Type} [Scalar α]

/-! ## Extreme values -/

/-- `m` is one of the values held, and related to all of them. -/
def Attained (r : α → α → Prop) (m : α) (H : Multiset (Observation α)) : Prop :=
  (∃ o ∈ H, o.value = m) ∧ ∀ o ∈ H, r m o.value

theorem Attained.finite {r : α → α → Prop} {m : α} {H : Multiset (Observation α)}
    (h : Attained r m H) (hv : ∀ o ∈ H, o.Valid) : Scalar.isFinite m := by
  obtain ⟨⟨o, ho, rfl⟩, -⟩ := h
  exact (hv o ho).2.2

theorem attained_singleton {r : α → α → Prop} {f : α → α → α} (hf : OrderedScalar.Picks r f)
    {o : Observation α} (ho : o.Valid) : Attained r o.value {o} := by
  refine ⟨⟨o, Multiset.mem_singleton_self o, rfl⟩, fun p hp => ?_⟩
  rw [Multiset.mem_singleton.mp hp]
  exact hf.refl ho.2.2

/-- What `f` picks of two extreme values is extreme among all values together. -/
theorem Attained.join {r : α → α → Prop} {f : α → α → α} (hf : OrderedScalar.Picks r f)
    {m n : α} {H K : Multiset (Observation α)} (hH : Attained r m H) (hK : Attained r n K)
    (hHv : ∀ o ∈ H, o.Valid) (hKv : ∀ o ∈ K, o.Valid) : Attained r (f m n) (H + K) := by
  have hm : Scalar.isFinite m := hH.finite hHv
  have hn : Scalar.isFinite n := hK.finite hKv
  have hmn : Scalar.isFinite (f m n) := by
    rcases hf.either hm hn with h | h <;> rwa [h]
  constructor
  · rcases hf.either hm hn with h | h
    · obtain ⟨o, ho, hv⟩ := hH.1
      exact ⟨o, Multiset.mem_add.mpr (.inl ho), hv.trans h.symm⟩
    · obtain ⟨o, ho, hv⟩ := hK.1
      exact ⟨o, Multiset.mem_add.mpr (.inr ho), hv.trans h.symm⟩
  · intro o ho
    rcases Multiset.mem_add.mp ho with ho | ho
    · exact hf.trans hmn hm (hHv o ho).2.2 (hf.left hm hn) (hH.2 o ho)
    · exact hf.trans hmn hn (hKv o ho).2.2 (hf.right hm hn) (hK.2 o ho)

/-- The same where one side may hold nothing: then its placeholder is overwritten. -/
theorem Attained.add {r : α → α → Prop} {f : α → α → α} (hf : OrderedScalar.Picks r f)
    {m n : α} {H K : Multiset (Observation α)} (hH : H ≠ 0 → Attained r m H)
    (hK : Attained r n K) (hHv : ∀ o ∈ H, o.Valid) (hKv : ∀ o ∈ K, o.Valid)
    {p : Prop} [Decidable p] (hp : p ↔ H = 0) :
    Attained r (if p then n else f m n) (H + K) := by
  by_cases h : p
  · rw [if_pos h, hp.mp h, zero_add]
    exact hK
  · rw [if_neg h]
    exact (hH fun h0 => h (hp.mpr h0)).join hf hK hHv hKv

/-! ## The invariant -/

/-- The counts and extrema of a summary are those of the observations held. -/
structure Describes (s : Summary α) (H : Multiset (Observation α)) : Prop where
  valid : ∀ o ∈ H, o.Valid
  samples : s.samples.toNat = H.card
  fresh : H = 0 → s = empty
  lower : H ≠ 0 → Attained (fun x y => x ≤ y) s.min H
  upper : H ≠ 0 → Attained (fun x y => y ≤ x) s.max H
  downside : s.downsideSamples.toNat = H.countP fun o => o.value < 0

theorem toNat_add_of_lt {a b : UInt64} (h : a.toNat + b.toNat < 2 ^ 64) :
    (a + b).toNat = a.toNat + b.toNat := by
  rw [UInt64.toNat_add]
  exact Nat.mod_eq_of_lt h

theorem toNat_add_one_of_lt {a : UInt64} (h : a.toNat + 1 < 2 ^ 64) :
    (a + 1).toNat = a.toNat + 1 := toNat_add_of_lt h

namespace Describes

variable {s t : Summary α} {H K : Multiset (Observation α)}

theorem samples_eq_zero_iff (h : Describes s H) : s.samples = 0 ↔ H = 0 := by
  rw [← Multiset.card_eq_zero, ← h.samples, ← UInt64.toNat_inj]
  rfl

theorem downside_le (h : Describes s H) : s.downsideSamples.toNat ≤ H.card := by
  rw [h.downside]
  exact Multiset.countP_le_card _ _

variable [OrderedScalar α]

theorem commit (h : Describes s H) {o : Observation α} (ho : o.Valid)
    (hc : H.card + 1 < 2 ^ 64) : Describes (s.commit o) (o ::ₘ H) := by
  have hone : ∀ p ∈ ({o} : Multiset (Observation α)), p.Valid := fun p hp => by
    rwa [Multiset.mem_singleton.mp hp]
  have hsum : o ::ₘ H = H + {o} := by rw [add_comm, Multiset.singleton_add]
  refine ⟨fun p hp => ?_, ?_, fun h0 => absurd h0 (Multiset.cons_ne_zero), fun _ => ?_,
    fun _ => ?_, ?_⟩
  · rcases Multiset.mem_cons.mp hp with rfl | hp
    · exact ho
    · exact h.valid p hp
  · show (s.samples + 1).toNat = _
    rw [Multiset.card_cons, ← h.samples]
    exact toNat_add_one_of_lt (by rwa [h.samples])
  · rw [hsum]
    exact Attained.add OrderedScalar.picks_least h.lower
      (attained_singleton OrderedScalar.picks_least ho) h.valid hone h.samples_eq_zero_iff
  · rw [hsum]
    exact Attained.add OrderedScalar.picks_greatest h.upper
      (attained_singleton OrderedScalar.picks_greatest ho) h.valid hone h.samples_eq_zero_iff
  · show (if o.value < 0 then s.downsideSamples + 1 else s.downsideSamples).toNat = _
    by_cases hd : o.value < 0
    · have hle := h.downside_le
      rw [if_pos hd, Multiset.countP_cons, if_pos hd, ← h.downside]
      exact toNat_add_one_of_lt (by omega)
    · rw [if_neg hd, Multiset.countP_cons, if_neg hd, h.downside]
      rfl

theorem merge (hs : Describes s H) (ht : Describes t K) (hc : H.card + K.card < 2 ^ 64) :
    Describes (s.merge t) (H + K) := by
  by_cases hK : K = 0
  · have hm : s.merge t = s := if_pos (ht.samples_eq_zero_iff.mpr hK)
    rw [hm, hK, add_zero]
    exact hs
  · have hm : t.samples ≠ 0 := fun h0 => hK (ht.samples_eq_zero_iff.mp h0)
    unfold Summary.merge
    rw [if_neg hm]
    have hds := hs.downside_le
    have hdt := ht.downside_le
    refine ⟨fun p hp => ?_, ?_, fun h0 => ?_, fun _ => ?_, fun _ => ?_, ?_⟩
    · exact (Multiset.mem_add.mp hp).elim (hs.valid p) (ht.valid p)
    · rw [Multiset.card_add, ← hs.samples, ← ht.samples]
      exact toNat_add_of_lt (by rwa [hs.samples, ht.samples])
    · exact absurd (Multiset.eq_zero_of_forall_notMem fun o ho => by
        have hm : o ∈ H + K := Multiset.mem_add.mpr (.inr ho)
        rw [h0] at hm
        exact Multiset.notMem_zero o hm) hK
    · exact Attained.add OrderedScalar.picks_least hs.lower (ht.lower hK) hs.valid ht.valid
        hs.samples_eq_zero_iff
    · exact Attained.add OrderedScalar.picks_greatest hs.upper (ht.upper hK) hs.valid ht.valid
        hs.samples_eq_zero_iff
    · rw [Multiset.countP_add, ← hs.downside, ← ht.downside]
      exact toNat_add_of_lt (by omega)

end Describes

/-! ## Sessions -/

variable [OrderedScalar α] {ω : Type} [Wide α ω]

omit [Wide α ω] in
theorem describes_tracks : Tracks (Describes (α := α)) where
  empty := ⟨fun _ ho => absurd ho (Multiset.notMem_zero _), rfl, fun _ => rfl,
    fun h => absurd rfl h, fun h => absurd rfl h, rfl⟩
  commit h ho hc := h.commit ho hc
  merge hs ht hc := hs.merge ht hc

/-- **Counts and extrema of a session.** -/
theorem session_invariant (cs : List (String × Command α)) (name : String)
    (hc : (held cs name).card < 2 ^ 64) :
    let s := session cs name
    let H := held cs name
    s.samples.toNat = H.card ∧
    (s.samples = 0 ↔ s = empty) ∧
    (0 < s.samples → Scalar.isFinite s.min ∧ Scalar.isFinite s.max ∧ s.min ≤ s.max ∧
      (∃ o ∈ H, o.value = s.min) ∧ (∃ o ∈ H, o.value = s.max) ∧
      ∀ o ∈ H, s.min ≤ o.value ∧ o.value ≤ s.max) ∧
    s.downsideSamples.toNat = H.countP (fun o => o.value < 0) ∧
    s.downsideSamples ≤ s.samples := by
  have h : Describes (session cs name) (held cs name) := describes_tracks.run cs name hc
  refine ⟨h.samples, ?_, fun hpos => ?_, h.downside, ?_⟩
  · exact ⟨fun h0 => h.fresh (h.samples_eq_zero_iff.mp h0), fun h0 => by rw [h0]; rfl⟩
  · have hne : held cs name ≠ 0 := fun h0 => by
      rw [h.samples_eq_zero_iff.mpr h0] at hpos
      exact absurd hpos (by decide)
    have hl := h.lower hne
    have hu := h.upper hne
    obtain ⟨o, ho, hv⟩ := hl.1
    refine ⟨hl.finite h.valid, hu.finite h.valid, ?_, hl.1, hu.1,
      fun o ho => ⟨hl.2 o ho, hu.2 o ho⟩⟩
    rw [← hv]
    exact hu.2 o ho
  · rw [UInt64.le_iff_toNat_le, h.samples]
    exact h.downside_le

/-- A session over both signs: bulk ingestion refused for its second weight, a split ingestion,
and merges with another summary and with a copy of itself. -/
theorem session_invariant_float :
    let cs : List (String × Command Float) :=
      [("a", .add ⟨-1.5, 0⟩), ("a", .addWeighted [2, 3] [1, -1]),
        ("b", .replaceWith .halves [-2, -1] [1, 3]), ("b", .merge "a"), ("b", .merge "b")]
    (held cs "b").card < 2 ^ 64 ∧ (session cs "b").samples.toNat = 6 ∧
      (∃ o ∈ held cs "b", o.value = (session cs "b").max) ∧
      ∀ o ∈ held cs "b", (session cs "b").min ≤ o.value := by
  intro cs
  have hc : (held cs "b").card < 2 ^ 64 := by decide +kernel
  have hpos : 0 < (session cs "b").samples := by decide +kernel
  have hcard : (held cs "b").card = 6 := by decide +kernel
  obtain ⟨hs, -, hx, -⟩ := session_invariant cs "b" hc
  obtain ⟨-, -, -, -, hmax, hall⟩ := hx hpos
  exact ⟨hc, hs.trans hcard, hmax, fun o ho => (hall o ho).1⟩

end RunningStats.Summary
