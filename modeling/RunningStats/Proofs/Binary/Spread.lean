import RunningStats.Proofs.Binary.Defined
import RunningStats.Proofs.Binary.Weightless

/-!
# The spread of finite moments

The variance divides the second moment by the sum of the weights, which may be next to zero. If all
moments are finite, the quotient still is. The fourth moment keeps the differences of the means that
merges have met small, as each enters it with its fourth power; so each merge adds to the second
moment no more than a bounded multiple of the whole weight.

* `Moments.Capped`: the second moment is no more than `2 ^ spreadBits` times the weight.
* **`Moments.Capped.merge`**: merges keep this, and nothing adds up from one to the next. The sum of
  the second moments is rounded no further up than that of the weights (`Binary.Rounds.scaled_le`),
  and the term that the merge adds is small against the bound (`Binary.Rounds.absorbed`).
* **`Summary.session_spread_finite`**: the variance, the standard deviation and the standard error
  of finite moments are finite, in every session.
-/

namespace RunningStats

open Binary (Representable Step limit)
open RoundedScalar BinaryScalar

variable {α : Type} [Scalar α] [BinaryScalar α]

/-! ## Bounds that rounding doubles -/

section

variable {x y : α}

theorem toRat_mul_le (hx : 0 ≤ toRat x) (hy : 0 ≤ toRat y) (h : Scalar.isFinite (x * y)) :
    toRat (x * y) ≤ 2 * (toRat x * toRat y) := by
  obtain ⟨hfx, hfy⟩ := finite_of_mul h
  exact ((nearest_mul hfx hfy).rounds h).le_double (mul_nonneg hx hy)

theorem toRat_div_le (hx : 0 ≤ toRat x) (hy : 0 < toRat y) (hfy : Scalar.isFinite y)
    (h : Scalar.isFinite (x / y)) : toRat (x / y) ≤ 2 * (toRat x / toRat y) := by
  have hzero : ¬ Scalar.isZero y := fun hz => hy.ne' ((isZero_iff_toRat hfy).mp hz)
  exact ((nearest_div (finite_of_div h) hfy hzero).rounds h).le_double (div_nonneg hx hy.le)

variable (α) in
/-- The root of the limit. -/
theorem limit_eq_mul_self :
    limit (spec α) = 2 ^ 2 ^ ((spec α).exponentBits - 2) * 2 ^ 2 ^ ((spec α).exponentBits - 2) := by
  have hE : (spec α).exponentBits - 1 = (spec α).exponentBits - 2 + 1 := by
    have := reach (α := α)
    omega
  rw [limit, hE, ← pow_add, pow_succ, Nat.mul_two]

/-- A number with a finite square is no larger than the root of the limit. -/
theorem abs_toRat_le_of_mul_self (h : Scalar.isFinite (x * x)) :
    |toRat x| ≤ 2 ^ 2 ^ ((spec α).exponentBits - 2) := by
  obtain ⟨hf, -⟩ := finite_of_mul h
  have hlt := (nearest_mul hf hf).abs_lt_limit h
  rw [abs_mul, limit_eq_mul_self] at hlt
  exact (lt_of_mul_self_lt_mul_self₀ (by positivity) hlt).le

end

namespace Moments

variable {a b : Moments α}

/-- The power of two that the second moment stays below, in units of the weight. -/
def spreadBits (S : Float.Model.Format) : ℕ := S.mantissaBits + 5 + 2 ^ (S.exponentBits - 2)

/-! ## The terms of a merge -/

/-- A difference of means whose fourth power enters a finite fourth moment has a small square. -/
theorem finite_of_combine_m4 (h : Scalar.isFinite (combine a b).m4) :
    Scalar.isFinite a.m4 ∧ Scalar.isFinite b.m4 ∧
      toRat ((b.mean - a.mean) * (b.mean - a.mean)) ≤ 2 ^ 2 ^ ((spec α).exponentBits - 2) := by
  obtain ⟨h, -⟩ := finite_of_add h
  obtain ⟨h, -⟩ := finite_of_add h
  obtain ⟨hab, hterm⟩ := finite_of_add h
  obtain ⟨ha, hb⟩ := finite_of_add hab
  have hfourth := (finite_of_mul (finite_of_mul (finite_of_mul (finite_of_div hterm)).1).1).1
  exact ⟨ha, hb, (le_abs_self _).trans (abs_toRat_le_of_mul_self hfourth)⟩

/-- What a merge adds to the second moment, three roundings and a share of the weight. -/
theorem second_term_le {x wa wb : α} {D : ℚ} (hx : NotBelow x) (hxD : toRat x ≤ D)
    (hwa : IsAmount wa) (hwb : IsAmount wb) (hw : Scalar.isFinite (wa + wb))
    (hpos : 0 < toRat (wa + wb)) (h : Scalar.isFinite (x * wa * wb / (wa + wb))) :
    toRat (x * wa * wb / (wa + wb)) ≤ 8 * (D * toRat (wa + wb)) := by
  obtain ⟨hfa, hfb⟩ := finite_of_add hw
  have hp := finite_of_div h
  obtain ⟨hxa, -⟩ := finite_of_mul hp
  obtain ⟨hfx, -⟩ := finite_of_mul hxa
  have hx0 := (notBelow_iff hfx).mp hx
  have ha0 := hwa.toRat_nonneg hfa
  have hb0 := hwb.toRat_nonneg hfb
  have hxa0 := (notBelow_iff hxa).mp (hx.mul hwa.notBelow)
  have hp0 := (notBelow_iff hp).mp ((hx.mul hwa.notBelow).mul hwb.notBelow)
  have hale := toRat_le_add hwb.notBelow hw
  have hble := toRat_le_add' hwa.notBelow hw
  have hprod : toRat (x * wa * wb) ≤ 4 * (D * toRat (wa + wb)) * toRat (wa + wb) :=
    calc toRat (x * wa * wb) ≤ 2 * (toRat (x * wa) * toRat wb) := toRat_mul_le hxa0 hb0 hp
      _ ≤ 2 * (2 * (toRat x * toRat wa) * toRat wb) := by
        have := toRat_mul_le hx0 ha0 hxa
        gcongr
      _ = 4 * (toRat x * toRat wa * toRat wb) := by ring
      _ ≤ 4 * (D * toRat (wa + wb) * toRat (wa + wb)) := by
        have := hx0.trans hxD
        gcongr
      _ = 4 * (D * toRat (wa + wb)) * toRat (wa + wb) := by ring
  calc toRat (x * wa * wb / (wa + wb)) ≤ 2 * (toRat (x * wa * wb) / toRat (wa + wb)) :=
        toRat_div_le hp0 hpos hw h
    _ ≤ 2 * (4 * (D * toRat (wa + wb))) := by
      have := (div_le_iff₀ hpos).mpr hprod
      gcongr
    _ = 8 * (D * toRat (wa + wb)) := by ring

/-! ## The bound -/

/-- The second moment is not below zero, and no more than a multiple of the weight, as long as the
moments that it is made of are finite. -/
structure Capped (m : Moments α) : Prop where
  weight : IsAmount m.weight
  notBelow : NotBelow m.m2
  le : Scalar.isFinite m.weight → Scalar.isFinite m.m2 → Scalar.isFinite m.m4 →
    toRat m.m2 ≤ 2 ^ spreadBits (spec α) * toRat m.weight

namespace Capped

theorem concentrated {weight : α} (hw : IsAmount weight) (mean : α) :
    Capped (.concentrated weight mean) where
  weight := hw
  notBelow := isAmount_zero.notBelow
  le hf _ _ := by
    show toRat (0 : α) ≤ _ * toRat weight
    rw [toRat_zero]
    have := hw.toRat_nonneg hf
    positivity

/-- **The bound of the parts is one of the whole.** -/
theorem combine_le (ha : Capped a) (hb : Capped b) (hza : ¬ Scalar.isZero a.weight)
    (hw : Scalar.isFinite (combine a b).weight) (h2 : Scalar.isFinite (combine a b).m2)
    (h4 : Scalar.isFinite (combine a b).m4) :
    toRat (combine a b).m2 ≤ 2 ^ spreadBits (spec α) * toRat (combine a b).weight := by
  change Scalar.isFinite (a.weight + b.weight) at hw
  show _ ≤ _ * toRat (a.weight + b.weight)
  obtain ⟨hfa, hfb⟩ := finite_of_add hw
  obtain ⟨hsum, hterm⟩ := finite_of_add h2
  obtain ⟨h2a, h2b⟩ := finite_of_add hsum
  obtain ⟨h4a, h4b, hD⟩ := finite_of_combine_m4 h4
  have hpos : 0 < toRat (a.weight + b.weight) := by
    have h0 := (ha.weight.add hb.weight).toRat_nonneg hw
    refine h0.lt_of_ne fun h => ha.weight.add_not_isZero hb.weight hza ?_
    exact (isZero_iff_toRat hw).mpr h.symm
  have hwsum := nearest_add hfa hfb
  have hmsum := nearest_add h2a h2b
  have hsums : toRat (a.m2 + b.m2) ≤ 2 ^ spreadBits (spec α) * toRat (a.weight + b.weight) := by
    refine (hwsum.rounds hw).scaled_le (hwsum.ties hw)
      ((representable a.weight).step.add (representable b.weight).step)
      (add_nonneg (ha.weight.toRat_nonneg hfa) (hb.weight.toRat_nonneg hfb))
      (hmsum.rounds hsum) (hmsum.ties hsum) ?_
    rw [mul_add]
    exact add_le_add (ha.le hfa h2a h4a) (hb.le hfb h2b h4b)
  refine ((nearest_add hsum hterm).rounds h2).absorbed
    ((representable (a.weight + b.weight)).mul_pow _) hsums ?_
  have hle := second_term_le (notBelow_mul_self _) hD ha.weight hb.weight hw hpos hterm
  calc 4 * 2 ^ (spec α).mantissaBits * _
      ≤ 4 * 2 ^ (spec α).mantissaBits * (8 * (2 ^ 2 ^ ((spec α).exponentBits - 2) *
        toRat (a.weight + b.weight))) := mul_le_mul_of_nonneg_left hle (by positivity)
    _ = 2 ^ spreadBits (spec α) * toRat (a.weight + b.weight) := by
      rw [spreadBits, pow_add, pow_add]
      ring

/-- **Merges keep the bound.** -/
theorem merge (ha : Capped a) (hb : Capped b) : Capped (a.merge b) := by
  refine ⟨isAmount_merge ha.weight hb.weight,
    notBelow_m2_merge ha.notBelow hb.notBelow ha.weight hb.weight, ?_⟩
  rcases merge_cases a b with ⟨-, h⟩ | ⟨-, h⟩ | ⟨hza, -, h⟩ <;> rw [h]
  · exact ha.le
  · exact hb.le
  · exact combine_le ha hb hza

variable {m : Moments α} {n : UInt64}

/-- **The variance of finite moments** is finite, whatever the number of observations. -/
theorem upTo_variance (h : Capped m) (hf : m.AllFinite) (hz : ¬ Scalar.isZero m.weight)
    (hn : 2 ≤ n) (hroom : spreadBits (spec α) + 64 < 2 ^ ((spec α).exponentBits - 1)) :
    UpTo 1 (spreadBits (spec α) + 64) (m.variance n) := by
  obtain ⟨hw, -, h2, -, h4⟩ := hf
  have hr {e : ℕ} (he : e ≤ spreadBits (spec α) + 64) : Room α 1 e := room_one (he.trans_lt hroom)
  have h0 := h.weight.toRat_nonneg hw
  have hpos : 0 < toRat m.weight :=
    h0.lt_of_ne fun h => hz ((isZero_iff_toRat hw).mpr h.symm)
  have hplain : UpTo 1 (spreadBits (spec α)) (m.m2 / m.weight) := by
    refine .of_nearest (nearest_div h2 hw hz) ?_ (hr (by omega))
    rw [abs_div, abs_of_nonneg ((notBelow_iff h2).mp h.notBelow), abs_of_pos hpos,
      div_le_iff₀ hpos, Nat.cast_one, one_mul]
    exact h.le hw h2 h4
  have hcount : UpTo 1 64 (Scalar.ofCount n : α) := upTo_ofCount n.toNat_lt.le (hr (by omega))
  exact (hplain.mul hcount (hr (le_refl _))).div (atLeast_ofCount_pred hn) (by omega)
    (hr (le_refl _))

end Capped

end Moments

/-! ## Sessions -/

namespace Summary

variable {s : Summary α} {ω : Type}

omit [BinaryScalar α] in
/-- What merges of moments keep, sessions keep, even where counts wrap. -/
theorem keeps_moments {P : Moments α → Prop} (hempty : P Moments.empty)
    (hpoint : ∀ {o : Observation α}, o.Valid → P (.point o.value o.weight))
    (hmerge : ∀ {a b : Moments α}, P a → P b → P (a.merge b)) :
    Keeps fun (s : Summary α) _ => P s.moments where
  empty := hempty
  commit h ho := hmerge h (hpoint ho)
  merge {s t _ _} hs ht := by
    unfold Summary.merge
    split
    · exact hs
    · exact hmerge hs ht

theorem capped_keeps : Keeps fun (s : Summary α) _ => s.moments.Capped :=
  keeps_moments (.concentrated isAmount_zero 0) (fun ho => .concentrated (isAmount_of_valid ho) _)
    Moments.Capped.merge

/-- Where there is an answer, it is a finite amount. -/
def FiniteAmount (q : Except (Fault ω) α) : Prop :=
  ∀ x, q = .ok x → Scalar.isFinite x ∧ IsAmount x

/-- What is made of the variance of finite moments is a finite amount. -/
theorem spread_finite (hroom : Moments.spreadBits (spec α) + 64 < 2 ^ ((spec α).exponentBits - 1))
    (h : s.moments.Capped) (hf : s.moments.AllFinite) :
    FiniteAmount (s.variance : Except (Fault ω) α) ∧
      FiniteAmount (s.standardDeviation : Except (Fault ω) α) ∧
      FiniteAmount (s.standardError : Except (Fault ω) α) := by
  have hv {v : α} (hv : (s.variance : Except (Fault ω) α) = .ok v) :
      UpTo 1 (Moments.spreadBits (spec α) + 64) v ∧ IsAmount v := by
    obtain ⟨h2, hz, rfl⟩ := of_variance hv
    exact ⟨h.upTo_variance hf hz h2 hroom,
      isAmount_variance h.weight h.notBelow (fun _ => hf.2.2.1) hv⟩
  refine ⟨fun v h => ⟨(hv h).1.1, (hv h).2⟩, fun x hx => ?_, fun x hx => ?_⟩
  · obtain ⟨v, h, rfl⟩ := of_standardDeviation hx
    exact ⟨finite_sqrt (hv h).1.1 (hv h).2.notBelow, (hv h).2.sqrt⟩
  · obtain ⟨v, h, rfl⟩ := of_standardError hx
    obtain ⟨hup, hamount⟩ := hv h
    have hcount := atLeast_ofCount (α := α) (e := 1)
      (UInt64.le_iff_toNat_le.mp (of_variance h).1)
    have hshare := hamount.div hcount.isAmount (.inr hcount.1) hcount.not_isZero
    have hfinite := hup.div (g := Moments.spreadBits (spec α) + 64) hcount (by omega)
      (room_one hroom)
    exact ⟨finite_sqrt hfinite.1 hshare.notBelow, hshare.sqrt⟩

variable [Wide α ω]

/-- **The spread of finite moments is finite**, in every session, if the format has as much room
above its numbers as the 64-bit one. -/
theorem session_spread_finite
    (hroom : Moments.spreadBits (spec α) + 64 < 2 ^ ((spec α).exponentBits - 1))
    (cs : List (String × Command α)) (name : String) :
    let s := session cs name
    s.moments.AllFinite → FiniteAmount (s.variance : Except (Fault ω) α) ∧
      FiniteAmount (s.standardDeviation : Except (Fault ω) α) ∧
      FiniteAmount (s.standardError : Except (Fault ω) α) :=
  fun hf => spread_finite hroom (capped_keeps.run cs name) hf

end Summary

end RunningStats
