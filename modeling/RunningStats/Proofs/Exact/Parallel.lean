import RunningStats.Proofs.Exact.Stream

/-!
# Split ingestion refines sequential ingestion

A list may be cut into any consecutive pieces, empty ones among them, and the summaries of the
pieces merged along any tree, with empty summaries joined in anywhere. In the arithmetic of any
scalar type this fails on the lists that sequential ingestion refuses, though where several
observations are refused either fault may be reported; one that works from left to right reports
the same fault (`summarize_eq_error_iff`). In exact arithmetic what it yields, if it does not
fail, is the summary that sequential ingestion leaves.

* `Yields.fault`, `Yields.valid`: a fault that is reported is one of the list's observations, and a
  summary comes only of a list without;
* `parallel_refines_sequential`: all of this for paired values and weights.
-/

namespace RunningStats

open Summary

namespace SplitTree

variable {α ω : Type} [Scalar α] [Wide α ω] {t : SplitTree (Observation α)}

/-- Working from left to right is one way to work side by side. -/
theorem yields_summarize : ∀ t : SplitTree (Observation α), t.Yields (t.summarize)
  | idle => .idle
  | piece os => .piece os
  | join l r => by
    have hl := yields_summarize l
    have hr := yields_summarize r
    rw [summarize]
    cases hls : l.summarize with
    | error e =>
      rw [hls] at hl
      exact .left hl
    | ok s =>
      rw [hls] at hl
      cases hrs : r.summarize with
      | error e =>
        rw [hrs] at hr
        exact .right hr
      | ok u =>
        rw [hrs] at hr
        exact .join hl hr

/-- **Working from left to right**, the fault is that of the first observation that has one. -/
theorem summarize_cases : ∀ t : SplitTree (Observation α),
    (Observation.firstInvalid t.items = none ∧ ∃ s, t.summarize = .ok s) ∨
      ∃ o, Observation.firstInvalid t.items = some o ∧ t.summarize = .error o.fault
  | idle => .inl ⟨rfl, _, rfl⟩
  | piece os => by
    rw [items, summarize, summarizePiece_eq, result_addAll]
    cases Observation.firstInvalid os with
    | none => exact .inl ⟨rfl, _, rfl⟩
    | some o => exact .inr ⟨o, rfl, rfl⟩
  | join l r => by
    rw [items, summarize, Observation.firstInvalid_append]
    obtain ⟨hl, s, hs⟩ | ⟨o, hl, ho⟩ := summarize_cases l
    · rw [hl, hs, Option.none_or]
      obtain ⟨hr, u, hu⟩ | ⟨p, hr, hp⟩ := summarize_cases r
      · exact .inl ⟨hr, _, by rw [hu]; rfl⟩
      · exact .inr ⟨p, hr, by rw [hp]; rfl⟩
    · exact .inr ⟨o, by rw [hl]; rfl, by rw [ho]; rfl⟩

/-- So it fails like sequential ingestion of the whole list. -/
theorem summarize_eq_error_iff (e : Fault ω) :
    t.summarize = .error e ↔ (addAll t.items).result empty = .error e := by
  rw [result_addAll]
  obtain ⟨h, s, hs⟩ | ⟨o, h, ho⟩ := summarize_cases t
  · rw [h, hs]
    simp
  · rw [h, ho]

namespace Yields

/-- A fault that is reported is that of an observation in the list. -/
theorem fault {e : Fault ω} (h : t.Yields (.error e)) :
    ∃ o ∈ t.items, ¬ o.Valid ∧ e = o.fault := by
  generalize hr : (Except.error e : Except (Fault ω) (Summary α)) = r at h
  induction h with
  | idle => cases hr
  | piece os =>
    rw [summarizePiece_eq, result_addAll] at hr
    cases hf : Observation.firstInvalid os with
    | none =>
      rw [hf] at hr
      cases hr
    | some o =>
      rw [hf] at hr
      obtain ⟨ho, hv⟩ := Observation.firstInvalid_eq_some hf
      exact ⟨o, ho, hv, Except.error.inj hr⟩
  | join => cases hr
  | left _ ih =>
    obtain ⟨o, ho, h⟩ := ih hr
    exact ⟨o, List.mem_append.mpr (.inl ho), h⟩
  | right _ ih =>
    obtain ⟨o, ho, h⟩ := ih hr
    exact ⟨o, List.mem_append.mpr (.inr ho), h⟩

/-- Where no fault is reported there is no choice. -/
theorem summarize_eq {s : Summary α} (h : t.Yields (.ok s)) : t.summarize = .ok s := by
  generalize hr : (Except.ok s : Except (Fault ω) (Summary α)) = r at h
  induction h generalizing s with
  | idle => rfl
  | piece os => rfl
  | join _ _ ihl ihr =>
    rw [summarize, ihl rfl, ihr rfl]
    rfl
  | left => cases hr
  | right => cases hr

theorem valid {s : Summary α} (h : t.Yields (.ok s)) : ∀ o ∈ t.items, o.Valid := by
  obtain ⟨hf, -⟩ | ⟨o, -, ho⟩ := summarize_cases t
  · exact Observation.firstInvalid_eq_none_iff.mp hf
  · rw [h.summarize_eq] at ho
    cases ho

end Yields

end SplitTree

namespace Summary

section AnyScalar

variable {α ω : Type} [Scalar α] [Wide α ω] {values weights : List α}
  {r : Except (Fault ω) (Summary α)}

theorem parallel_ofWeighted (plan : SplitPlan (Observation α)) (values weights : List α) :
    Parallel values weights (ofWeighted plan values weights) := by
  rw [ofWeighted_eq, Parallel]
  by_cases hl : values.length = weights.length
  · rw [if_pos hl, if_pos hl]
    exact ⟨_, plan.items_tree _, SplitTree.yields_summarize _⟩
  · rw [if_neg hl, if_neg hl]

theorem ofWeighted_eq_error_iff (plan : SplitPlan (Observation α)) (e : Fault ω) :
    ofWeighted plan values weights = .error e ↔
      (addWeighted values weights).result empty = .error e := by
  rw [ofWeighted_eq, result_addWeighted]
  by_cases hl : values.length = weights.length
  · rw [if_pos hl, if_pos hl, SplitTree.summarize_eq_error_iff, plan.items_tree]
  · rw [if_neg hl, if_neg hl]

/-- Lists of equal length fail just where some pair is not valid. -/
theorem Parallel.error_iff (h : Parallel values weights r) (hl : values.length = weights.length) :
    (∃ e, r = .error e) ↔ ∃ o ∈ Observation.zip values weights, ¬ o.Valid := by
  rw [Parallel, if_pos hl] at h
  obtain ⟨t, ht, hy⟩ := h
  rw [← ht]
  cases r with
  | ok s =>
    constructor
    · rintro ⟨e, he⟩
      cases he
    · rintro ⟨o, ho, hv⟩
      exact absurd (hy.valid o ho) hv
  | error e =>
    obtain ⟨o, ho, hv, -⟩ := hy.fault
    exact ⟨fun _ => ⟨o, ho, hv⟩, fun _ => ⟨e, rfl⟩⟩

/-- Only lists of different lengths are refused for their lengths. -/
theorem Parallel.lengthMismatch_iff (h : Parallel values weights r) (m n : Nat) :
    r = .error (.lengthMismatch m n) ↔
      values.length ≠ weights.length ∧ m = values.length ∧ n = weights.length := by
  by_cases hl : values.length = weights.length
  · rw [Parallel, if_pos hl] at h
    obtain ⟨t, -, hy⟩ := h
    constructor
    · rintro rfl
      obtain ⟨o, -, -, hf⟩ := hy.fault
      exact absurd hf.symm (o.fault_ne_lengthMismatch m n)
    · exact fun hn => absurd hl hn.1
  · rw [Parallel, if_neg hl] at h
    rw [h]
    constructor
    · rintro ⟨⟩
      exact ⟨hl, rfl, rfl⟩
    · rintro ⟨-, rfl, rfl⟩
      rfl

end AnyScalar

/-- In exact arithmetic, pieces that are summarized and merged leave what the whole list does. -/
theorem Parallel.eq_sequential {K ω : Type} [ExactScalar K] [Wide K ω] {values weights : List K}
    {s : Summary K} (h : Parallel values weights (.ok s)) (hc : values.length < 2 ^ 64) :
    (addWeighted values weights).result empty = .ok s := by
  unfold Parallel at h
  split at h
  case isFalse => cases h
  rename_i hl
  obtain ⟨t, ht, hy⟩ := h
  have hv := hy.valid
  have hlen : t.items.length < 2 ^ 64 := by
    rw [ht, Observation.zip, List.length_zipWith]
    omega
  obtain ⟨s', hs', hclosed⟩ := closedForm_tracks.summarize t hv hlen
  obtain rfl : s' = s := Except.ok.inj (hs'.symm.trans hy.summarize_eq)
  have hseq := closedForm_tracks.foldl_commit t.items closedForm_tracks.empty hv
    (by rw [Multiset.card_zero]; omega)
  rw [zero_add] at hseq
  rw [result_addWeighted, if_pos hl, ← ht, result_addAll_of_valid _ hv, hclosed.unique hseq]

/-- **Split ingestion refines sequential ingestion**, however the pairs are cut into consecutive
pieces, along whatever tree these are merged and whichever fault is reported first. Lists of
different lengths are refused as such, others just for an invalid pair, and by a plan that works
from left to right, such as the one by halves, for the one that sequential ingestion is refused
for; else there is a summary, in exact arithmetic that of sequential ingestion. The count must not
wrap, which takes a list longer than memory holds. -/
theorem parallel_refines_sequential {α ω K σ : Type} [Scalar α] [Wide α ω] [ExactScalar K]
    [Wide K σ] :
    (∀ (values weights : List α) (r : Except (Fault ω) (Summary α)), Parallel values weights r →
      (∀ m n, r = .error (.lengthMismatch m n) ↔
        values.length ≠ weights.length ∧ m = values.length ∧ n = weights.length) ∧
      (values.length = weights.length →
        ((∃ e, r = .error e) ↔ ∃ o ∈ Observation.zip values weights, ¬ o.Valid))) ∧
    (∀ (plan : SplitPlan (Observation α)) (values weights : List α),
      Parallel values weights (ofWeighted plan values weights) ∧
      ∀ e, ofWeighted plan values weights = .error e ↔
        (addWeighted values weights).result empty = .error e) ∧
    (∀ (values weights : List K) (s : Summary K), values.length < 2 ^ 64 →
      Parallel values weights (.ok s) → (addWeighted values weights).result empty = .ok s) :=
  ⟨fun _ _ _ h => ⟨h.lengthMismatch_iff, h.error_iff⟩,
    fun plan values weights =>
      ⟨parallel_ofWeighted plan values weights, fun _ => ofWeighted_eq_error_iff plan _⟩,
    fun _ _ _ hc h => h.eq_sequential hc⟩

/-- Rationals in pieces of one and of two, empty summaries joined in; and two weights below zero
of which the second is reported. -/
theorem parallel_refines_sequential_pieces :
    let values : List ℚ := [-2, 3, 5]
    let weights : List ℚ := [1, 0, 2]
    let refused : Except (Fault Float) (Summary Float) := .error (.invalidWeight (-2))
    (∃ s, values.length < 2 ^ 64 ∧ Parallel values weights (.ok s) ∧
      (addWeighted values weights).result empty = .ok s) ∧
    Parallel [1, 2] [-1, -2] refused ∧
      ∃ o ∈ Observation.zip [(1 : Float), 2] [-1, -2], ¬ o.Valid := by
  intro values weights refused
  have hc : values.length < 2 ^ 64 := by decide
  have hpar : ∃ s, Parallel values weights (.ok s) := by
    let t : SplitTree (Observation ℚ) :=
      .join .idle (.join (.piece [⟨-2, 1⟩]) (.join .idle (.piece [⟨3, 0⟩, ⟨5, 2⟩])))
    have hv : Observation.firstInvalid t.items = none := by decide +kernel
    obtain ⟨-, s, hs⟩ | ⟨o, ho, -⟩ := SplitTree.summarize_cases t
    · exact ⟨s, t, rfl, hs ▸ SplitTree.yields_summarize t⟩
    · rw [hv] at ho
      cases ho
  have hrefused : Parallel [1, 2] [-1, -2] refused := by
    have hpiece : (SplitTree.piece [(⟨2, -2⟩ : Observation Float)]).Yields refused := by
      have hfirst : Observation.firstInvalid [(⟨2, -2⟩ : Observation Float)] = some ⟨2, -2⟩ := by
        decide +kernel
      have h := SplitTree.Yields.piece [(⟨2, -2⟩ : Observation Float)]
      rw [summarizePiece_eq, result_addAll, hfirst] at h
      exact h
    exact ⟨.join (.piece [⟨1, -1⟩]) (.piece [⟨2, -2⟩]), rfl, .right hpiece⟩
  obtain ⟨hfault, -, hvalue⟩ :=
    parallel_refines_sequential (α := Float) (ω := Float) (K := ℚ) (σ := ℚ)
  obtain ⟨s, hs⟩ := hpar
  exact ⟨⟨s, hc, hs, hvalue values weights s hc hs⟩, hrefused,
    ((hfault _ _ _ hrefused).2 rfl).mp ⟨_, rfl⟩⟩

end Summary

end RunningStats
