import RunningStats.Proofs.Exact.Sum
import RunningStats.Summary.Basic

/-!
# The total that a compensated sum represents

A compensated sum stands for `sum - compensation`, whatever the two are: a state that comes from
elsewhere may hold any excess. Without rounding, a term raises this total by itself and a merge
raises it by the total of the other sum, and either of them leaves no excess. With the excess taken
in the other direction, at either place, only the states without any would come out right.

* `add_eq_exactly`, `merge_eq_exactly`: one step, from any state.
* `Course` is the history of a sum, a tree of additions and merges over states and lists that it
  starts from, and `Course.total` is what all of these amount to.
* **`represents_total`**: a history ends with the total that went into it, and with no excess unless
  nothing ever happened to the sum.
-/

namespace RunningStats

variable {α : Type} [Scalar α] {K : Type} [ExactScalar K]

namespace CompensatedSum

/-! ## One step -/

/-- The total that a state stands for. -/
def represented (s : CompensatedSum K) : K := s.sum - s.compensation

@[simp] theorem represented_exactly (x : K) : (exactly x).represented = x := sub_zero x

theorem add_eq_exactly (s : CompensatedSum K) (x : K) : s.add x = exactly (s.represented + x) :=
  add_eq s x

/-- The excess of the other sum is taken back from its rounded total. -/
theorem merge_eq_exactly (s t : CompensatedSum K) :
    s.merge t = exactly (s.represented + t.represented) := by
  have h : s.represented + t.sum + -t.compensation = s.represented + t.represented := by
    rw [represented, represented]
    ring
  rw [merge, add_eq_exactly, add_eq_exactly, represented_exactly, h]

/-! ## Histories -/

/-- How a sum comes about: it is found in some state or collected from a list, and then terms are
added to it and other sums merged into it. -/
inductive Course (α : Type) where
  | found (s : CompensatedSum α)
  | collected (xs : List α)
  | added (c : Course α) (x : α)
  | merged (c d : Course α)

namespace Course

/-- The state that a history ends in. -/
def state : Course α → CompensatedSum α
  | found s => s
  | collected xs => ofList xs
  | added c x => c.state.add x
  | merged c d => c.state.merge d.state

/-- The states that are found, in order. -/
def states : Course α → List (CompensatedSum α)
  | found s => [s]
  | collected _ => []
  | added c _ => c.states
  | merged c d => c.states ++ d.states

/-- The terms that are collected or added, in order. -/
def terms : Course α → List α
  | found _ => []
  | collected xs => xs
  | added c x => c.terms ++ [x]
  | merged c d => c.terms ++ d.terms

/-- Whether anything happened to the sum since it was found. -/
def Received : Course α → Prop
  | found _ => False
  | _ => True

/-- What the states represent, together with the terms. -/
def total (c : Course K) : K := (c.states.map represented).sum + c.terms.sum

variable (c d : Course K)

theorem total_found (s : CompensatedSum K) : (found s).total = s.represented := by
  simp [total, states, terms]

theorem total_collected (xs : List K) : (collected xs).total = xs.sum := by
  simp [total, states, terms]

theorem total_added (x : K) : (added c x).total = c.total + x := by
  simp only [total, states, terms, List.sum_append, List.sum_singleton]
  ring

theorem total_merged : (merged c d).total = c.total + d.total := by
  simp only [total, states, terms, List.map_append, List.sum_append]
  ring

/-- **Every history represents its total.** -/
theorem represented_state : c.state.represented = c.total := by
  induction c with
  | found s => rw [state, total_found]
  | collected xs => rw [state, ofList_eq_exactly, represented_exactly, total_collected]
  | added c x ih => rw [state, add_eq_exactly, represented_exactly, ih, total_added]
  | merged c d ihc ihd =>
    rw [state, merge_eq_exactly, represented_exactly, ihc, ihd, total_merged]

variable {c}

/-- The last thing that happened left no excess, so the rounded total is all there is. -/
theorem state_eq_exactly (h : c.Received) : c.state = exactly c.total := by
  cases c with
  | found s => exact h.elim
  | collected xs => rw [state, ofList_eq_exactly, total_collected]
  | added c x => rw [state, add_eq_exactly, represented_state, total_added]
  | merged c d => rw [state, merge_eq_exactly, represented_state, represented_state, total_merged]

end Course

/-! ## The represented total is kept -/

/-- **A compensated sum represents its total**, from any state of `sum` and `compensation`. A term
raises `sum - compensation` by itself, a merge raises it by that of the other sum, and each of them
leaves a compensation of zero. So a history of additions and merges represents all the states that
it starts from and all the terms added, and its sum is that total as soon as anything was added to
it or merged into it; a list is collected to its sum. The sums that a summary keeps of what lies
below zero are merged in the same way, whatever either summary holds there. -/
theorem represents_total :
    (∀ (s : CompensatedSum K) (x : K),
      (s.add x).represented = s.represented + x ∧ (s.add x).compensation = 0 ∧
        (s.add x).sum = s.represented + x) ∧
    (∀ s t : CompensatedSum K,
      (s.merge t).represented = s.represented + t.represented ∧ (s.merge t).compensation = 0 ∧
        (s.merge t).sum = s.represented + t.represented) ∧
    (∀ c : Course K,
      c.state.represented = (c.states.map represented).sum + c.terms.sum ∧
        (c.Received → c.state.compensation = 0 ∧
          c.state.sum = (c.states.map represented).sum + c.terms.sum)) ∧
    (∀ xs : List K, (ofList xs).sum = xs.sum) ∧
    ∀ s t : Summary K, t.samples ≠ 0 →
      (s.merge t).downsideWeight =
        exactly (s.downsideWeight.represented + t.downsideWeight.represented) ∧
      (s.merge t).downsideSquares =
        exactly (s.downsideSquares.represented + t.downsideSquares.represented) := by
  refine ⟨fun s x => ?_, fun s t => ?_, fun c => ⟨c.represented_state, fun h => ?_⟩, fun xs => ?_,
    fun s t h => ?_⟩
  · rw [add_eq_exactly, represented_exactly]
    exact ⟨rfl, rfl, rfl⟩
  · rw [merge_eq_exactly, represented_exactly]
    exact ⟨rfl, rfl, rfl⟩
  · rw [Course.state_eq_exactly h]
    exact ⟨rfl, rfl⟩
  · rw [ofList_eq_exactly, sum_exactly]
  · rw [Summary.merge, if_neg h]
    exact ⟨merge_eq_exactly _ _, merge_eq_exactly _ _⟩

/-- Rational states with excesses of both signs, merged into one that had no term of its own, and a
summary restored with such states, merged into an empty one. -/
theorem represents_total_restored :
    let c : Course ℚ :=
      .merged (.found ⟨5, 2⟩) (.merged (.found ⟨1, -3⟩) (.added (.collected [1, 2]) 4))
    let s : Summary ℚ :=
      { Summary.empty with samples := 1, downsideWeight := ⟨5, 2⟩, downsideSquares := ⟨1, -3⟩ }
    c.Received ∧ c.state.compensation = 0 ∧ c.state.sum = 14 ∧ s.samples ≠ 0 ∧
      (Summary.empty.merge s).downsideWeight = exactly 3 ∧
      (Summary.empty.merge s).downsideSquares = exactly 4 := by
  intro c s
  have hc : c.Received := trivial
  have htotal : (c.states.map represented).sum + c.terms.sum = 14 := by decide +kernel
  have hs : s.samples ≠ 0 := by decide
  have hweight : Summary.empty.downsideWeight.represented + s.downsideWeight.represented = 3 := by
    decide +kernel
  have hsquares :
      Summary.empty.downsideSquares.represented + s.downsideSquares.represented = 4 := by
    decide +kernel
  obtain ⟨-, -, hcourse, -, hsummary⟩ := represents_total (K := ℚ)
  obtain ⟨hcompensation, hsum⟩ := (hcourse c).2 hc
  obtain ⟨hw, hq⟩ := hsummary Summary.empty s hs
  rw [hweight] at hw
  rw [hsquares] at hq
  exact ⟨hc, hcompensation, hsum.trans htotal, hs, hw, hq⟩

end CompensatedSum

end RunningStats
