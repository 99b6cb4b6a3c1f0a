import Mathlib.Algebra.Order.Group.Multiset
import RunningStats.Proofs.Ingestion

/-!
# What the summaries of a session hold

`Holdings` says which observations stand behind each name of a session, as multisets that no
summary is computed from: `Command.holding` is what a command leaves a name with, `holdAll` what a
list of commands does. An observation is held if the call that brought it was accepted.

`Keeps R` says that a relation `R` between a summary and a multiset of observations survives one
observation and one merge. Then it survives everything: `Keeps.addAll` (bulk ingestion),
`Keeps.summarize` (every plan of split ingestion), `Keeps.operation` (every command) and
**`Keeps.run`** (every session, from no observations).

`Tracks R` asks this only while fewer than `2 ^ 64` observations are held, so that no count wraps,
and `Tracks.run` has `R` under every name that ends up below the bound: whatever went into its
summary held no more (`Tracks.keeps`).
-/

namespace RunningStats.Summary

variable {α ω : Type} [Scalar α] [Wide α ω]

/-! ## Holdings -/

/-- The observations held under each name. -/
abbrev Holdings (α : Type) := Registers (Multiset (Observation α))

/-- What a list brings in: all of it if every observation is valid, else nothing. -/
def taken (os : List (Observation α)) : Multiset (Observation α) :=
  if ∀ o ∈ os, o.Valid then os else 0

/-- What a name holds after a command. -/
def Command.holding (hs : Holdings α) (target : String) : Command α → Multiset (Observation α)
  | reset => 0
  | copy source => hs.get source
  | add o => hs.get target + taken [o]
  | addValue value => hs.get target + taken [Observation.unit value]
  | addValues values => hs.get target + taken (values.map Observation.unit)
  | addWeighted values weights =>
    if values.length = weights.length then
      hs.get target + taken (Observation.zip values weights)
    else hs.get target
  | replaceWith _ values weights =>
    if values.length = weights.length ∧ ∀ o ∈ Observation.zip values weights, o.Valid then
      Observation.zip values weights
    else hs.get target
  | merge source => hs.get target + hs.get source

/-- The holdings after a list of commands, each with the name it works on. -/
def holdAll (hs : Holdings α) (cs : List (String × Command α)) : Holdings α :=
  cs.foldl (fun hs c => hs.set c.1 (c.2.holding hs c.1)) hs

/-- The summary under a name after a session that starts with nothing. -/
def session (cs : List (String × Command α)) (name : String) : Summary α :=
  (runAll (Registers.init empty) cs).get name

/-- The observations held under a name after a session that starts with nothing. -/
def held (cs : List (String × Command α)) (name : String) : Multiset (Observation α) :=
  (holdAll (Registers.init 0) cs).get name

/-! ## Split ingestion fails on the same lists -/

theorem summarize_error : ∀ t : SplitTree (Observation α), (¬ ∀ o ∈ t.items, o.Valid) →
    ∃ e, t.summarize = .error e
  | .idle, h => absurd (fun _ ho => absurd ho List.not_mem_nil) h
  | .piece os, h => by
    rw [SplitTree.items] at h
    obtain ⟨e, he⟩ := run_addAll_of_not_valid empty h
    exact ⟨e, by rw [SplitTree.summarize, summarizePiece_eq, Ingestion.result, he]⟩
  | .join l r, h => by
    rw [SplitTree.summarize]
    cases hl : l.summarize with
    | error e => exact ⟨e, rfl⟩
    | ok s =>
      -- the left part has no fault, so the right one has
      have hlv : ∀ o ∈ l.items, o.Valid := by
        by_contra hn
        obtain ⟨e, he⟩ := summarize_error l hn
        rw [hl] at he
        cases he
      have hrv : ¬ ∀ o ∈ r.items, o.Valid := fun hr =>
        h fun o ho => (List.mem_append.mp ho).elim (hlv o) (hr o)
      obtain ⟨e, he⟩ := summarize_error r hrv
      exact ⟨e, by rw [he]; rfl⟩

theorem ofWeighted_eq (plan : SplitPlan (Observation α)) (values weights : List α) :
    ofWeighted plan values weights =
      if values.length = weights.length then
        (plan.tree (Observation.zip values weights)).summarize
      else .error (.lengthMismatch values.length weights.length) := by
  unfold ofWeighted Observation.pair
  split <;> rfl

theorem ofWeighted_error (plan : SplitPlan (Observation α)) {values weights : List α}
    (h : ¬ (values.length = weights.length ∧ ∀ o ∈ Observation.zip values weights, o.Valid)) :
    ∃ e, ofWeighted plan values weights = .error e := by
  rw [ofWeighted_eq]
  by_cases hl : values.length = weights.length
  · rw [if_pos hl]
    refine summarize_error _ fun hv => h ⟨hl, ?_⟩
    rwa [plan.items_tree] at hv
  · exact ⟨_, if_neg hl⟩

/-! ## Relations that ingestion keeps -/

/-- `R` holds of nothing, and survives one observation and one merge. -/
structure Keeps (R : Summary α → Multiset (Observation α) → Prop) : Prop where
  empty : R empty 0
  commit : ∀ {s H o}, R s H → o.Valid → R (s.commit o) (o ::ₘ H)
  merge : ∀ {s t H K}, R s H → R t K → R (s.merge t) (H + K)

namespace Keeps

variable {R : Summary α → Multiset (Observation α) → Prop} (hR : Keeps R)
include hR

theorem foldl_commit : ∀ (os : List (Observation α)) {s : Summary α}
    {H : Multiset (Observation α)}, R s H → (∀ o ∈ os, o.Valid) →
    R (os.foldl Summary.commit s) (H + os)
  | [], s, H, h, _ => by simpa using h
  | o :: os, s, H, h, hv => by
    have h1 : R (s.commit o) (o ::ₘ H) := hR.commit h (hv o List.mem_cons_self)
    have h2 := foldl_commit os h1 fun p hp => hv p (List.mem_cons_of_mem o hp)
    rw [List.foldl_cons, ← Multiset.cons_coe, Multiset.add_cons]
    rwa [Multiset.cons_add] at h2

/-- Bulk ingestion either brings in the whole list or fails and brings in nothing. -/
theorem addAll {s : Summary α} {H : Multiset (Observation α)} (h : R s H)
    (os : List (Observation α)) :
    (∃ s', (addAll os).run s = .ok () s' ∧ R s' (H + taken os)) ∨
      (∃ e, (addAll os).run s = .error e s ∧ H + taken os = H) := by
  unfold taken
  by_cases hv : ∀ o ∈ os, o.Valid
  · rw [if_pos hv]
    exact .inl ⟨_, run_addAll_of_valid s hv, hR.foldl_commit os h hv⟩
  · rw [if_neg hv, add_zero]
    obtain ⟨e, he⟩ := run_addAll_of_not_valid s hv
    exact .inr ⟨e, he, rfl⟩

/-- Every plan of split ingestion yields a summary of the whole list. -/
theorem summarize : ∀ t : SplitTree (Observation α), (∀ o ∈ t.items, o.Valid) →
    ∃ s, t.summarize = .ok s ∧ R s t.items
  | .idle, _ => ⟨_, rfl, hR.empty⟩
  | .piece os, hv => by
    rw [SplitTree.items] at hv
    have h := hR.foldl_commit os hR.empty hv
    rw [zero_add] at h
    exact ⟨_, by rw [SplitTree.summarize, summarizePiece_eq, result_addAll_of_valid _ hv], h⟩
  | .join l r, hv => by
    obtain ⟨s, hs, hRs⟩ := summarize l fun o ho => hv o (List.mem_append.mpr (.inl ho))
    obtain ⟨t, ht, hRt⟩ := summarize r fun o ho => hv o (List.mem_append.mpr (.inr ho))
    refine ⟨s.merge t, by rw [SplitTree.summarize, hs, ht]; rfl, ?_⟩
    rw [SplitTree.items, ← Multiset.coe_add]
    exact hR.merge hRs hRt

variable {regs : Registers (Summary α)} {hs : Holdings α}

/-- Paired values and weights, summarized by any plan. -/
theorem ofWeighted (plan : SplitPlan (Observation α)) {values weights : List α}
    (hl : values.length = weights.length) (hv : ∀ o ∈ Observation.zip values weights, o.Valid) :
    ∃ s, Summary.ofWeighted plan values weights = .ok s ∧
      R s (Observation.zip values weights) := by
  have hi := plan.items_tree (Observation.zip values weights)
  obtain ⟨s, hs, hRs⟩ := hR.summarize (plan.tree (Observation.zip values weights)) (by rwa [hi])
  rw [hi] at hRs
  exact ⟨s, by rw [ofWeighted_eq, if_pos hl, hs], hRs⟩

/-- **Every command** either leaves a summary of the new holding, or fails with the summary and
the holding as they were. -/
theorem operation (h : ∀ name, R (regs.get name) (hs.get name)) (name : String)
    (c : Command α) :
    (∃ s, (c.operation regs).run (regs.get name) = .ok () s ∧ R s (c.holding hs name)) ∨
      (∃ e, (c.operation regs).run (regs.get name) = .error e (regs.get name) ∧
        c.holding hs name = hs.get name) := by
  cases c with
  | reset => exact .inl ⟨_, rfl, hR.empty⟩
  | copy source => exact .inl ⟨_, rfl, h source⟩
  | add o =>
    rw [Command.operation, ← addAll_singleton]
    exact hR.addAll (h name) _
  | addValue value =>
    rw [Command.operation, addValue, ← addAll_singleton]
    exact hR.addAll (h name) _
  | addValues values => exact hR.addAll (h name) _
  | addWeighted values weights =>
    rw [Command.operation, run_addWeighted, Command.holding]
    by_cases hl : values.length = weights.length
    · rw [if_pos hl, if_pos hl]
      exact hR.addAll (h name) _
    · rw [if_neg hl, if_neg hl]
      exact .inr ⟨_, rfl, rfl⟩
  | replaceWith plan values weights =>
    rw [Command.operation, Command.holding]
    by_cases hv : values.length = weights.length ∧
        ∀ o ∈ Observation.zip values weights, o.Valid
    · obtain ⟨s, hs, hRs⟩ := hR.ofWeighted plan hv.1 hv.2
      rw [if_pos hv, hs]
      exact .inl ⟨s, rfl, hRs⟩
    · obtain ⟨e, he⟩ := ofWeighted_error plan hv
      rw [if_neg hv, he]
      exact .inr ⟨e, rfl, rfl⟩
  | merge source => exact .inl ⟨_, rfl, hR.merge (h name) (h source)⟩

/-- One command keeps summaries and holdings related under every name. -/
theorem step (h : ∀ name, R (regs.get name) (hs.get name)) (c : Command α) (target : String) :
    ∀ name, R ((c.run regs target).1.get name)
      ((hs.set target (c.holding hs target)).get name) := by
  intro name
  by_cases hn : name = target
  · subst hn
    rw [Registers.get_set_self]
    obtain ⟨s, hs', hRs⟩ | ⟨e, he, hh⟩ := hR.operation h name c
    · rw [Command.run_of_ok hs', Registers.get_set_self]
      exact hRs
    · rw [hh, Command.run_of_error he]
      exact h name
  · rw [Registers.get_set_of_ne _ _ hn]
    rw [Command.get_run_of_ne hn]
    exact h name

theorem steps : ∀ (cs : List (String × Command α)) {regs : Registers (Summary α)}
    {hs : Holdings α}, (∀ name, R (regs.get name) (hs.get name)) →
    ∀ name, R ((runAll regs cs).get name) ((holdAll hs cs).get name)
  | [], _, _, h => h
  | c :: cs, _, _, h => steps cs (hR.step h c.2 c.1)

/-- **Every session**: under every name, `R` relates the summary to what is held. -/
theorem run (cs : List (String × Command α)) (name : String) :
    R (session cs name) (held cs name) :=
  hR.steps cs (fun _ => hR.empty) name

end Keeps

/-! ## Relations kept while counts do not wrap -/

/-- `R` holds of nothing, and survives one observation and one merge that leave fewer than
`2 ^ 64` observations. -/
structure Tracks (R : Summary α → Multiset (Observation α) → Prop) : Prop where
  empty : R empty 0
  commit : ∀ {s H o}, R s H → o.Valid → H.card + 1 < 2 ^ 64 → R (s.commit o) (o ::ₘ H)
  merge : ∀ {s t H K}, R s H → R t K → H.card + K.card < 2 ^ 64 → R (s.merge t) (H + K)

/-- `R` holds under every name that holds fewer than `2 ^ 64` observations. -/
def Agree (R : Summary α → Multiset (Observation α) → Prop) (regs : Registers (Summary α))
    (hs : Holdings α) : Prop :=
  ∀ name, (hs.get name).card < 2 ^ 64 → R (regs.get name) (hs.get name)

namespace Tracks

variable {R : Summary α → Multiset (Observation α) → Prop} (hR : Tracks R)
include hR

/-- Whatever went into a summary held no more than the summary does, so the bound is kept along. -/
theorem keeps : Keeps fun (s : Summary α) H => H.card < 2 ^ 64 → R s H where
  empty _ := hR.empty
  commit h ho hc := by
    rw [Multiset.card_cons] at hc
    exact hR.commit (h (by omega)) ho hc
  merge hs ht hc := by
    rw [Multiset.card_add] at hc
    exact hR.merge (hs (by omega)) (ht (by omega)) hc

theorem foldl_commit (os : List (Observation α)) {s : Summary α} {H : Multiset (Observation α)}
    (h : R s H) (hv : ∀ o ∈ os, o.Valid) (hc : H.card + os.length < 2 ^ 64) :
    R (os.foldl Summary.commit s) (H + os) :=
  hR.keeps.foldl_commit os (fun _ => h) hv (by rwa [Multiset.card_add, Multiset.coe_card])

/-- Every plan of split ingestion yields a summary of the whole list. -/
theorem summarize (t : SplitTree (Observation α)) (hv : ∀ o ∈ t.items, o.Valid)
    (hc : t.items.length < 2 ^ 64) : ∃ s, t.summarize = .ok s ∧ R s t.items := by
  obtain ⟨s, hs, h⟩ := hR.keeps.summarize t hv
  exact ⟨s, hs, h (by rwa [Multiset.coe_card])⟩

theorem steps (cs : List (String × Command α)) {regs : Registers (Summary α)} {hs : Holdings α}
    (h : Agree R regs hs) : Agree R (runAll regs cs) (holdAll hs cs) :=
  hR.keeps.steps cs h

/-- **Every session**: under a name that ends up holding fewer than `2 ^ 64` observations, `R`
relates the summary to what is held. -/
theorem run (cs : List (String × Command α)) (name : String)
    (hc : (held cs name).card < 2 ^ 64) : R (session cs name) (held cs name) :=
  hR.steps cs (fun _ _ => hR.empty) name hc

end Tracks

end RunningStats.Summary
