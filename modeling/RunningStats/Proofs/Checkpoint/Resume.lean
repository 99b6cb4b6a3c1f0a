import RunningStats.Checkpoint.Resume
import RunningStats.Moments.TwoPass
import RunningStats.Proofs.Checkpoint.State
import RunningStats.Proofs.Ingestion

/-!
# Resuming from checkpoints

A run may stop after any of its commands, write out what is under some of its names, and go on in
other registers, into which nothing is carried over but the documents. A checkpoint holds the whole
state, excesses and unused extrema included, so the run ends as it would have ended without the
stop.

* `Accumulator.runAll` runs commands on sums or on moments, as `Summary.runAll` does on summaries.
* `Registers.Local` is what one command has to do with names: it writes to one, and what it writes
  depends on that one and on the names that it reads. A run then depends on the names of its
  commands alone (`Local.run_agree`) and writes to no others (`Local.run_frame`).
* **`checkpoints_faithful`** puts together what checkpoints hold, what they are read from, and runs
  that use them.
-/

namespace RunningStats

open Stored

/-! ## What a run depends on -/

namespace Registers

variable {σ κ : Type}

/-- A command writes to the name it works on, what it finds there and under its sources. -/
structure Local (step : Registers σ → String × κ → Registers σ) (sources : κ → List String) :
    Prop where
  frame : ∀ regs target c name, name ≠ target →
    (step regs (target, c)).get name = regs.get name
  agree : ∀ regs regs' target c, (∀ name ∈ target :: sources c, regs.get name = regs'.get name) →
    (step regs (target, c)).get target = (step regs' (target, c)).get target

/-- The commands of a run work on some names only and read no others. -/
def Within (sources : κ → List String) (names : List String) (cs : List (String × κ)) : Prop :=
  ∀ c ∈ cs, c.1 :: sources c.2 ⊆ names

namespace Local

variable {step : Registers σ → String × κ → Registers σ} {sources : κ → List String}
  (h : Local step sources) {names : List String} {cs : List (String × κ)}
  (hcs : Within sources names cs)
include h hcs

/-- A run leaves all other names as they are. -/
theorem run_frame (regs : Registers σ) {name : String} (hname : name ∉ names) :
    (cs.foldl step regs).get name = regs.get name := by
  induction cs generalizing regs with
  | nil => rfl
  | cons c cs ih =>
    obtain ⟨hc, hcs⟩ := List.forall_mem_cons.mp hcs
    have htarget : name ≠ c.1 := fun he => hname (he ▸ hc List.mem_cons_self)
    rw [List.foldl_cons, ih hcs, h.frame regs c.1 c.2 name htarget]

/-- A run ends alike in registers that are alike under its names. -/
theorem run_agree {regs regs' : Registers σ}
    (hregs : ∀ name ∈ names, regs.get name = regs'.get name) {name : String}
    (hname : name ∈ names) :
    (cs.foldl step regs).get name = (cs.foldl step regs').get name := by
  induction cs generalizing regs regs' with
  | nil => exact hregs name hname
  | cons c cs ih =>
    obtain ⟨hc, hcs⟩ := List.forall_mem_cons.mp hcs
    refine ih hcs fun other hother => ?_
    by_cases htarget : other = c.1
    · rw [htarget]
      exact h.agree regs regs' c.1 c.2 fun read hread => hregs read (hc hread)
    · rw [h.frame regs c.1 c.2 other htarget, h.frame regs' c.1 c.2 other htarget]
      exact hregs other hother

end Local

/-! ## Going on in other registers -/

variable [Stored σ] {format : RecordFormat}

/-- Checkpoints in a format take the place of what they are of: a name can be given what is under
another through its document; and if a run is stopped anywhere and the values under some names are
written out, the rest of it, if it needs no other names, can be run in any registers that these
documents are put into, and ends there with what it would have ended with under these names. -/
structure Resumes (format : RecordFormat)
    (run : Registers σ → List (String × κ) → Registers σ) (sources : κ → List String) : Prop where
  copies : ∀ (regs : Registers σ) (name source : String),
    regs.checkpoint name source format = some (regs.set name (regs.get source))
  continues : ∀ (regs fresh : Registers σ) (first rest : List (String × κ)) (names : List String),
    Within sources names rest →
      ∃ restored, fresh.restoreAll ((run regs first).saveAll names format) format = some restored ∧
        ∀ name, (run restored rest).get name =
          if name ∈ names then (run regs (first ++ rest)).get name else fresh.get name

section Lossless

variable (hlossless : ∀ s : σ, load (save s format) format = some s)
include hlossless

theorem restore_save (regs : Registers σ) (name : String) (s : σ) :
    regs.restore name (save s format) format = some (regs.set name s) := by
  rw [restore, hlossless, Option.map_some]

/-- What is restored from the documents of some registers is what they held. -/
theorem restoreAll_saveAll (regs fresh : Registers σ) (names : List String) :
    ∃ restored, fresh.restoreAll (regs.saveAll names format) format = some restored ∧
      ∀ name, restored.get name = if name ∈ names then regs.get name else fresh.get name := by
  induction names generalizing fresh with
  | nil => exact ⟨fresh, rfl, fun _ => rfl⟩
  | cons first names ih =>
    obtain ⟨restored, hrestored, hget⟩ := ih (fresh.set first (regs.get first))
    refine ⟨restored, ?_, fun name => ?_⟩
    · rw [← hrestored, saveAll, List.map_cons, restoreAll, List.foldlM_cons,
        restore_save hlossless]
      rfl
    · rw [hget]
      by_cases hname : name = first
      · simp [hname]
      · simp [hname, get_set_of_ne]

/-- **Whoever loses nothing and works name by name can go on from checkpoints.** -/
theorem Local.resumes {run : Registers σ → List (String × κ) → Registers σ}
    {step : Registers σ → String × κ → Registers σ} {sources : κ → List String}
    (h : Local step sources) (hrun : ∀ regs cs, run regs cs = cs.foldl step regs) :
    Resumes format run sources where
  copies regs name source := restore_save hlossless regs name (regs.get source)
  continues regs fresh first rest names hrest := by
    obtain ⟨restored, hrestored, hget⟩ := restoreAll_saveAll hlossless (run regs first) fresh names
    refine ⟨restored, hrestored, fun name => ?_⟩
    simp only [hrun, List.foldl_append] at hget ⊢
    split_ifs with hname
    · exact h.run_agree hrest (fun other hother => by rw [hget, if_pos hother]) hname
    · rw [h.run_frame hrest restored hname, hget, if_neg hname]

end Lossless

end Registers

/-! ## Runs of sums and of moments -/

/-- A type of running totals: what runs of sums and of moments are made of. -/
class Accumulator (σ : Type) (ι : outParam Type) where
  empty : σ
  /-- Take in one item. -/
  take : σ → ι → σ
  /-- The total of a list that is there as a whole. -/
  ofList : List ι → σ
  merge : σ → σ → σ

namespace Accumulator

variable {α : Type} [Scalar α]

instance : Accumulator (CompensatedSum α) α where
  empty := CompensatedSum.empty
  take := CompensatedSum.add
  ofList := CompensatedSum.ofList
  merge := CompensatedSum.merge

instance : Accumulator (Moments α) (Observation α) where
  empty := Moments.empty
  take m o := m.observe o.value o.weight
  ofList := Moments.ofObservations
  merge := Moments.merge

/-- What can be done to the total under a name. -/
inductive Command (ι : Type) where
  | reset
  /-- Take over the total under another name. -/
  | copy (source : String)
  /-- Take in items one after the other. -/
  | take (items : List ι)
  /-- Replace the total by that of a list. -/
  | replaceWith (items : List ι)
  | merge (source : String)

variable {σ ι : Type} [Accumulator σ ι]

/-- The total that a command puts under a name. -/
def Command.result (regs : Registers σ) (target : String) : Command ι → σ
  | reset => empty
  | copy source => regs.get source
  | take items => items.foldl Accumulator.take (regs.get target)
  | replaceWith items => ofList items
  | merge source => Accumulator.merge (regs.get target) (regs.get source)

/-- The names that a command reads besides the one it works on. -/
def Command.sources : Command ι → List String
  | copy source | merge source => [source]
  | _ => []

/-- The registers after a list of commands, each with the name it works on. -/
def runAll (regs : Registers σ) (cs : List (String × Command ι)) : Registers σ :=
  cs.foldl (fun regs c => regs.set c.1 (c.2.result regs c.1)) regs

theorem local_step : Registers.Local
    (fun (regs : Registers σ) (c : String × Command ι) => regs.set c.1 (c.2.result regs c.1))
    Command.sources where
  frame regs target c name hname := Registers.get_set_of_ne regs _ hname
  agree regs regs' target c hregs := by
    simp only [Registers.get_set_self]
    cases c <;> simp_all [Command.result, Command.sources]

end Accumulator

/-! ## Runs of summaries -/

namespace Summary

variable {α ω : Type}

/-- The names that a command reads besides the one it works on. -/
def Command.sources : Command α → List String
  | copy source | merge source => [source]
  | _ => []

variable [Scalar α] [Wide α ω]

/-- What a command does is a matter of what is under its sources. -/
theorem Command.operation_congr {c : Command α} {regs regs' : Registers (Summary α)}
    (h : ∀ name ∈ c.sources, regs.get name = regs'.get name) :
    (c.operation regs : Ingestion α ω Unit) = c.operation regs' := by
  cases c <;> simp_all [operation, sources]

theorem local_step : Registers.Local
    (fun (regs : Registers (Summary α)) (c : String × Command α) => (c.2.run regs c.1).1)
    Command.sources where
  frame regs target c name hname := Command.get_run_of_ne hname
  agree regs regs' target c hregs := by
    obtain ⟨htarget, hsources⟩ := List.forall_mem_cons.mp hregs
    simp only [Command.run, Command.operation_congr hsources, htarget]
    split <;> simp only [Registers.get_set_self]

end Summary

/-! ## What checkpoints are good for -/

open Document

variable {α : Type} [Scalar α] [RoundedScalar α] [Patterned α] [Wide α Float] [SpelledScalar α]

/-- **Checkpoints lose nothing and are read strictly**, in every format of records that is as
documented. For sums, moments, summaries and intervals: every state there is, whatever its numbers
and counts, is read back from its document as it was; a document is read just if it has every field
of the type with a document of its kind; and objects that agree on these fields are read alike, in
any order and with any others (`Faithful`). A number has one pattern, and all that is no number the
text `nan`. So a run of sums, moments or summaries that is stopped at any point can always go on in
other registers from what was written out there, and ends like the run without a stop (`Resumes`).
An observation is read just if its value is there and right and its weight, if there, is right as
well, and its weight is one without being read just if it is not there. -/
theorem checkpoints_faithful {format : RecordFormat} (hformat : format.Documented) :
    (Faithful format (sumSlots α) ∧ Faithful format (momentsSlots α) ∧
      Faithful format (summarySlots α) ∧ Faithful format (intervalSlots α)) ∧
    (∀ (s : String) (x : α), Pattern.IsPattern (Patterned.format α) s →
      (text s).number? = some x →
        ofNumber x = text (if Patterned.datum x = .nan then "nan" else s)) ∧
    (Registers.Resumes format (Accumulator.runAll (σ := CompensatedSum α))
        Accumulator.Command.sources ∧
      Registers.Resumes format (Accumulator.runAll (σ := Moments α))
        Accumulator.Command.sources ∧
      Registers.Resumes format (Summary.runAll (α := α)) Summary.Command.sources) ∧
    (∀ (d : Document) (o : Observation α), d.Ordinary →
      (Observation.ofDocument d format = some o ↔
        d.Has "value" (fun v => v.number? = some o.value) ∧
          ((¬ d.Has "weight" fun _ => True) ∧ o.weight = 1 ∨
            d.Has "weight" fun v => v.number? = some o.weight))) ∧
    (∀ d : Document, d.Ordinary →
      ((Observation.ofDocument d format : Option (Observation α)).isSome ↔
        d.Has "value" (IsNumber α) ∧
          ((¬ d.Has "weight" fun _ => True) ∨ d.Has "weight" (IsNumber α)))) ∧
    ∀ given given' : List (String × Document), Distinct given → Distinct given' →
      Agree given given' "value" → Agree given given' "weight" →
        (Observation.ofDocument (object given) format : Option (Observation α)) =
          Observation.ofDocument (object given') format := by
  have hsum := faithful_sum α hformat
  have hmoments := faithful_moments α hformat
  have hsummary := faithful_summary α hformat
  refine ⟨⟨hsum, hmoments, hsummary, faithful_interval α hformat⟩, fun _ _ => ofNumber_of_number?,
    ⟨?_, ?_, ?_⟩, fun _ _ hd => Observation.ofDocument_eq_some_iff hformat hd,
    fun _ hd => Observation.isSome_ofDocument hformat hd,
    fun _ _ hd hd' => Observation.ofDocument_unordered hformat hd hd'⟩
  · exact Accumulator.local_step.resumes hsum.lossless fun _ _ => rfl
  · exact Accumulator.local_step.resumes hmoments.lossless fun _ _ => rfl
  · exact Summary.local_step.resumes hsummary.lossless fun _ _ => rfl

/-- In the plain format a restored narrow summary whose numbers are infinite, undefined and negative
zeros is kept; a sum is read from its two fields in another order and with a note between them; a
number that stands for a count is refused; and a wide run goes on in new registers from the
documents of both its names. -/
theorem checkpoints_faithful_native :
    let s : Summary Float32 :=
      { samples := 0, min := 1 / 0, max := 0 / 0, moments := ⟨-1, -0.0, 0 / 0, 1e-45, 3⟩,
        downsideSamples := 7, downsideWeight := ⟨1, -0.0⟩, downsideSquares := ⟨0 / 0, -1 / 0⟩ }
    let sum := object [("compensation", text "nan"), ("note", .null), ("sum", text "3f800000")]
    let others := [("samples", text "00000000"), ("min", text "nan"), ("max", text "nan")]
    let first : List (String × Summary.Command Float) :=
      [("a", .addValues [1, 2]), ("b", .addValue (-3))]
    let rest : List (String × Summary.Command Float) := [("a", .merge "b")]
    let empty : Registers (Summary Float) := Registers.init Summary.empty
    load (save s) = some s ∧ (load sum : Option (CompensatedSum Float32)).isSome ∧
      (load (object others) : Option (Summary Float32)) = none ∧
      ∃ restored, empty.restoreAll ((Summary.runAll empty first).saveAll ["a", "b"]) =
          some restored ∧
        ∀ name, (Summary.runAll restored rest).get name =
          if name ∈ ["a", "b"] then (Summary.runAll empty (first ++ rest)).get name
          else Summary.empty := by
  intro s sum others first rest empty
  obtain ⟨⟨hsum, -, hsummary, -⟩, -⟩ :=
    checkpoints_faithful (α := Float32) RecordFormat.documented_plain
  obtain ⟨-, -, ⟨-, -, hrun⟩, -⟩ := checkpoints_faithful (α := Float) RecordFormat.documented_plain
  have hclear : Slot.Clear (sumSlots Float32) sum :=
    ⟨by simp [sum, Ordinary, Distinct], by simp [sumSlots, Slot.number]⟩
  refine ⟨hsummary.lossless s, (hsum.accepts sum hclear).mpr ?_, rfl,
    hrun.continues empty empty first rest ["a", "b"] ?_⟩
  · simp only [sumSlots, Slot.Fits, List.forall_mem_cons, Slot.number, sum, has_object]
    exact ⟨⟨text "3f800000", by simp, _, rfl, by decide +kernel⟩,
      ⟨text "nan", by simp, _, rfl, by decide +kernel⟩, List.forall_mem_nil _⟩
  · simp [rest, Registers.Within, Summary.Command.sources]

end RunningStats
