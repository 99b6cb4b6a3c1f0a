import RunningStats.Registers
import RunningStats.Summary.Split

/-!
# Sessions

A session works on named summaries, as a program does that keeps several `WeightedStatistics`.
Each command is an operation in place on the summary under one name; whatever the operation leaves
is under the name afterwards, also when it ends with a fault. Names that a command reads are read
before it writes, so a summary may be merged into itself.

* `reset`, `add`, `addValue`, `addValues`, `addWeighted` and `merge` are the methods of
  `WeightedStatistics`, `copy` is `clone`.
* `replaceWith` assigns what `par_from_weighted_sequence` returns. Its worker threads are not
  modelled: the plan says how the list is cut and how the pieces are joined.
-/

namespace RunningStats.Summary

/-- What can be done to the summary under a name. -/
inductive Command (α : Type) where
  /-- Return to the empty summary. -/
  | reset
  /-- Take over the summary under another name. -/
  | copy (source : String)
  | add (o : Observation α)
  | addValue (value : α)
  | addValues (values : List α)
  | addWeighted (values weights : List α)
  /-- Replace the summary by that of a list, computed according to a plan. -/
  | replaceWith (plan : SplitPlan (Observation α)) (values weights : List α)
  | merge (source : String)

variable {α ω : Type}

/-- Replace the summary by that of a list, computed by halves. -/
def Command.replace (values weights : List α) : Command α := replaceWith .halves values weights

variable [Scalar α] [Wide α ω]

/-- What a command does to the summary it works on, given what the names hold. -/
def Command.operation (regs : Registers (Summary α)) : Command α → Ingestion α ω Unit
  | reset => set (empty : Summary α)
  | copy source => set (regs.get source)
  | add o => Summary.add o
  | addValue value => Summary.addValue value
  | addValues values => Summary.addValues values
  | addWeighted values weights => Summary.addWeighted values weights
  | replaceWith plan values weights => do set (← liftExcept (ofWeighted plan values weights))
  | merge source => modify (Summary.merge · (regs.get source))

/-- The registers after a command, and the fault if it failed. -/
def Command.run (regs : Registers (Summary α)) (target : String) (c : Command α) :
    Registers (Summary α) × Option (Fault ω) :=
  match (c.operation regs).run (regs.get target) with
  | .ok () s => (regs.set target s, none)
  | .error e s => (regs.set target s, some e)

/-- The registers after a list of commands, each with the name it works on. -/
def runAll (regs : Registers (Summary α)) (cs : List (String × Command α)) :
    Registers (Summary α) :=
  cs.foldl (fun regs c => (c.2.run regs c.1).1) regs

end RunningStats.Summary
