import RunningStats.Summary.Basic

/-!
# Split ingestion

Model of `par_from_weighted_sequence`. A list of observations may be cut into consecutive pieces,
each summarized on its own, and the summaries merged along a tree. `SplitTree` is such a plan;
`SplitTree.summarize` carries it out, with the fault of the leftmost piece that has one. A
`SplitPlan` has a tree for every list, and `SplitPlan.halves` is the plan that cuts the list once,
in the middle.

* A `piece` is a `try_fold` from `new`: the summary so far goes into each `add` by value, and is
  gone if that fails (`summarizePiece`). A `join` is a step of the `try_reduce`, an `idle` part one
  of its identities.
* The library that cuts the list and runs the pieces is not modelled: pieces that are worked on
  side by side may report any of their faults first. `SplitTree.Yields` leaves that choice open,
  and `Summary.Parallel` the choice of the tree as well.
-/

namespace RunningStats

/-- How consecutive pieces of a list are joined; an `idle` part holds none of the items. -/
inductive SplitTree (β : Type) where
  | idle
  | piece (items : List β)
  | join (left right : SplitTree β)

namespace SplitTree

variable {β : Type}

/-- The items of all pieces, in order. -/
def items : SplitTree β → List β
  | idle => []
  | piece xs => xs
  | join l r => l.items ++ r.items

/-- The whole list as one piece. -/
def whole (xs : List β) : SplitTree β := join idle (piece xs)

/-- A list cut in the middle, the second half holding the odd item; a list too short to cut is
one piece. -/
def halves (xs : List β) : SplitTree β :=
  if xs.length < 2 then whole xs
  else join (whole (xs.take (xs.length / 2))) (whole (xs.drop (xs.length / 2)))

@[simp] theorem items_whole (xs : List β) : (whole xs).items = xs := rfl

@[simp] theorem items_halves (xs : List β) : (halves xs).items = xs := by
  unfold halves
  split
  · exact items_whole xs
  · exact List.take_append_drop (xs.length / 2) xs

end SplitTree

/-- A way to cut every list into consecutive pieces. -/
structure SplitPlan (β : Type) where
  tree : List β → SplitTree β
  items_tree : ∀ xs, (tree xs).items = xs

/-- Every list is cut in the middle. -/
def SplitPlan.halves {β : Type} : SplitPlan β := ⟨SplitTree.halves, SplitTree.items_halves⟩

variable {α ω : Type} [Scalar α] [Wide α ω]

/-- The summary of a piece, one observation after the other. -/
def summarizePiece (os : List (Observation α)) : Except (Fault ω) (Summary α) :=
  os.foldlM (fun s o => (Summary.add o).result s) Summary.empty

/-- Summarize each piece and merge the summaries along the tree. -/
def SplitTree.summarize : SplitTree (Observation α) → Except (Fault ω) (Summary α)
  | idle => .ok Summary.empty
  | piece os => summarizePiece os
  | join l r => do
    let s ← l.summarize
    let t ← r.summarize
    return s.merge t

/-- What the pieces of a tree may yield side by side: where both parts of a join have a fault,
either is reported. -/
inductive SplitTree.Yields : SplitTree (Observation α) → Except (Fault ω) (Summary α) → Prop where
  | idle : Yields idle (.ok .empty)
  | piece (os : List (Observation α)) : Yields (piece os) (summarizePiece os)
  | join {l r : SplitTree (Observation α)} {s t : Summary α} :
    Yields l (.ok s) → Yields r (.ok t) → Yields (join l r) (.ok (s.merge t))
  | left {l r : SplitTree (Observation α)} {e : Fault ω} :
    Yields l (.error e) → Yields (join l r) (.error e)
  | right {l r : SplitTree (Observation α)} {e : Fault ω} :
    Yields r (.error e) → Yields (join l r) (.error e)

/-- The summary of values paired with weights, computed according to a plan. -/
def Summary.ofWeighted (plan : SplitPlan (Observation α)) (values weights : List α) :
    Except (Fault ω) (Summary α) := do
  let os ← Observation.pair values weights
  (plan.tree os).summarize

/-- What may come of values paired with weights in consecutive pieces, however they are cut and
joined. -/
def Summary.Parallel (values weights : List α) (result : Except (Fault ω) (Summary α)) : Prop :=
  if values.length = weights.length then
    ∃ t : SplitTree (Observation α), t.items = Observation.zip values weights ∧ t.Yields result
  else result = .error (.lengthMismatch values.length weights.length)

end RunningStats
