import RunningStats.Summary.Session

/-!
# Ingestion is all or nothing

An observation is `Valid` if it has a finite, non-negative weight and a finite value; one that is
not has a `fault`, the weight being judged before the value. Every way to take observations in is
described by the two, in the arithmetic of any scalar type and from any state:

* `check_eq`, `checkAll_eq`: the checks fail with the fault of the first observation that is not
  valid;
* `run_forM_check`, `run_forM_commit`: the loop that checks touches nothing, and the loop that
  commits cannot fail;
* `run_add`, `run_addAll`: as the one comes before the other, what the checks pass is committed as
  a whole, and a fault finds the summary as it was;
* `run_addAll_eq_forM`: bulk ingestion is one `add` after the other, but for what these have
  committed by the first fault (`run_forM_add`);
* `bulk_ingestion_exact`: the same for the commands of a session.

An operation ends with the summary that it leaves, also when it fails, and a command puts just that
under its name. So it is the order of the loops that keeps a refused list out.
-/

namespace RunningStats

namespace Observation

variable {α ω : Type} [Scalar α] [Wide α ω]

/-- A finite weight that is not negative, and a finite value. -/
def Valid (o : Observation α) : Prop :=
  Scalar.isFinite o.weight ∧ 0 ≤ o.weight ∧ Scalar.isFinite o.value

instance (o : Observation α) : Decidable o.Valid :=
  inferInstanceAs (Decidable (_ ∧ _ ∧ _))

/-- What is wrong with an observation that is not valid. -/
def fault (o : Observation α) : Fault ω :=
  if Scalar.isFinite o.weight ∧ 0 ≤ o.weight then .nonFiniteValue (widen o.value)
  else .invalidWeight (widen o.weight)

theorem fault_ne_lengthMismatch (o : Observation α) (m n : Nat) :
    (o.fault : Fault ω) ≠ .lengthMismatch m n := by
  unfold fault
  intro h
  split at h <;> cases h

theorem check_eq (o : Observation α) : o.check = if o.Valid then .ok () else .error o.fault := by
  unfold check fault
  by_cases hw : Scalar.isFinite o.weight ∧ 0 ≤ o.weight
  · by_cases hv : Scalar.isFinite o.value <;> simp [Valid, hw, hv]
  · have hn : ¬ o.Valid := fun h => hw ⟨h.1, h.2.1⟩
    rw [if_pos hw, if_neg hn, if_neg hw]

/-- The first observation of a list that is not valid. -/
def firstInvalid (os : List (Observation α)) : Option (Observation α) :=
  os.find? fun o => ¬ o.Valid

theorem firstInvalid_eq_none_iff {os : List (Observation α)} :
    firstInvalid os = none ↔ ∀ o ∈ os, o.Valid := by
  simp [firstInvalid]

theorem firstInvalid_eq_some {os : List (Observation α)} {o : Observation α}
    (h : firstInvalid os = some o) : o ∈ os ∧ ¬ o.Valid :=
  ⟨List.mem_of_find?_eq_some h, by simpa using List.find?_some h⟩

theorem firstInvalid_append (os ps : List (Observation α)) :
    firstInvalid (os ++ ps) = (firstInvalid os).or (firstInvalid ps) := List.find?_append

theorem firstInvalid_cons (o : Observation α) (os : List (Observation α)) :
    firstInvalid (o :: os) = if o.Valid then firstInvalid os else some o := by
  unfold firstInvalid
  by_cases h : o.Valid <;> simp [h]

/-- **The check of a list** finds the first observation that is not valid. -/
theorem checkAll_eq (os : List (Observation α)) :
    checkAll os = match firstInvalid os with
      | none => .ok ()
      | some o => .error o.fault := by
  induction os with
  | nil => rfl
  | cons o os ih =>
    rw [firstInvalid_cons, checkAll, check_eq]
    by_cases h : o.Valid
    · rw [if_pos h, if_pos h]
      exact ih
    · rw [if_neg h, if_neg h]
      rfl

end Observation

namespace Summary

variable {α ω : Type}

/-! ## Operations in place -/

/-- One operation after the other, seen by a caller who drops the summary of one that fails. -/
theorem Ingestion.result_forM (op : Observation α → Ingestion α ω Unit)
    (os : List (Observation α)) (s : Summary α) :
    Ingestion.result (forM os op) s = os.foldlM (fun s o => (op o).result s) s := by
  induction os generalizing s with
  | nil => rfl
  | cons o os ih =>
    rw [List.foldlM_cons]
    simp only [Ingestion.result, List.forM_cons, EStateM.run_bind] at ih ⊢
    cases (op o).run s with
    | ok u t => exact ih t
    | error e t => rfl

variable [Scalar α] [Wide α ω] (os : List (Observation α)) (s : Summary α)

theorem run_check (o : Observation α) :
    EStateM.run (liftExcept o.check : Ingestion α ω Unit) s =
      if o.Valid then .ok () s else .error o.fault s := by
  rw [Observation.check_eq]
  split <;> rfl

/-- **One observation** is committed if it is valid; if it is not, nothing is touched. -/
theorem run_add (o : Observation α) :
    (add o).run s = if o.Valid then .ok () (s.commit o) else .error o.fault s := by
  rw [add, EStateM.run_bind, run_check]
  by_cases h : o.Valid
  · rw [if_pos h, if_pos h]
    rfl
  · rw [if_neg h, if_neg h]

theorem run_add_of_valid {o : Observation α} (h : o.Valid) :
    (add o).run s = .ok () (s.commit o) := by
  rw [run_add, if_pos h]

/-- The loop that checks touches nothing. -/
theorem run_forM_check :
    EStateM.run (forM os fun o => liftExcept o.check : Ingestion α ω Unit) s =
      match Observation.firstInvalid os with
      | none => .ok () s
      | some o => .error o.fault s := by
  induction os with
  | nil => rfl
  | cons o os ih =>
    rw [List.forM_cons, EStateM.run_bind, run_check, Observation.firstInvalid_cons]
    by_cases h : o.Valid
    · rw [if_pos h, if_pos h]
      exact ih
    · rw [if_neg h, if_neg h]

omit [Wide α ω] in
/-- The loop that commits cannot fail. -/
theorem run_forM_commit :
    EStateM.run (forM os fun o => modify (commit · o) : Ingestion α ω Unit) s =
      .ok () (os.foldl commit s) := by
  induction os generalizing s with
  | nil => rfl
  | cons o os ih =>
    rw [List.forM_cons, EStateM.run_bind, List.foldl_cons]
    exact ih (s.commit o)

/-- **A list** is committed as a whole if the loop of checks comes to its end. That loop stands
first, so a fault finds the summary untouched. -/
theorem run_addAll :
    (addAll os).run s = match Observation.firstInvalid os with
      | none => .ok () (os.foldl commit s)
      | some o => .error o.fault s := by
  rw [addAll, EStateM.run_bind, run_forM_check]
  cases Observation.firstInvalid os with
  | none => exact run_forM_commit os s
  | some o => rfl

/-- One `add` after the other has the same fault, but by then has committed what came before. -/
theorem run_forM_add :
    EStateM.run (forM os add) s = match Observation.firstInvalid os with
      | none => .ok () (os.foldl commit s)
      | some o => .error o.fault ((os.takeWhile fun o => o.Valid).foldl commit s) := by
  induction os generalizing s with
  | nil => rfl
  | cons o os ih =>
    rw [List.forM_cons, EStateM.run_bind, run_add, Observation.firstInvalid_cons]
    by_cases h : o.Valid
    · rw [List.takeWhile_cons_of_pos (by simpa using h), if_pos h, if_pos h]
      exact ih (s.commit o)
    · rw [List.takeWhile_cons_of_neg (by simpa using h), if_neg h, if_neg h]
      rfl

/-- **Bulk ingestion is one `add` after the other**, except that a fault undoes them all. -/
theorem run_addAll_eq_forM :
    (addAll os).run s = match EStateM.run (forM os add) s with
      | .ok () t => .ok () t
      | .error e _ => .error e s := by
  rw [run_addAll, run_forM_add]
  cases Observation.firstInvalid os <;> rfl

variable {os}

theorem run_addAll_of_valid (h : ∀ o ∈ os, o.Valid) :
    (addAll os).run s = .ok () (os.foldl commit s) := by
  rw [run_addAll, Observation.firstInvalid_eq_none_iff.mpr h]

/-- A list that is not valid throughout is refused. -/
theorem run_addAll_of_not_valid (h : ¬ ∀ o ∈ os, o.Valid) :
    ∃ e, (addAll os).run s = .error e s := by
  rw [run_addAll]
  cases hf : Observation.firstInvalid os with
  | none => exact absurd (Observation.firstInvalid_eq_none_iff.mp hf) h
  | some o => exact ⟨_, rfl⟩

variable (os)

theorem addAll_singleton (o : Observation α) : (addAll [o]).run s = (add o).run s := by
  rw [run_addAll, Observation.firstInvalid_cons, run_add]
  by_cases h : o.Valid
  · rw [if_pos h, if_pos h]
    rfl
  · rw [if_neg h, if_neg h]

theorem run_addWeighted (values weights : List α) :
    (addWeighted values weights).run s =
      if values.length = weights.length then (addAll (Observation.zip values weights)).run s
      else .error (.lengthMismatch values.length weights.length) s := by
  by_cases h : values.length = weights.length <;> simp [addWeighted, h]

/-- Values alone are taken in like values with as many weights of one. -/
theorem addValues_eq_addWeighted (values : List α) :
    (addValues values : Ingestion α ω Unit) =
      addWeighted values (List.replicate values.length 1) := by
  have hz : Observation.zip values (List.replicate values.length 1) =
      values.map Observation.unit := by
    unfold Observation.zip
    induction values with
    | nil => rfl
    | cons x xs ih =>
      rw [List.length_cons, List.replicate_succ, List.zipWith_cons_cons, ih]
      rfl
  funext s
  rw [addValues, ← hz]
  exact ((run_addWeighted s _ _).trans (if_pos List.length_replicate.symm)).symm

/-! ## Callers who drop a summary on a fault -/

theorem result_addAll :
    (addAll os).result s = match Observation.firstInvalid os with
      | none => .ok (os.foldl commit s)
      | some o => .error o.fault := by
  rw [Ingestion.result, run_addAll]
  cases Observation.firstInvalid os <;> rfl

theorem result_addAll_of_valid {os : List (Observation α)} (h : ∀ o ∈ os, o.Valid) :
    (addAll os).result s = .ok (os.foldl commit s) := by
  rw [result_addAll, Observation.firstInvalid_eq_none_iff.mpr h]

/-- To them bulk ingestion is one `add` after the other. -/
theorem result_addAll_eq_foldlM :
    (addAll os).result s = os.foldlM (fun s o => (add o).result s) s := by
  rw [← Ingestion.result_forM, Ingestion.result, run_addAll_eq_forM]
  unfold Ingestion.result
  cases EStateM.run (forM os add) s <;> rfl

/-- A piece of split ingestion is the bulk ingestion of its observations. -/
theorem summarizePiece_eq : summarizePiece os = (addAll os).result empty :=
  (result_addAll_eq_foldlM os empty).symm

theorem result_addWeighted (values weights : List α) :
    (addWeighted values weights).result s =
      if values.length = weights.length then (addAll (Observation.zip values weights)).result s
      else .error (.lengthMismatch values.length weights.length) := by
  unfold Ingestion.result
  rw [run_addWeighted]
  by_cases h : values.length = weights.length
  · rw [if_pos h, if_pos h]
  · rw [if_neg h, if_neg h]

/-! ## Commands -/

section Commands

variable {regs : Registers (Summary α)} {name : String} {c : Command α} {s : Summary α}

theorem Command.run_of_ok (h : (c.operation regs).run (regs.get name) = .ok () s) :
    c.run regs name = (regs.set name s, none) := by
  rw [run, h]

/-- A command whose operation fails before it has changed its summary changes nothing. -/
theorem Command.run_of_error {e : Fault ω}
    (h : (c.operation regs).run (regs.get name) = .error e (regs.get name)) :
    c.run regs name = (regs, some e) := by
  rw [run, h]
  exact congrArg (·, some e) (regs.set_get name)

/-- A command works on one name. -/
theorem Command.get_run_of_ne {other : String} (h : other ≠ name) :
    (c.run regs name).1.get other = regs.get other := by
  unfold run
  split <;> exact Registers.get_set_of_ne regs _ h

end Commands

@[simp] theorem runAll_nil (regs : Registers (Summary α)) : runAll regs [] = regs := rfl

theorem runAll_cons (regs : Registers (Summary α)) (name : String) (c : Command α)
    (cs : List (String × Command α)) :
    runAll regs ((name, c) :: cs) = runAll (c.run regs name).1 cs := rfl

/-- Valid observations added one at a time under a name are committed in turn. -/
theorem runAll_add (name : String) : ∀ (os : List (Observation α)) (regs : Registers (Summary α)),
    (∀ o ∈ os, o.Valid) → runAll regs (os.map fun o => (name, .add o)) =
      regs.set name (os.foldl commit (regs.get name))
  | [], regs, _ => by simp
  | o :: os, regs, h => by
    have ho : ((Command.add o).operation regs).run (regs.get name) =
        .ok () ((regs.get name).commit o) := run_add_of_valid _ (h o List.mem_cons_self)
    rw [List.map_cons, runAll_cons, Command.run_of_ok ho,
      runAll_add name os _ fun p hp => h p (List.mem_cons_of_mem o hp)]
    simp

/-- **Bulk ingestion is all or nothing**, in the arithmetic of any scalar type and from any state.
Paired values and weights are refused if there are not as many of the one as of the other, then
for the first pair that is not valid, and every summary stays as it is; else they are taken in
like one after the other. Values alone count with weight one, and a refused observation changes
nothing. -/
theorem bulk_ingestion_exact (regs : Registers (Summary α)) (name : String) :
    (∀ values weights : List α, (Command.addWeighted values weights).run regs name =
      if values.length ≠ weights.length then
        (regs, some (.lengthMismatch values.length weights.length))
      else match Observation.firstInvalid (Observation.zip values weights) with
        | some o => (regs, some o.fault)
        | none => (runAll regs ((Observation.zip values weights).map fun o => (name, .add o)),
            none)) ∧
    (∀ values : List α, (Command.addValues values).run regs name =
      (Command.addWeighted values (List.replicate values.length 1)).run regs name) ∧
    (∀ o : Observation α, (Command.add o).run regs name =
      if o.Valid then (regs.set name ((regs.get name).commit o), none)
      else (regs, some o.fault)) ∧
    (∀ value : α, (Command.addValue value).run regs name =
      (Command.add (Observation.unit value)).run regs name) := by
  refine ⟨fun values weights => ?_, fun values => ?_, fun o => ?_, fun value => rfl⟩
  · have hr := run_addWeighted (regs.get name) values weights
    by_cases hl : values.length = weights.length
    · rw [if_neg (not_not_intro hl)]
      rw [if_pos hl, run_addAll] at hr
      cases hf : Observation.firstInvalid (Observation.zip values weights) with
      | some o =>
        rw [hf] at hr
        exact Command.run_of_error hr
      | none =>
        rw [hf] at hr
        rw [runAll_add name _ regs (Observation.firstInvalid_eq_none_iff.mp hf)]
        exact Command.run_of_ok hr
    · rw [if_pos hl]
      rw [if_neg hl] at hr
      exact Command.run_of_error hr
  · unfold Command.run
    rw [Command.operation, Command.operation, addValues_eq_addWeighted]
  · have hr := run_add (regs.get name) o
    by_cases h : o.Valid
    · rw [if_pos h] at hr ⊢
      exact Command.run_of_ok hr
    · rw [if_neg h] at hr ⊢
      exact Command.run_of_error hr

end Summary

end RunningStats
