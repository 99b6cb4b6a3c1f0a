/-!
# Registers

Values under names, as the variables of a program that keeps several of them. A name that was never
written holds the empty value.
-/

namespace RunningStats

/-- The value under each name. -/
@[ext]
structure Registers (σ : Type) where
  get : String → σ

namespace Registers

variable {σ : Type}

/-- Every name holds the empty value. -/
def init (empty : σ) : Registers σ := ⟨fun _ => empty⟩

/-- The registers with another value under one name. -/
def set (regs : Registers σ) (name : String) (value : σ) : Registers σ :=
  ⟨fun other => if other = name then value else regs.get other⟩

@[simp] theorem get_init (empty : σ) (name : String) : (init empty).get name = empty := rfl

@[simp] theorem get_set_self (regs : Registers σ) (name : String) (value : σ) :
    (regs.set name value).get name = value := by simp [set]

theorem get_set_of_ne (regs : Registers σ) {name other : String} (value : σ) (h : other ≠ name) :
    (regs.set name value).get other = regs.get other := by simp [set, h]

@[simp] theorem set_get (regs : Registers σ) (name : String) :
    regs.set name (regs.get name) = regs := by
  ext other
  by_cases h : other = name
  · rw [h, get_set_self]
  · rw [get_set_of_ne regs _ h]

@[simp] theorem set_set (regs : Registers σ) (name : String) (value value' : σ) :
    (regs.set name value).set name value' = regs.set name value' := by
  ext other
  by_cases h : other = name <;> simp [set, h]

end Registers

end RunningStats
