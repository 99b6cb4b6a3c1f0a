import RunningStats.Checkpoint.State
import RunningStats.Registers

/-!
# Checkpointing registers

The values under some names can be written out, and other registers restored from the documents
alone. A document that is not one of the type's is refused.
-/

namespace RunningStats.Registers

variable {σ : Type} [Stored σ]

/-- Put the value of a document under a name, or refuse the document. -/
def restore (regs : Registers σ) (name : String) (d : Document) (format : RecordFormat := .plain) :
    Option (Registers σ) :=
  (Stored.load d format).map (regs.set name)

/-- Put under a name what is read back from the document of another. -/
def checkpoint (regs : Registers σ) (name source : String) (format : RecordFormat := .plain) :
    Option (Registers σ) :=
  regs.restore name (Stored.save (regs.get source) format) format

/-- The documents of the values under some names. -/
def saveAll (regs : Registers σ) (names : List String) (format : RecordFormat := .plain) :
    List (String × Document) :=
  names.map fun name => (name, Stored.save (regs.get name) format)

/-- Restore each document under its name. -/
def restoreAll (regs : Registers σ) (saved : List (String × Document))
    (format : RecordFormat := .plain) : Option (Registers σ) :=
  saved.foldlM (fun regs entry => regs.restore entry.1 entry.2 format) regs

end RunningStats.Registers
