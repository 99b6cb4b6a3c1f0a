import RunningStats.Checkpoint.Format
import RunningStats.Checkpoint.Pattern
import RunningStats.Interval.Basic
import RunningStats.Summary.Basic

/-!
# Checkpoints of sums, moments, summaries and intervals

The records that `KahanSum`, `CentralMoments`, `WeightedStatistics` and `Interval` are saved as,
with a field for each of their parts under the name of the part, none of them left out and none
with a value to fall back on. `Observation` is only loaded; its weight falls back on one.

* `Stored.names`, `Stored.parts` and `Stored.ofParts` are what a type declares: its fields, the
  documents in them, and how its parts are read back from these. A part that is a record itself is
  saved in the same format.
* Numbers are texts of bit patterns and counts are integers, in every format. The numbers
  themselves are not judged.
* `save`, `load` and `Observation.ofDocument` are those of a format, of the plain one if none is
  named.
-/

namespace RunningStats

/-- A type whose values are kept as records. -/
class Stored (σ : Type) where
  /-- The names of the fields. -/
  names : List String
  /-- The fields of a state. -/
  parts (format : RecordFormat) : σ → List (String × Document)
  /-- The state of what is found under the names, if it is one. -/
  ofParts (format : RecordFormat) : (String → Option Document) → Option σ

namespace Stored

variable {σ : Type} [Stored σ]

/-- The document of a state. -/
def save (s : σ) (format : RecordFormat := .plain) : Document := format.write (parts format s)

/-- The state of a document, if it is one. -/
def load (d : Document) (format : RecordFormat := .plain) : Option σ := do
  let field ← format.fields (names σ) d
  ofParts format field

end Stored

namespace Document

variable {α : Type} [Patterned α] [Wide α Float]

/-- The document of a number. -/
def ofNumber (x : α) : Document := text (Pattern.write x)

/-- The number of a document. -/
def number? (d : Document) : Option α := d.text?.bind Pattern.read

end Document

open Document Stored

variable {α : Type} [Patterned α] [Wide α Float]

instance : Stored (CompensatedSum α) where
  names := ["sum", "compensation"]
  parts _ s := [("sum", ofNumber s.sum), ("compensation", ofNumber s.compensation)]
  ofParts _ field := do
    let sum ← (← field "sum").number?
    let compensation ← (← field "compensation").number?
    return { sum, compensation }

instance : Stored (Moments α) where
  names := ["weight", "mean", "m2", "m3", "m4"]
  parts _ m :=
    [ ("weight", ofNumber m.weight), ("mean", ofNumber m.mean), ("m2", ofNumber m.m2),
      ("m3", ofNumber m.m3), ("m4", ofNumber m.m4) ]
  ofParts _ field := do
    let weight ← (← field "weight").number?
    let mean ← (← field "mean").number?
    let m2 ← (← field "m2").number?
    let m3 ← (← field "m3").number?
    let m4 ← (← field "m4").number?
    return { weight, mean, m2, m3, m4 }

instance : Stored (Summary α) where
  names :=
    ["samples", "min", "max", "moments", "downside_samples", "downside_weight", "downside_squares"]
  parts format s :=
    [ ("samples", ofCount s.samples), ("min", ofNumber s.min), ("max", ofNumber s.max),
      ("moments", save s.moments format), ("downside_samples", ofCount s.downsideSamples),
      ("downside_weight", save s.downsideWeight format),
      ("downside_squares", save s.downsideSquares format) ]
  ofParts format field := do
    let samples ← (← field "samples").count?
    let min ← (← field "min").number?
    let max ← (← field "max").number?
    let moments ← load (← field "moments") format
    let downsideSamples ← (← field "downside_samples").count?
    let downsideWeight ← load (← field "downside_weight") format
    let downsideSquares ← load (← field "downside_squares") format
    return { samples, min, max, moments, downsideSamples, downsideWeight, downsideSquares }

instance : Stored (Interval α Float) where
  names := ["lower", "upper", "estimate", "confidence"]
  parts _ i :=
    [ ("lower", ofNumber i.lower), ("upper", ofNumber i.upper), ("estimate", ofNumber i.estimate),
      ("confidence", ofNumber i.confidence) ]
  ofParts _ field := do
    let lower ← (← field "lower").number?
    let upper ← (← field "upper").number?
    let estimate ← (← field "estimate").number?
    let confidence ← (← field "confidence").text?.bind (Pattern.readWide α)
    return { lower, upper, estimate, confidence }

namespace Observation

variable [Scalar α]

/-- The observation of a document: its value, and its weight or one if there is none. -/
def ofDocument (d : Document) (format : RecordFormat := .plain) : Option (Observation α) := do
  let field ← format.fields ["value", "weight"] d
  let value ← (← field "value").number?
  let weight ← match field "weight" with
    | none => some 1
    | some w => w.number?
  return { value, weight }

end Observation

end RunningStats
