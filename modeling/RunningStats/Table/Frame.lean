/-!
# Framed tables

Rows of text cells inside a frame with rounded corners, as a table library draws them in its full
preset. Every column is as wide as its longest cell, with a blank to either side; dashed rules part
the rows, a double rule ends the heading. Tables are as wide as they come out: no terminal is asked
for its width.
-/

namespace RunningStats.Table

/-- Where the text of a cell stands in its column. -/
inductive Align where
  | left
  | right
  | centre
  deriving DecidableEq, Repr

/-- A text and its place in the column. -/
structure Cell where
  text : String
  align : Align
  deriving DecidableEq, Repr

/-- A run of one character. -/
def run (n : Nat) (c : Char) : String := String.ofList (List.replicate n c)

/-- A cell filled up with blanks to a width; of an odd number to part, the left side gets more. -/
def Cell.fill (width : Nat) (c : Cell) : String :=
  let blanks := width - c.text.length
  match c.align with
  | .left => c.text ++ run blanks ' '
  | .right => run blanks ' ' ++ c.text
  | .centre => run ((blanks + 1) / 2) ' ' ++ c.text ++ run (blanks / 2) ' '

/-- A horizontal rule: what it starts with, what it is drawn with, what it crosses a column border
with, and what it ends with. -/
structure Rule where
  start : String
  line : Char
  cross : String
  stop : String

/-- The upper edge. -/
def Rule.top : Rule := ⟨"╭", '─', "┬", "╮"⟩

/-- The rule under the heading. -/
def Rule.heading : Rule := ⟨"╞", '═', "╪", "╡"⟩

/-- The rule between two rows. -/
def Rule.between : Rule := ⟨"├", '╌', "┼", "┤"⟩

/-- The lower edge. -/
def Rule.bottom : Rule := ⟨"╰", '─', "┴", "╯"⟩

/-- A rule drawn over columns of given widths. -/
def Rule.draw (r : Rule) (widths : List Nat) : String :=
  r.start ++ r.cross.intercalate (widths.map fun w => run (w + 2) r.line) ++ r.stop

/-- A row of cells between the borders. -/
def drawRow (widths : List Nat) (row : List Cell) : String :=
  "│" ++ "┆".intercalate (List.zipWith (fun w c => " " ++ Cell.fill w c ++ " ") widths row) ++ "│"

/-- The width of each column, over rows of equally many cells. -/
def widths (rows : List (List Cell)) : List Nat :=
  match rows with
  | [] => []
  | row :: rest =>
    rest.foldl (fun ws r => List.zipWith (fun w c => max w c.text.length) ws r)
      (row.map (·.text.length))

/-- The lines of a table: an optional heading, then rows. -/
def lines (heading : Option (List Cell)) (rows : List (List Cell)) : List String :=
  let ws := widths (heading.toList ++ rows)
  let head := heading.toList.flatMap fun h => [drawRow ws h, Rule.heading.draw ws]
  let body := (rows.map (drawRow ws)).intersperse (Rule.between.draw ws)
  Rule.top.draw ws :: head ++ body ++ [Rule.bottom.draw ws]

end RunningStats.Table
