/-
  RefineCheck.Text.Columns

  Alignment of text into columns. A tab ends a cell, and the cells that consecutive lines have
  in a column are padded to one width. The last cell of a line is not aligned.
-/

namespace RefineCheck.Text.Columns

/-- The widths of padded cells: at least `minimum`, and `padding` more than the text. -/
structure Layout where
  minimum : Nat
  padding : Nat

/-- Whether a line has a cell in a column that is aligned. -/
def hasCell (column : Nat) (line : List String) : Bool := column + 1 < line.length

/-- Fills a text with spaces up to a width. -/
def pad (width : Nat) (s : String) : String := s ++ String.ofList (List.replicate (width - s.length) ' ')

/-- The width of a column in lines that all have it. -/
def width (layout : Layout) (column : Nat) (block : List (List String)) : Nat :=
  block.foldl (fun n line => max n ((line.getD column "").length + layout.padding)) layout.minimum

/-- Aligns one column in each block of consecutive lines that have it. -/
def alignColumn (layout : Layout) (lines : List (List String)) (column : Nat) : List (List String) :=
  let blocks := lines.splitBy fun a b => hasCell column a == hasCell column b
  blocks.flatMap fun block =>
    block.map fun line =>
      if hasCell column line then line.modify column (pad (width layout column block)) else line

/-- Aligns all columns of lines that belong together. -/
def alignLines (layout : Layout) (text : String) : String :=
  let lines := (text.splitOn "\n").map fun line => line.splitOn "\t"
  let columns := lines.foldl (fun n line => max n line.length) 0
  "\n".intercalate (((List.range columns).foldl (alignColumn layout) lines).map String.join)

/-- Aligns a text. A vertical tab is a tab, and lines on different sides of a form feed are aligned
    apart. -/
def align (layout : Layout) (text : String) : String :=
  let text := text.map fun c => if c = '\x0b' then '\t' else c
  "\n".intercalate ((text.splitOn "\x0c").map (alignLines layout))

end RefineCheck.Text.Columns
