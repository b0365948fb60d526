import SLanguage.Text.Columns

/-!
# Text tables

A table has a row of titles and rows of cells under it. Columns are as wide as their widest line,
and a row is as tall as its tallest cell.
-/

namespace SLanguage.Text

inductive Align where
  | left
  | right
  deriving DecidableEq, Repr

structure Cell where
  align : Align
  text : String
  deriving DecidableEq, Repr

def leftCell (s : String) : Cell := ⟨.left, s⟩

def rightCell (s : String) : Cell := ⟨.right, s⟩

structure Table where
  titles : List Cell
  rows : List (List Cell)
  deriving DecidableEq, Repr

/-- Cuts characters into lines; `line` holds the current one backwards. A carriage return before the
line feed is part of the line end. -/
def cutLines (line : List Char) : List Char → List String
  | [] => if line.isEmpty then [] else [String.ofList line.reverse]
  | '\n' :: rest =>
    let line := match line with
      | '\r' :: line => line
      | line => line
    String.ofList line.reverse :: cutLines [] rest
  | c :: rest => cutLines (c :: line) rest

/-- The lines of a text; a line feed at the end starts no further line. -/
def lines (s : String) : List String := cutLines [] s.toList

def spaces (n : Nat) : String := String.ofList (List.replicate n ' ')

def pad (align : Align) (width : Nat) (s : String) : String :=
  match align with
  | .left => s ++ spaces (width - columns s)
  | .right => spaces (width - columns s) ++ s

/-- A column of a row, cut into lines. -/
structure Slot where
  align : Align
  lines : List String

def Cell.slot (c : Cell) : Slot := ⟨c.align, Text.lines c.text⟩

def Slot.width (s : Slot) : Nat := (s.lines.map columns).foldl max 0

/-- Widths of columns that fit two rows. -/
def widest : List Nat → List Nat → List Nat
  | [], bs => bs
  | as, [] => as
  | a :: as, b :: bs => max a b :: widest as bs

/-- The `k`-th line of a row. -/
def rowLine (widths : List Nat) (row : List Slot) (k : Nat) : String :=
  let content := List.zipWith
    (fun width slot => " " ++ pad slot.align width ((slot.lines[k]?).getD "") ++ " ") widths row
  " " ++ String.intercalate "│" content ++ " \n"

def rowText (widths : List Nat) (row : List Slot) : String :=
  let height := max 1 ((row.map (·.lines.length)).foldl max 0)
  String.join ((List.range height).map (rowLine widths row))

/-- A rule across the table. -/
def ruleText (widths : List Nat) (joint : String) : String :=
  let strokes := widths.map fun width => String.ofList (List.replicate (width + 2) '─')
  " " ++ String.intercalate joint strokes ++ " \n"

def Table.text (t : Table) : String :=
  let titles := t.titles.map Cell.slot
  let rows := t.rows.map (·.map Cell.slot)
  let widths := ((titles :: rows).map (·.map Slot.width)).foldl widest []
  rowText widths titles ++ ruleText widths "┼" ++ String.join (rows.map (rowText widths)) ++
    ruleText widths "┴"

end SLanguage.Text
