namespace ScriptMachine

/-- The range of source text that an instruction comes from. -/
structure Location where
  source : UInt32
  fromLine : UInt32
  toLine : UInt32
  fromColumn : UInt32
  toColumn : UInt32
  /-- Not set for code that a debugger should not stop at. -/
  breakable : Bool := true
deriving DecidableEq, Hashable, Repr

namespace Location

def synthetic (source : UInt32) : Location := ⟨source, 0, 0, 0, 0, false⟩

def toNumbers (l : Location) : List UInt32 :=
  [l.source, l.fromLine, l.toLine, l.fromColumn, l.toColumn]

def ofNumbers (ns : List UInt32) (breakable : Bool) : Location :=
  ⟨ns.getD 0 0, ns.getD 1 0, ns.getD 2 0, ns.getD 3 0, ns.getD 4 0, breakable⟩

def text (l : Location) : String :=
  "chunk_" ++ toString l.source.toNat ++ ":(" ++ toString l.fromLine.toNat ++ "," ++
    toString l.fromColumn.toNat ++ "-" ++
    (if l.fromLine = l.toLine then "" else toString l.toLine.toNat ++ ",") ++
    toString l.toColumn.toNat ++ ")"

def includesLine (l : Location) (line : UInt32) : Bool := l.fromLine ≤ line && line ≤ l.toLine

def includes (l : Location) (source line column : UInt32) : Bool :=
  source == l.source && l.includesLine line &&
    if l.fromLine = l.toLine then l.fromColumn ≤ column && column ≤ l.toColumn
    else if line = l.fromLine then l.fromColumn ≤ column
    else if line = l.toLine then column ≤ l.toColumn
    else true

def columnsPerLine : UInt32 := 4

def above (a b : UInt32) : UInt32 := if b ≤ a then a - b else 0

/-- How far a position is from the range, in columns of 32 bits; none in another source. -/
def distance? (l : Location) (source line column : UInt32) : Option UInt32 :=
  if source ≠ l.source then none
  else if l.fromLine = l.toLine then
    if line = l.fromLine then
      some (if column < l.fromColumn then l.fromColumn - column else above column l.toColumn)
    else some ((above line l.fromLine + above l.fromLine line) * columnsPerLine)
  else if line = l.fromLine then some (above l.fromColumn column)
  else if line = l.toLine then some (above column l.toColumn)
  else if l.fromLine < line && line < l.toLine then some 0
  else if line < l.fromLine then some ((l.fromLine - line) * columnsPerLine)
  else some ((line - l.toLine) * columnsPerLine)

end Location

end ScriptMachine
