import ScriptMachine.Opcode
import ScriptMachine.Value.Text

namespace ScriptMachine

instance : Inhabited Opcode := ⟨.nop⟩

/-- One instruction. Which fields matter is a property of the operation. -/
structure Instruction where
  op : Opcode
  number : Int32 := 0
  number2 : Int32 := 0
  value : Option Value := none
  symbol : Option Symbol := none
  symbols : Option (List Symbol) := none
  name : Option String := none
  location : Option Location := none
deriving Inhabited

namespace Instruction

/-- The number as a count or an address; negative numbers count as zero. -/
def count (i : Instruction) : Nat := i.number.toInt.toNat

def count2 (i : Instruction) : Nat := i.number2.toInt.toNat

def symbolList (i : Instruction) : List Symbol := i.symbols.getD []

def addressText (n : Nat) : String := (hexText 8 n).toUpper

def numberText (i : Instruction) : String :=
  if i.op.fields.address then addressText i.number.toUInt32.toNat
  else if i.op.fields.number then toString i.number.toInt
  else ""

def padRight (width : Nat) (s : String) : String :=
  s ++ String.ofList (List.replicate (width - s.length) ' ')

def valueText (h : Heap) : Value → String
  | .string s => Text.quoted s
  | v => h.text v

def text (h : Heap) (i : Instruction) : String :=
  let fields := i.op.fields
  let part (used : Bool) (t : Option String) : String := if used then t.getD "" else ""
  padRight 10 i.op.name ++ i.numberText ++
    part fields.number2 (some (", " ++ toString i.number2.toInt)) ++
    part fields.name (i.name.map (" " ++ ·)) ++
    part fields.value (i.value.map (" " ++ valueText h ·)) ++
    part fields.symbol (i.symbol.map (" " ++ ·.text)) ++
    part fields.symbols (some (" [" ++ ", ".intercalate (i.symbolList.map Symbol.name) ++ "]"))

end Instruction

end ScriptMachine
