import ScriptMachine.Heap
import ScriptMachine.Text.Hex

namespace ScriptMachine

/-- The number that stands for an object's identity in texts. Objects of different kinds never
share one. -/
def address (kind index : Nat) : Nat := 0x560000000000 + 0x80 * index + 0x10 * kind

def Value.address : Value → Nat
  | .table id => ScriptMachine.address 0 id.index
  | .closure id => ScriptMachine.address 1 id.index
  | .native id => ScriptMachine.address 2 id.index
  | .coroutine id => ScriptMachine.address 3 id.index
  | .userdata id => ScriptMachine.address 4 id.index
  | _ => 0

namespace Heap

def identity (label : String) (v : Value) : String := label ++ ": 0x" ++ hexText 8 v.address

mutual

/-- The text of a value. The values of a tuple are separated by the given text. -/
def textWith (h : Heap) (separator : String) : Value → String
  | .nil => "nil"
  | .bool b => if b then "true" else "false"
  | .number x => x.text
  | .string s => s
  | .table id => identity "table" (.table id)
  | .closure id => identity "function" (.closure id)
  | .native id => identity "function" (.native id)
  | .coroutine id => identity "thread" (.coroutine id)
  | .userdata id => identity (h.userdatum id).typeName (.userdata id)
  | .tuple items => separator.intercalate (textsWith h separator items)
  | .yieldRequest _ _ => "(yield request)"
  | .tailCall _ => "(tail call request)"

def textsWith (h : Heap) (separator : String) : List Value → List String
  | [] => []
  | v :: vs => textWith h separator v :: textsWith h separator vs

end

def text (h : Heap) (v : Value) : String := h.textWith ", " v

def printText (h : Heap) (v : Value) : String := h.textWith "\t" v

mutual

/-- A text that shows the kind of a value and what it holds. A request is shown by its function,
as far as the given depth goes. -/
def debugText (h : Heap) (depth : Nat) : Value → String
  | .nil => "Value::Nil"
  | .bool b => "Value::Boolean(" ++ (if b then "true" else "false") ++ ")"
  | .number x => "Value::Number(" ++ x.plainText ++ ")"
  | .string s => "Value::String(" ++ Text.quoted s ++ ")"
  | .table id => "Value::Table(0x" ++ hexText 1 (Value.table id).address ++ ")"
  | .closure id => "Value::Closure(@" ++ toString (h.closure id).entry ++ ")"
  | .native id => "Value::NativeFunction(" ++ (h.native id).name ++ ")"
  | .coroutine id => "Value::Coroutine(0x" ++ hexText 1 (Value.coroutine id).address ++ ")"
  | .userdata id => "Value::UserData(" ++ (h.userdatum id).typeName ++ ")"
  | .tuple items => "Value::Tuple([" ++ ", ".intercalate (debugTexts h depth items) ++ "])"
  | .yieldRequest items forced =>
    "Value::YieldRequest([" ++ ", ".intercalate (debugTexts h depth items) ++ "], forced=" ++
      (if forced then "true" else "false") ++ ")"
  | .tailCall id =>
    match depth with
    | 0 => "Value::TailCallRequest"
    | depth + 1 => "Value::TailCallRequest(" ++ debugText h depth (h.tailCall id).function ++ ")"
termination_by v => (depth, sizeOf v)

def debugTexts (h : Heap) (depth : Nat) : List Value → List String
  | [] => []
  | v :: vs => debugText h depth v :: debugTexts h depth vs
termination_by vs => (depth, sizeOf vs)

end

def raise (h : Heap) (v : Value) : RuntimeError :=
  { message := h.printText v, value := some v }

end Heap

end ScriptMachine
