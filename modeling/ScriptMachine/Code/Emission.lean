import ScriptMachine.Code.Basic

namespace ScriptMachine

/-- A block of a function: the slots from `first` to `lastNested` belong to it and the blocks in
it, those up to `last` were declared directly in it. -/
structure Block where
  first : Int32
  last : Int32
  lastNested : Int32
  closers : List Symbol := []

def Block.nestedClosers (b : Block) : List Symbol :=
  b.closers.filter fun s => b.last.toInt < (s.index : Int)

namespace Instruction

def debugTextLimit : Nat := 32

def nop (comment : String) : Instruction := { op := .nop, name := comment }

def debug (text : String) : Instruction :=
  { op := .debug, name := String.ofList (text.toList.take debugTextLimit) }

def invalid (reason : String) : Instruction := { op := .invalid, name := reason }

def plain (op : Opcode) : Instruction := { op }

def numbered (op : Opcode) (number : Int32) : Instruction := { op, number }

def swap (a b : Int32) : Instruction := { op := .swap, number := a, number2 := b }

def literal (v : Value) : Instruction := { op := .literal, value := v }

def closure (captured : List Symbol) (entry : Int32) : Instruction :=
  { op := .closure, symbols := captured, number := entry }

def flagged (op : Opcode) (flag : Bool) : Instruction := numbered op (if flag then 1 else 0)

def bindArguments (parameters : List Symbol) : Instruction :=
  { op := .bindArguments, symbols := parameters }

def call (arguments : Int32) (name : Option String) (method : Bool) : Instruction :=
  { op := if method then .methodCall else .call, number := arguments, name }

def preamble (name : String) (isChunk : Bool) : Instruction :=
  { op := .preamble, name := some name, number2 := if isChunk then 0 else 1 }

def beginFunction (locals : List Symbol) (lastOfRoot : Int32) : Instruction :=
  { op := .beginFunction, symbols := locals, number := Int32.ofNat locals.length,
    number2 := lastOfRoot }

def enter (b : Block) : Instruction :=
  { op := .enter, number := b.first, number2 := b.lastNested, symbols := b.closers }

def leave (b : Block) : Instruction :=
  { op := .leave, number := b.first, number2 := b.last, symbols := b.closers }

def exit (b : Block) : Instruction :=
  { op := .exit, number := b.first, number2 := b.lastNested, symbols := b.closers }

def clean (b : Block) : Instruction :=
  { op := .clean, number := b.last + 1, number2 := b.lastNested, symbols := b.nestedClosers }

def getIndex (mode : Indexing) (key : Option Value) : Instruction :=
  { op := .getIndex mode, value := key }

def setIndex (mode : Indexing) (offset item : Int32) (key : Option Value) : Instruction :=
  { op := .setIndex mode, number := offset, number2 := item, value := key }

def operator (op : Opcode) : List Instruction :=
  match op with
  | .lessEq => [plain op, plain .conditionalNot]
  | .eq | .less => [plain op, plain .toBool]
  | _ => [plain op]

def methodLookup (name : String) : List Instruction :=
  [numbered .copy 0, getIndex .named (some (.string name)), swap 0 1]

def load : Symbol → Except Fault (List Instruction)
  | .global name environment =>
    return (← load environment) ++ [getIndex .plain (some (.string name))]
  | s@(.localVar ..) => return [{ op := .loadLocal, symbol := s }]
  | s@(.upvalue ..) => return [{ op := .loadUpvalue, symbol := s }]
  | .defaultEnvironment =>
    throw (.internal ("unexpected symbol type : " ++ Symbol.defaultEnvironment.text))

/-- The code that stores a value from the stack in a variable: the value `offset` places down,
or item `item` of it if it is a tuple. -/
def store (s : Symbol) (offset item : Int32) : Except Fault (List Instruction) :=
  match s with
  | .global name environment =>
    return (← load environment) ++
      [{ setIndex .plain offset item (some (.string name)) with symbol := s }]
  | .localVar .. => return [{ op := .storeLocal, symbol := s, number := offset, number2 := item }]
  | .upvalue .. => return [{ op := .storeUpvalue, symbol := s, number := offset, number2 := item }]
  | .defaultEnvironment => throw (.internal ("unexpected symbol type : " ++ s.text))

end Instruction

/-- The size that is reported for loading or storing a variable. -/
def Symbol.accessSize : Symbol → Nat
  | global .. => 2
  | _ => 1

namespace Code

def emitLoad (c : Code) (s : Symbol) : Except Fault (Nat × Code) :=
  return (s.accessSize, c.emitAll (← Instruction.load s))

def emitStore (c : Code) (s : Symbol) (offset item : Int32) : Except Fault (Nat × Code) :=
  return (s.accessSize, c.emitAll (← Instruction.store s offset item))

end Code

end ScriptMachine
