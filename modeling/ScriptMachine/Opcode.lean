namespace ScriptMachine

inductive Arithmetic where
  | add
  | sub
  | mul
  | div
  | mod
  | power
  | floorDiv
deriving DecidableEq, Repr

inductive Bitwise where
  | and
  | or
  | xor
  | shiftLeft
  | shiftRight
deriving DecidableEq, Repr

/-- How an object is indexed: by a value, by a name in the source, or by a list of values. -/
inductive Indexing where
  | plain
  | named
  | list
deriving DecidableEq, Repr

inductive Opcode where
  | nop
  | debug
  | pop
  | copy
  | swap
  | literal
  | closure
  | newTable
  | initPair
  | initNext
  | storeLocal
  | loadLocal
  | storeUpvalue
  | loadUpvalue
  | setIndex (mode : Indexing)
  | getIndex (mode : Indexing)
  | clean
  | preamble
  | beginFunction
  | bindArguments
  | call
  | methodCall
  | ret
  | jump
  | jumpIfFalse
  | jumpIfNil
  | jumpIfDone
  | jumpIfTrueOrPop
  | jumpIfFalseOrPop
  | concat
  | lessEq
  | less
  | eq
  | arith (op : Arithmetic)
  | not
  | len
  | neg
  | conditionalNot
  | makeTuple
  | scalar
  | increment
  | toNumber
  | toBool
  | expandTuple
  | enter
  | leave
  | exit
  | prepareIterator
  | updateIterator
  | invalid
  | bitwise (op : Bitwise)
  | bitNot
deriving DecidableEq, Repr

/-- Which fields of an instruction its operation reads. An address field is the number field
taken as a code address. -/
structure Fields where
  number : Bool := false
  number2 : Bool := false
  value : Bool := false
  symbol : Bool := false
  symbols : Bool := false
  name : Bool := false
  address : Bool := false
deriving DecidableEq, Repr

namespace Fields

def bit (set : Bool) (mask : UInt8) : UInt8 := if set then mask else 0

def bits (f : Fields) : UInt8 :=
  bit (f.number || f.address) 0x01 ||| bit f.number2 0x02 ||| bit f.value 0x04 |||
    bit f.symbol 0x08 ||| bit f.symbols 0x10 ||| bit f.name 0x20 ||| bit f.address 0x40

end Fields

namespace Opcode

/-- The operations in the order of their bytes, with the names that listings give them. -/
def table : List (Opcode × String) := [
  (nop, "NOP"), (debug, "DEBUG"), (pop, "POP"), (copy, "COPY"), (swap, "SWAP"),
  (literal, "LITERAL"), (closure, "CLOSURE"), (newTable, "NEWTABLE"), (initPair, "TBLINITN"),
  (initNext, "TBLINITI"), (storeLocal, "STORELCL"), (loadLocal, "LOCAL"),
  (storeUpvalue, "STOREUPV"), (loadUpvalue, "UPVALUE"), (setIndex .plain, "INDEXSET"),
  (getIndex .plain, "INDEX"), (setIndex .named, "INDEXSETN"), (getIndex .named, "INDEXN"),
  (setIndex .list, "INDEXSETL"), (getIndex .list, "INDEXL"), (clean, "CLEAN"),
  (preamble, "META"), (beginFunction, "BEGINFN"), (bindArguments, "ARGS"), (call, "CALL"),
  (methodCall, "THISCALL"), (ret, "RET"), (jump, "JUMP"), (jumpIfFalse, "JF"),
  (jumpIfNil, "JNIL"), (jumpIfDone, "JFOR"), (jumpIfTrueOrPop, "JTORPOP"),
  (jumpIfFalseOrPop, "JFORPOP"), (concat, "CONCAT"), (lessEq, "LESSEQ"), (less, "LESS"),
  (eq, "EQ"), (arith .add, "ADD"), (arith .sub, "SUB"), (arith .mul, "MUL"),
  (arith .div, "DIV"), (arith .mod, "MOD"), (not, "NOT"), (len, "LEN"), (neg, "NEG"),
  (arith .power, "POWER"), (conditionalNot, "CNOT"), (makeTuple, "MKTUPLE"),
  (scalar, "SCALAR"), (increment, "INCR"), (toNumber, "TONUM"), (toBool, "TOBOOL"),
  (expandTuple, "EXPTUPLE"), (enter, "ENTER"), (leave, "LEAVE"), (exit, "EXIT"),
  (prepareIterator, "ITERPREP"), (updateIterator, "ITERUPD"), (invalid, "INVALID"),
  (bitwise .and, "BITAND"), (bitwise .or, "BITOR"), (bitwise .xor, "BITXOR"),
  (bitNot, "BITNOT"), (bitwise .shiftLeft, "SHIFTLEFT"), (bitwise .shiftRight, "SHIFTRIGHT"),
  (arith .floorDiv, "FLOORDIV")]

def byte (op : Opcode) : UInt8 := (table.findIdx fun e => e.1 = op).toUInt8

def ofByte? (b : UInt8) : Option Opcode := (table[b.toNat]?).map Prod.fst

def name (op : Opcode) : String := ((table.find? fun e => e.1 = op).map Prod.snd).getD ""

def ofName? (name : String) : Option Opcode := (table.find? fun e => e.2 = name).map Prod.fst

def fields : Opcode → Fields
  | nop | debug | invalid => { name := true }
  | pop | copy | newTable | initNext | ret | toNumber | increment | makeTuple | expandTuple =>
    { number := true }
  | swap => { number := true, number2 := true }
  | literal => { value := true }
  | closure => { symbols := true, address := true }
  | storeLocal | storeUpvalue => { symbol := true, number := true, number2 := true }
  | loadLocal | loadUpvalue => { symbol := true }
  | setIndex _ => { symbol := true, number := true, number2 := true, value := true }
  | getIndex _ => { value := true }
  | clean | enter | leave | exit | beginFunction =>
    { number := true, number2 := true, symbols := true }
  | preamble => { number := true, number2 := true, name := true, value := true }
  | bindArguments => { symbols := true }
  | call | methodCall => { number := true, name := true }
  | jump | jumpIfFalse | jumpIfNil | jumpIfDone | jumpIfTrueOrPop | jumpIfFalseOrPop =>
    { address := true }
  | initPair | concat | lessEq | less | eq | arith _ | not | len | neg | conditionalNot | scalar
  | toBool | prepareIterator | updateIterator | bitwise _ | bitNot => {}

def isJump (op : Opcode) : Bool := op.fields.address && op != closure

end Opcode

end ScriptMachine
