import ScriptMachine.Chunk.Bytes
import ScriptMachine.Code.Basic

namespace ScriptMachine.Chunk

def magic : Nat := 0x1A0D234E4F4F4D1D

def version : Int32 := 0x151

def addSymbol (known : List Symbol) (s : Symbol) : List Symbol :=
  if s ∈ known then known
  else
    match s with
    | .global _ environment => addSymbol (known ++ [s]) environment
    | _ => known ++ [s]

def symbolTable (is : List Instruction) : List Symbol :=
  is.foldl (fun known i => i.symbolList.foldl addSymbol (i.symbol.toList.foldl addSymbol known)) []

def symbolNumber (known : List Symbol) (s : Option Symbol) : Int32 :=
  match s.bind (known.idxOf? ·) with
  | some n => Int32.ofNat n
  | none => -1

def writeSymbol (known : List Symbol) (s : Symbol) : Bytes :=
  s.kind :: writeInt (Int32.ofNat s.index) ++ writeString s.name ++
    s.attributes :: writeInt (symbolNumber known s.environment?)

/-- A constant. Of a table only its being one is kept: it stands for the environment. -/
def writeValue : Option Value → Except Fault Bytes
  | none => return [0]
  | some .nil => return [1, 0]
  | some (.bool b) => return [1, 1, if b then 1 else 0]
  | some (.number x) => return 1 :: 2 :: littleEndian 8 x.bits.toNat
  | some (.string s) => return 1 :: 3 :: writeString s
  | some (.table _) => return [1, 4]
  | some v => throw (.invalidArgument ("cannot dump a " ++ v.typeName ++ " constant"))

def writeSymbols (known : List Symbol) : Option (List Symbol) → Bytes
  | none => writeInt (-1)
  | some ss => writeCount ss.length ++ ss.flatMap fun s => writeInt (symbolNumber known (some s))

def when (used : Bool) (bytes : Bytes) : Bytes := if used then bytes else []

/-- The fields that the operation reads. Code addresses are relative to the function. -/
def writeInstruction (known : List Symbol) (base : Nat) (i : Instruction) : Except Fault Bytes := do
  let fields := i.op.fields
  let value ← if fields.value then writeValue i.value else pure []
  return i.op.byte :: when fields.address (writeInt (i.number - Int32.ofNat base)) ++
    when fields.number (writeInt i.number) ++
    when fields.number2 (writeInt i.number2) ++
    when fields.name (writeString (i.name.getD "")) ++
    value ++
    when fields.symbol (writeInt (symbolNumber known i.symbol)) ++
    when fields.symbols (writeSymbols known i.symbols)

/-- The preamble of the function at an address, behind any nops. At most `n` of them are skipped. -/
def findPreamble (c : Code) : Nat → Nat → Option Nat
  | 0, _ => none
  | n + 1, ip =>
    match (c.get? ip).map Instruction.op with
    | some .preamble => some ip
    | some .nop => findPreamble c n (ip + 1)
    | _ => none

def functionAt (c : Code) (address : Nat) : Except Fault Nat :=
  match findPreamble c (c.size + 1) address with
  | some ip => return ip
  | none =>
    throw (.invalidArgument
      ("base_address " ++ toString address ++ " does not start a function"))

def functionBody (c : Code) (base : Nat) : Except Fault (List Instruction) :=
  let length := ((c.get? base).map Instruction.count).getD 0
  if base + length < c.size then return (c.instructions.extract base (base + length + 1)).toList
  else
    throw (.invalidArgument
      ("function at base_address " ++ toString base ++ " runs past the end of the code"))

/-- The chunk of the function that starts at an address. The flag tells whether it captured its
environment. -/
def encode (c : Code) (address : Nat) (hasUpvalues : Bool) : Except Fault Bytes := do
  let base ← functionAt c address
  let body ← functionBody c base
  let known := symbolTable body
  let code ← body.mapM (writeInstruction known base)
  return littleEndian 8 magic ++ writeInt version ++ (if hasUpvalues then 1 else 0) ::
    writeCount (body.length - 1) ++ writeCount known.length ++
    known.flatMap (writeSymbol known) ++ code.flatten

end ScriptMachine.Chunk
