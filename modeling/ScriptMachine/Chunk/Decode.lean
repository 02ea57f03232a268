import ScriptMachine.Chunk.Encode

namespace ScriptMachine.Chunk

def maxEnvironmentDepth : Nat := 16

/-- A symbol as it stands in a chunk, with the number of its environment. -/
structure SymbolRecord where
  kind : UInt8
  index : Int32
  name : String
  attributes : UInt8
  environment : Int32

def readSymbolRecord : Reader SymbolRecord := do
  let kind ← readByte
  let index ← readInt
  let name ← readString
  let attributes ← readByte
  let environment ← readInt
  return { kind, index, name, attributes, environment }

def readMany {α : Type} (item : Reader α) : Nat → Reader (List α)
  | 0 => return []
  | n + 1 => return (← item) :: (← readMany item n)

/-- The symbol with a number. The first argument is one more than how many environments may still
follow. -/
def resolve (records : Array SymbolRecord) : Nat → Nat → Except Fault Symbol
  | 0, _ => throw (.chunk "symbol environments nest too deeply")
  | depth + 1, id =>
    match records[id]? with
    | none => throw (.chunk ("symbol id " ++ toString id ++ " out of range"))
    | some r =>
      match r.index.toInt with
      | .negSucc _ => throw (.chunk ("negative index for symbol '" ++ r.name ++ "'"))
      | .ofNat index =>
        if r.kind = 0 then return .localWithBits r.name index r.attributes
        else if r.kind = 1 then return .upvalue r.name index
        else if r.kind = 2 then
          match r.environment.toInt with
          | .negSucc _ => throw (.chunk ("global '" ++ r.name ++ "' has no environment"))
          | .ofNat e => return .global r.name (← resolve records depth e)
        else if r.kind = 3 then return .defaultEnvironment
        else throw (.chunk ("unknown symbol kind: " ++ toString r.kind.toNat))

def resolveAll (records : List SymbolRecord) : Except Fault (List Symbol) :=
  (List.range records.length).mapM (resolve records.toArray (maxEnvironmentDepth + 1))

def readSymbol? (symbols : Array Symbol) : Reader (Option Symbol) := do
  match (← readInt).toInt with
  | .negSucc _ => return none
  | .ofNat id =>
    match symbols[id]? with
    | some s => return some s
    | none => bad ("symbol id " ++ toString id ++ " out of range")

def readListedSymbol (symbols : Array Symbol) : Reader Symbol := do
  match ← readSymbol? symbols with
  | some s => return s
  | none => bad "missing symbol in symbol list"

def readSymbols? (symbols : Array Symbol) : Reader (Option (List Symbol)) := do
  match ← readCount? with
  | some n => return some (← readMany (readListedSymbol symbols) n)
  | none => return none

/-- Reads a constant; the mark of a table gives the environment. -/
def readValue? (environment : Value) : Reader (Option Value) := do
  if (← readByte) = 0 then return none
  let tag ← readByte
  if tag = 0 then return some .nil
  else if tag = 1 then return some (.bool ((← readByte) != 0))
  else if tag = 2 then return some (.number ⟨(← readNat 8).toUInt64⟩)
  else if tag = 3 then return some (.string (← readString))
  else if tag = 4 then return some environment
  else bad ("unknown value tag: " ++ toString tag.toNat)

structure Placement where
  base : Nat
  length : Nat

/-- The place of a relative address, which has to lie in the function. -/
def Placement.resolve (p : Placement) (relative : Int32) : Reader Int32 :=
  match relative.toInt with
  | .negSucc _ => bad ("code address " ++ toString relative.toInt ++ " outside the function")
  | .ofNat offset =>
    if p.length < offset then
      bad ("code address " ++ toString offset ++ " outside the function")
    else if p.base + offset ≤ Int32.maxValue.toInt.toNat then return Int32.ofNat (p.base + offset)
    else
      bad ("code address " ++ toString offset ++ " overflows at base " ++ toString p.base)

def ifUsed {α : Type} (used : Bool) (absent : α) (item : Reader α) : Reader α :=
  if used then item else pure absent

def readName? : Reader (Option String) := do
  let name ← readString
  return if name.isEmpty then none else some name

def readInstruction (p : Placement) (environment : Value) (symbols : Array Symbol)
    (location : Location) : Reader Instruction := do
  let byte ← readByte
  match Opcode.ofByte? byte with
  | none => bad ("unknown opcode: " ++ toString byte.toNat)
  | some op =>
    let fields := op.fields
    let number ←
      if fields.address then p.resolve (← readInt) else ifUsed fields.number 0 readInt
    let number2 ← ifUsed fields.number2 0 readInt
    let name ← ifUsed fields.name none readName?
    let value ← ifUsed fields.value none (readValue? environment)
    let symbol ← ifUsed fields.symbol none (readSymbol? symbols)
    let symbolList ← ifUsed fields.symbols none (readSymbols? symbols)
    return { op, number, number2, value, symbol, symbols := symbolList, name,
             location := some location }

structure Loaded where
  entry : Nat
  count : Nat
  hasUpvalues : Bool
deriving DecidableEq, Repr

def readRequired (message : String) : Reader Nat := do
  match ← readCount? with
  | some n => return n
  | none => bad message

def readHeader : Reader Bool := do
  let c ← get
  if c.rest.take 8 ≠ littleEndian 8 magic then bad "Not a tidal chunk"
  let _ ← readBytes 8
  if (← readInt) ≠ version then bad "Invalid version"
  return (← readByte) != 0

def readFunction (base : Nat) (source : UInt32) (environment : Value) :
    Reader (Bool × List Instruction) := do
  let hasUpvalues ← readHeader
  let length ← readRequired "negative function length"
  let symbolCount ← readRequired "negative symbol count"
  let records ← readMany readSymbolRecord symbolCount
  let symbols ← resolveAll records
  let body ← readMany
    (readInstruction ⟨base, length⟩ environment symbols.toArray (.synthetic source)) (length + 1)
  if (body.head?.map Instruction.op) ≠ some .preamble then
    bad "chunk does not start with a function preamble"
  return (hasUpvalues, body)

/-- Appends the function of a chunk to the code. A chunk that cannot be read changes nothing. -/
def decode (bytes : Bytes) (c : Code) (source : UInt32) (environment : Value) :
    Except Fault (Loaded × Code) := do
  let ((hasUpvalues, body), _) ← (readFunction c.size source environment).run ⟨bytes, 0⟩
  return (⟨c.size, body.length, hasUpvalues⟩, body.foldl Code.append c)

end ScriptMachine.Chunk
