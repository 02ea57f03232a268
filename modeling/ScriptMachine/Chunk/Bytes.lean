import ScriptMachine.Fault.Basic

namespace ScriptMachine.Chunk

abbrev Bytes := List UInt8

def littleEndian : Nat → Nat → Bytes
  | 0, _ => []
  | width + 1, n => n.toUInt8 :: littleEndian width (n / 256)

def ofLittleEndian : Bytes → Nat
  | [] => 0
  | b :: bs => b.toNat + 256 * ofLittleEndian bs

def writeInt (n : Int32) : Bytes := littleEndian 4 n.toUInt32.toNat

def writeCount (n : Nat) : Bytes := littleEndian 4 n

def writeString (s : String) : Bytes :=
  let bytes := s.toUTF8.toList
  writeCount bytes.length ++ bytes

structure Cursor where
  rest : Bytes
  offset : Nat

abbrev Reader := StateT Cursor (Except Fault)

def bad {α : Type} (message : String) : Reader α := throw (.chunk message)

def readBytes (n : Nat) : Reader Bytes := do
  let c ← get
  let taken := c.rest.take n
  if taken.length < n then
    bad ("unexpected end of data: need " ++ toString n ++ " bytes at offset " ++ toString c.offset)
  else
    set ({ rest := c.rest.drop n, offset := c.offset + n } : Cursor)
    return taken

def readNat (width : Nat) : Reader Nat := return ofLittleEndian (← readBytes width)

def readByte : Reader UInt8 := return (← readNat 1).toUInt8

def readInt : Reader Int32 := return (← readNat 4).toUInt32.toInt32

def readString : Reader String := do
  let n ← readNat 4
  let bytes ← readBytes n
  match String.fromUTF8? ⟨bytes.toArray⟩ with
  | some s => return s
  | none => bad "invalid UTF-8 in string"

def readCount? : Reader (Option Nat) := do
  match (← readInt).toInt with
  | .ofNat n => return some n
  | .negSucc _ => return none

end ScriptMachine.Chunk
