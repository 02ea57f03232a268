import ScriptMachine.Chunk.Bytes
import ScriptMachine.Text.Hex

namespace ScriptMachine.Chunk

def toHex (bytes : Bytes) : String := String.join (bytes.map fun b => hexText 2 b.toNat)

def ofDigits : List Char → Bytes
  | a :: b :: rest =>
    (16 * (Number.digitValue? a).getD 0 + (Number.digitValue? b).getD 0).toUInt8 :: ofDigits rest
  | _ => []

def ofHex (s : String) : Bytes := ofDigits s.toList

def overwrite (bytes : Bytes) (offset : Nat) (new : Bytes) : Bytes :=
  bytes.take offset ++ (new ++ bytes.drop (offset + new.length)).take (bytes.length - offset)

end ScriptMachine.Chunk
