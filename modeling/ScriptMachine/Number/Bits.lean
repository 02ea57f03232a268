import ScriptMachine.Number.Numeral
import ScriptMachine.Text.Hex

namespace ScriptMachine.Number

def bitsText (x : Number) : String := hexText 16 x.bits.toNat

def ofBitsText (s : String) : Number :=
  match s with
  | "nan" => nan
  | "inf" => infinity
  | "-inf" => -infinity
  | _ => ⟨((digitsFrom? 16 0 s.toList).getD 0).toUInt64⟩

end ScriptMachine.Number
