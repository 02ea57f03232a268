import ScriptMachine.Number.Shortest

namespace ScriptMachine.Number

def Decimal.positional (d : Decimal) : String :=
  let digits := d.digits.repr.toList
  if 0 ≤ d.exponent then String.ofList (digits ++ List.replicate d.exponent.toNat '0')
  else
    let places := (-d.exponent).toNat
    let padded := List.replicate (places + 1 - digits.length) '0' ++ digits
    let cut := padded.length - places
    String.ofList (padded.take cut ++ '.' :: padded.drop cut)

def plainText (x : Number) : String :=
  match binary? x with
  | some b => (if b.negative then "-" else "") ++ b.shortest.positional
  | none => if x.isNaN then "NaN" else if x.isNegative then "-inf" else "inf"

def integerTextLimit : Nat := Nat.pow 10 15

/-- The text of a number as scripts see it: integral numbers have no fractional part and
zero has no sign. -/
def text (x : Number) : String :=
  match binary? x with
  | some b =>
    match b.toInt? with
    | some n => if n.natAbs < integerTextLimit then toString n else plainText x
    | none => plainText x
  | none => (if x.isNegative then "-" else "") ++ (if x.isNaN then "nan" else "inf")

end ScriptMachine.Number
