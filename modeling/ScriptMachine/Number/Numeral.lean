import ScriptMachine.Number.Binary
import ScriptMachine.Text.Blank

namespace ScriptMachine.Number

def digitValue? (c : Char) : Option Nat :=
  if '0' ≤ c ∧ c ≤ '9' then some (c.toNat - '0'.toNat)
  else if 'a' ≤ c ∧ c ≤ 'z' then some (c.toNat - 'a'.toNat + 10)
  else if 'A' ≤ c ∧ c ≤ 'Z' then some (c.toNat - 'A'.toNat + 10)
  else none

/-- The value of a string of digits read after `acc`, `none` if a character is no digit of the
base. -/
def digitsFrom? (base acc : Nat) : List Char → Option Nat
  | [] => some acc
  | c :: cs => do
    let d ← digitValue? c
    if d < base then digitsFrom? base (base * acc + d) cs else none

def natural? (base : Nat) : List Char → Option Nat
  | [] => none
  | cs => digitsFrom? base 0 cs

def splitSign : List Char → Bool × List Char
  | '-' :: cs => (true, cs)
  | '+' :: cs => (false, cs)
  | cs => (false, cs)

def integer? (base : Nat) (cs : List Char) : Option Int :=
  let (negative, body) := splitSign cs
  match natural? base body with
  | none => none
  | some n =>
    let i : Int := if negative then -n else n
    if isWord i then some i else none

/-- `digits * 10 ^ exponent`, rounded to the nearest number. Exponents far outside the range
of numbers are decided before any power is computed. -/
def ofDecimal (digits : Nat) (exponent : Int) : Number :=
  let size : Int := digits.log2
  if digits = 0 then 0
  else if exponent > 400 then infinity
  else if exponent < -400 - size then 0
  else ofFloat (Float.ofScientific digits (exponent < 0) exponent.natAbs)

def splitDigits (cs : List Char) : List Char × List Char := cs.span Char.isDigit

def exponent? : List Char → Option Int
  | [] => some 0
  | c :: cs =>
    if c = 'e' ∨ c = 'E' then
      let (negative, body) := splitSign cs
      (natural? 10 body).map fun n => if negative then -n else n
    else none

/-- An unsigned decimal numeral: digits with an optional point, at least one digit among them,
and an optional exponent. -/
def unsignedDecimal? (cs : List Char) : Option Number :=
  let (whole, rest) := splitDigits cs
  let (fraction, tail) := match rest with
    | '.' :: after => splitDigits after
    | rest => ([], rest)
  do
    let digits ← natural? 10 (whole ++ fraction)
    let exponent ← exponent? tail
    return ofDecimal digits (exponent - fraction.length)

def word? (cs : List Char) : Option Number :=
  let word := String.ofList (cs.map Char.toLower)
  if word = "inf" ∨ word = "infinity" then some infinity
  else if word = "nan" then some nan
  else none

def negateIf (negative : Bool) (x : Number) : Number := if negative then -x else x

def decimal? (cs : List Char) : Option Number :=
  let (negative, body) := splitSign cs
  (word? body <|> unsignedDecimal? body).map (negateIf negative)

/-- A numeral after its sign: hexadecimal digits behind `0x`, or a decimal that does not start
with a letter. -/
def unsignedNumeral? : List Char → Option Number
  | '0' :: 'x' :: hex => (integer? 16 hex).map ofInt
  | '0' :: 'X' :: hex => (integer? 16 hex).map ofInt
  | [] => none
  | c :: cs => if c.isAlpha then none else decimal? (c :: cs)

/-- Reads a numeral. Surrounding white space is ignored, and a minus in front negates the rest. -/
def parse? (s : String) : Option Number :=
  let (negative, body) := splitSign (Text.trim s.toList)
  (unsignedNumeral? body).map (negateIf negative)

end ScriptMachine.Number
