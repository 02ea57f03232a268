namespace ScriptMachine.Text

def isLowerHex (c : Char) : Bool := c.isDigit || ('a' ≤ c && c ≤ 'f')

/-- Replaces the digits of every address by a fixed word. An address is `0x` and at least eight
hexadecimal digits. The first argument counts the characters that are still to be skipped. -/
def maskFrom : Nat → List Char → List Char
  | _, [] => []
  | n + 1, _ :: cs => maskFrom n cs
  | 0, '0' :: 'x' :: cs =>
    let digits := (cs.takeWhile isLowerHex).length
    if 8 ≤ digits then "0xADDR".toList ++ maskFrom digits cs else '0' :: maskFrom 0 ('x' :: cs)
  | 0, c :: cs => c :: maskFrom 0 cs

def mask (s : String) : String := String.ofList (maskFrom 0 s.toList)

end ScriptMachine.Text
