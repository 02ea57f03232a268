import ScriptMachine.Instruction

namespace ScriptMachine

structure Code where
  instructions : Array Instruction := #[]
  current : Option Location := none
deriving Inhabited

namespace Code

def size (c : Code) : Nat := c.instructions.size

def get? (c : Code) (ip : Nat) : Option Instruction := c.instructions[ip]?

def locationAt (c : Code) (ip : Nat) : Option Location := (c.get? ip).bind Instruction.location

def append (c : Code) (i : Instruction) : Code :=
  { c with instructions := c.instructions.push i }

def emit (c : Code) (i : Instruction) : Code := c.append { i with location := c.current }

def emitAll (c : Code) (is : List Instruction) : Code := is.foldl emit c

def setTarget (c : Code) (ip : Nat) (target : Int32) : Except Fault Code :=
  match c.get? ip with
  | none => throw (.internal ("no instruction at " ++ toString ip ++ " to patch"))
  | some i =>
    if i.op.fields.address then
      return { c with instructions := c.instructions.setIfInBounds ip { i with number := target } }
    else
      throw (.internal ("instruction at " ++ toString ip ++ " is " ++ i.op.name ++ ", not a jump"))

def finishFunction (c : Code) (ip : Nat) : Except Fault Code :=
  match c.get? ip with
  | some i =>
    if i.op = .preamble then
      let length := Int32.ofNat (c.size - 1 - ip)
      return { c with instructions := c.instructions.setIfInBounds ip { i with number := length } }
    else throw (.internal ("no META instruction at " ++ toString ip))
  | none => throw (.internal ("no META instruction at " ++ toString ip))

/-- The locations of a source where a debugger can stop, in code order and without repetition. -/
def breakableLocations (c : Code) (source : UInt32) : List Location :=
  (c.instructions.toList.filterMap fun i =>
    i.location.filter fun l => l.source == source && l.breakable).eraseDups

end Code

end ScriptMachine
