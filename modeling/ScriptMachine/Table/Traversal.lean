import ScriptMachine.Table.Basic

namespace ScriptMachine.Table

def firstFrom (test : Nat → Bool) : Nat → Nat → Option Nat
  | 0, _ => none
  | n + 1, i => if test i then some i else firstFrom test n (i + 1)

def nextInArray (t : Table) (start : Nat) : Option (Value × Value) := do
  let live := fun i => (t.array[i]?).any fun v => !v.isNil
  let i ← firstFrom live (t.array.size - start) start
  let v ← t.array[i]?
  return (Value.ofNat (i + 1), v)

def nextInEntries (t : Table) (start : Nat) : Option (Value × Value) := do
  let live := fun i => (t.entries[i]?).any fun e => !e.2.isNil
  let i ← firstFrom live (t.entries.size - start) start
  t.entries[i]?

/-- The entry that follows a key in a traversal: the array part first, then the other entries in
their order. Nil asks for the first entry. -/
def next (t : Table) (key : Value) : Except Complaint (Option (Value × Value)) :=
  let key := key.toScalar
  if key.isNil then return t.nextInArray 0 <|> t.nextInEntries 0
  else
    match (slot? key).filter (· < t.array.size) with
    | some i => return t.nextInArray (i + 1) <|> t.nextInEntries 0
    | none =>
      match (key? key).bind t.find? with
      | some (i, _) => return t.nextInEntries (i + 1)
      | none => throw .strayKey

def toList (t : Table) : List (Value × Value) :=
  let positions := (t.array.toList.zipIdx 1).map fun (v, i) => (Value.ofNat i, v)
  (positions ++ t.entries.toList).filter fun (_, v) => !v.isNil

end ScriptMachine.Table
