import ScriptMachine.Fault.Complaint
import ScriptMachine.Table.Key

namespace ScriptMachine

/-- An associative array. The values of the keys `1, ..., n` stand in the array part, whose last
value is not nil; all other entries are kept in the order in which their keys arrived. An entry
that was set to nil keeps its place, so that a traversal under way can go on from it. -/
structure Table where
  array : Array Value := #[]
  entries : Array (Value × Value) := #[]
  index : Std.TreeMap Table.Key Nat := ∅
  dead : Nat := 0
  metatable : Option TableId := none
  filled : Nat := 0
deriving Inhabited

namespace Table

def length (t : Table) : Nat := t.array.size

def find? (t : Table) (k : Key) : Option (Nat × Value) := do
  let i ← t.index[k]?
  let (_, v) ← t.entries[i]?
  return (i, v)

def getKey (t : Table) (k : Key) : Value :=
  match t.find? k with
  | some (_, v) => v
  | none => .nil

def get (t : Table) (key : Value) : Value :=
  let key := key.toScalar
  match (slot? key).bind (t.array[·]?) with
  | some v => v
  | none =>
    match key? key with
    | some k => t.getKey k
    | none => .nil

def getString (t : Table) (s : String) : Value := t.getKey (.string s)

def getInt (t : Table) (n : Int) : Value := t.get (.number (.ofInt n))

def checkKey : Value → Except Complaint Unit
  | .nil => throw .indexIsNil
  | .number x => if x.isNaN then throw .indexIsNaN else pure ()
  | _ => pure ()

def compact (t : Table) : Table :=
  let live := t.entries.filter fun (_, v) => !v.isNil
  let index := (live.foldl (fun (acc : Std.TreeMap Key Nat × Nat) (k, _) =>
    match key? k with
    | some k => (acc.1.insert k acc.2, acc.2 + 1)
    | none => (acc.1, acc.2 + 1)) (∅, 0)).1
  { t with entries := live, index, dead := 0 }

def isSparse (t : Table) : Bool := 8 < t.dead && t.entries.size < t.dead * 2

def append (t : Table) (k : Key) (key v : Value) : Table :=
  { t with index := t.index.insert k t.entries.size, entries := t.entries.push (key, v) }

def overwrite (t : Table) (i : Nat) (old v : Value) : Table :=
  let dead := match old.isNil, v.isNil with
    | false, true => t.dead + 1
    | true, false => t.dead - 1
    | _, _ => t.dead
  { t with entries := t.entries.modify i fun (k, _) => (k, v), dead }

def setEntry (t : Table) (k : Key) (key v : Value) : Table :=
  match t.find? k with
  | some (i, old) => t.overwrite i old v
  | none =>
    if v.isNil then t
    else (if t.isSparse then t.compact else t).append k key v

def eraseEntry (t : Table) (key : Value) : Table :=
  match (key? key).bind t.find? with
  | some (i, old) => t.overwrite i old .nil
  | none => t

def trimArray (t : Table) : Table :=
  { t with array := t.array.popWhile Value.isNil }

def absorbNext? (t : Table) : Option Table := do
  let k ← key? (Value.ofNat (t.array.size + 1))
  let (i, v) ← t.find? k
  if v.isNil then none
  else
    let t := t.overwrite i v .nil
    return { t with array := t.array.push v }

def absorb : Nat → Table → Table
  | 0, t => t
  | n + 1, t =>
    match t.absorbNext? with
    | some t => absorb n t
    | none => t

def extend (t : Table) (v : Value) : Table :=
  absorb t.entries.size { t with array := t.array.push v }

/-- Writes outside the array part. A value without a key form is not stored. -/
def insertEntry (t : Table) (key v : Value) : Table :=
  match key? key with
  | some k => t.setEntry k key v
  | none => t

def insert (t : Table) (key v : Value) : Table :=
  match slot? key with
  | none => t.insertEntry key v
  | some i =>
    if i < t.array.size then trimArray { t with array := t.array.setIfInBounds i v }
    else if i = t.array.size ∧ !v.isNil then (t.eraseEntry key).extend v
    else t.insertEntry key v

/-- Writes a value under a key. Setting nil removes the key. -/
def set (t : Table) (key v : Value) : Except Complaint Table := do
  let key := key.toScalar
  checkKey key
  return t.insert key v

def setString (t : Table) (s : String) (v : Value) : Table := t.setEntry (.string s) (.string s) v

def setInt (t : Table) (n : Int) (v : Value) : Table := t.insert (.number (.ofInt n)) v

def push (t : Table) (v : Value) : Table := if v.isNil then t else t.extend v

def fillOne (t : Table) (v : Value) : Table :=
  let n := t.filled + 1
  { t with filled := n }.setInt n v.toScalar

mutual

/-- Writes the next keys of a constructor. In last position a tuple gives one to each item. -/
def fill (t : Table) (last : Bool) : Value → Table
  | .tuple items => if last then fillAll t items else t.fillOne (.tuple items)
  | v => t.fillOne v

def fillAll (t : Table) : List Value → Table
  | [] => t
  | v :: vs => fillAll (fill t true v) vs

end

end Table

end ScriptMachine
