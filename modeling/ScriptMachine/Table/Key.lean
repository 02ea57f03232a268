import Std.Data.TreeMap
import ScriptMachine.Value.Basic

namespace ScriptMachine.Table

/-- What tells table entries apart. Raw-equal values have the same key. -/
inductive Key where
  | number (bits : UInt64)
  | string (s : String)
  | bool (b : Bool)
  | table (id : TableId)
  | closure (id : ClosureId)
  | native (id : NativeId)
  | coroutine (id : CoroutineId)
  | userdata (id : UserdataId)
deriving DecidableEq, Hashable, Repr

/-- Keys are ordered by their kind, and keys of one kind by number and text. -/
def Key.rank : Key → Nat × Nat × String
  | number bits => (0, bits.toNat, "")
  | string s => (1, 0, s)
  | bool b => (2, b.toNat, "")
  | table id => (3, id.index, "")
  | closure id => (4, id.index, "")
  | native id => (5, id.index, "")
  | coroutine id => (6, id.index, "")
  | userdata id => (7, id.index, "")

instance : Ord Key where
  compare a b := (compare a.rank.1 b.rank.1).then
    ((compare a.rank.2.1 b.rank.2.1).then (compare a.rank.2.2 b.rank.2.2))

/-- The key of a value. Nil, NaN and requests have none; the two zeros have the same one. -/
def key? : Value → Option Key
  | .nil | .yieldRequest _ _ | .tailCall _ | .tuple [] => none
  | .number x => if x.isNaN then none else some (.number (if x == 0 then 0 else x.bits))
  | .string s => some (.string s)
  | .bool b => some (.bool b)
  | .table id => some (.table id)
  | .closure id => some (.closure id)
  | .native id => some (.native id)
  | .coroutine id => some (.coroutine id)
  | .userdata id => some (.userdata id)
  | .tuple (v :: _) => key? v

def slot? : Value → Option Nat
  | .number x =>
    match x.toInt? with
    | some (.ofNat (n + 1)) => some n
    | _ => none
  | _ => none

end ScriptMachine.Table
