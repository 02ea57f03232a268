import ScriptMachine.Machine.Exec

namespace ScriptMachine.Exec

/-- Visits at most `n` entries of a table, from the one after a key on, and sets each to a value
right afterwards if one is given. Gives the entries and the complaint that ended the walk. -/
def walk (t : TableId) (new : Option Value) : Nat → Value →
    Exec (List (Value × Value) × Option Complaint)
  | 0, _ => return ([], none)
  | n + 1, key => do
    match (← table t).next key with
    | .error c => return ([], some c)
    | .ok none => return ([], none)
    | .ok (some (k, v)) =>
      if let some new := new then setIndex t k new
      let (rest, complaint) ← walk t new n k
      return ((k, v) :: rest, complaint)

end ScriptMachine.Exec
