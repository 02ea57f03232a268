import ScriptMachine.Machine.Execute
import ScriptMachine.Machine.Unwinding

namespace ScriptMachine.Exec

def budget (f : FiberId) : Exec (Option Nat) := do
  readFiber f fun b =>
    if 0 < b.budget ∧ b.canYield ∧ b.status ≠ .main then some b.budget else none

def suspendAt (f : FiberId) (ip : Nat) : Exec Flow := do
  modifyFiber f fun b => { b with savedIp := some ip }
  push f (.yieldRequest [] true)
  return .transfer .yielded

def step (E : Engine) (f : FiberId) (fuel : Nat) (budget : Option Nat) (executed ip : Nat) :
    Exec Flow := do
  match ← read fun m => m.code.get? ip with
  | none => internal ("instruction pointer " ++ toString ip ++ " out of range")
  | some i =>
    if ← read fun m => m.debug.enabled then listen f ip i.location false
    if budget.any (· ≤ executed) then suspendAt f ip
    else execute E f fuel ip i

/-- Runs from an address until a result or a request leaves the loop. Errors that scripts can
catch are unwound, and a caught one goes on here. -/
def loop (E : Engine) (f : FiberId) : Nat → Option Nat → Nat → Nat → Exec Value
  | 0, _, _, _ => throw .exhausted
  | n + 1, limit, executed, ip => fun m =>
    let spent := if limit.isSome then executed + 1 else executed
    match step E f n limit executed ip m with
    | (.ok .next, m) => loop E f n limit spent (ip + 1) m
    | (.ok (.transfer (.jump target)), m) => loop E f n limit spent target m
    | (.ok (.transfer _), m) => pop f m
    | (.error (.fault (.runtime e)), m) =>
      match unwind E f n e ip m with
      | (.ok (.jump target), m) =>
        match budget f m with
        | (.ok limit, m) => loop E f n limit spent target m
        | (.error s, m) => (.error s, m)
      | (.ok _, m) => pop f m
      | (.error s, m) => (.error s, m)
    | (.error s, m) => (.error s, m)

def runFrom (E : Engine) (f : FiberId) (fuel ip : Nat) : Exec Value := do
  loop E f fuel (← budget f) 0 ip

def drive (E : Engine) (f : FiberId) (fuel : Nat) : Resumption → Exec Value
  | .jump ip => runFrom E f fuel ip
  | .done | .yielded => pop f

end ScriptMachine.Exec
