import ScriptMachine.Host.Function
import ScriptMachine.Library.Registration

namespace ScriptMachine

def Exec.invoke (E : Engine) (id : NativeId) (site : CallSite) (a : Arguments) : Exec Value := do
  let f ← read fun m => m.heap.native id
  match f.behavior with
  | .builtin b => Library.run E site a b
  | .host action =>
    Host.log f a
    Host.run E id site a action

/-- Serves a request, with another engine for the requests that come up meanwhile. -/
def Exec.serve (E : Engine) (fuel : Nat) : Engine
  | .call function arguments => callFunction E fuel function arguments
  | .resume f arguments => resume E fuel f arguments
  | .close f => close E fuel f
  | .invoke id site arguments method => invoke E id site (.ofStacked arguments method)

/-- Serves requests nested up to a depth, each with runs of at most as many steps. -/
def engine : Nat → Engine
  | 0, _ => throw .exhausted
  | fuel + 1, request => Exec.serve (engine fuel) fuel request

end ScriptMachine
