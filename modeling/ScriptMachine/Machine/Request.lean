import ScriptMachine.Machine.Stack

namespace ScriptMachine

structure CallSite where
  fiber : FiberId
  location : Option Location

inductive Request where
  | call (function : Value) (arguments : List Value)
  | resume (f : FiberId) (arguments : List Value)
  | close (f : FiberId)
  | invoke (native : NativeId) (site : CallSite) (arguments : List Value) (method : Bool)

abbrev Engine := Request → Exec Value

inductive Resumption where
  | jump (ip : Nat)
  | done
  | yielded
deriving DecidableEq, Repr

def Resumption.after : Option Nat → Resumption
  | some ip => jump ip
  | none => done

inductive Flow where
  | next
  | transfer (r : Resumption)
deriving DecidableEq, Repr

end ScriptMachine
