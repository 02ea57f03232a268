import ScriptMachine.Fault.Basic

namespace ScriptMachine

/-- What a host function does when it is called. Its parts of type `α` are fixed when the function
is made, those of type `τ` are made anew for every call. Variables are those of the session. -/
inductive HostAction (α τ : Type) where
  | const (value : α)
  | arguments
  | count
  | isMethod
  | argument (n : Nat)
  | labelled (text : String)
  | fail (fault : Fault)
  | raise (value : α)
  | call
  | apply (function : α)
  | yield (forced : Bool)
  | tailCall (function : τ) (arguments : Option (List τ))
      (continuation onError beforeUnwind : Option τ)
  | whereabouts (levels : Nat)
  | createCoroutine
  | globals
  | countUp (limit : Nat)
  | resume (variableName : String)
  | close (variableName : String)
  | state (variableName : String)
  | save (variableName : String)
  | trace (variableName : String) (skip : Nat)

/-- A description from which a value is made. Each use makes new objects. -/
inductive Template where
  | value (v : Value)
  | named (variableName : String)
  | global (path : List String)
  | table (array : List Template) (pairs : List (Template × Template))
      (metatable : Option Template)
  | tuple (items : List Template)
  | pack (items : List Template)
  | userdata (typeName : String) (metatable : Option Template)
  | yieldRequest (items : List Template) (forced : Bool)
  | tailCall (function : Template) (arguments : List Template)
      (continuation onError beforeUnwind : Option Template)
  | native (name : String) (logged : Bool) (action : HostAction Template Template)

end ScriptMachine
