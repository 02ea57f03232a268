namespace ScriptMachine

/-- What the machine itself complains about while a script runs. The type names and the other
texts are those of the values at hand. -/
inductive Complaint where
  | indexIsNil
  | indexIsNaN
  | strayKey
  | call (type : String) (near : Option String)
  | arithmetic (type : String)
  | concatenate (type : String)
  | length (type : String)
  | compare (left right : String)
  | index (type : String) (field : Option String)
  | bitwise (type : String)
  | noInteger
  | loopInGet
  | loopInSet
  | callChain
  | multiIndexTable
  | multiIndexMetamethod
  | resumeDead
  | resumeNotSuspended
  | resumeForcedWithArguments
  | yieldAcrossCall
  | yieldOutside
  | closeMain
  | closeRunning
  | closeState (state : String)
  | notClosable (variableName : String)
  | forInitial
  | forStep
  | forLimit
  | notANumber
  | stackOverflow
  | handlerNotSet
  | notCallableDirectly (function : String)
  | continued (type continuation : String)
  | badArgument (position : Nat) (function explanation : String)
  | tostringResult
  | protectedMetatable
  | assertion
deriving DecidableEq, Repr

namespace Complaint

def message : Complaint → String
  | indexIsNil => "table index is nil"
  | indexIsNaN => "table index is NaN"
  | strayKey => "invalid key to 'next'"
  | call type none => "attempt to call a " ++ type ++ " value"
  | call type (some name) => "attempt to call a " ++ type ++ " value near '" ++ name ++ "'"
  | arithmetic type => "attempt to perform arithmetic on a " ++ type ++ " value"
  | concatenate type => "attempt to concatenate a " ++ type ++ " value"
  | length type => "attempt to get length of a " ++ type ++ " value"
  | compare left right =>
    if left = right then "attempt to compare two " ++ left ++ " values"
    else "attempt to compare " ++ left ++ " with " ++ right
  | index type none => "attempt to index a " ++ type ++ " value"
  | index type (some field) => "attempt to index a " ++ type ++ " value (field '" ++ field ++ "')"
  | bitwise type => "attempt to perform bitwise operation on a " ++ type ++ " value"
  | noInteger => "number has no integer representation"
  | loopInGet => "loop in gettable"
  | loopInSet => "loop in settable"
  | callChain => "'__call' chain too long; possible loop"
  | multiIndexTable => "cannot multi-index a table. userdata expected"
  | multiIndexMetamethod => "cannot multi-index through metamethods. userdata expected"
  | resumeDead => "cannot resume dead coroutine"
  | resumeNotSuspended => "cannot resume non-suspended coroutine"
  | resumeForcedWithArguments => "args must be empty to resume a force-suspended coroutine"
  | yieldAcrossCall => "attempt to yield across a C-call boundary"
  | yieldOutside => "attempt to yield from outside a coroutine"
  | closeMain => "cannot close the main coroutine"
  | closeRunning => "cannot close a running coroutine"
  | closeState state => "cannot close a " ++ state ++ " coroutine"
  | notClosable name => "variable '" ++ name ++ "' got a non-closable value"
  | forInitial => "'for' initial value must be a number"
  | forStep => "'for' step must be a number"
  | forLimit => "'for' limit must be a number"
  | notANumber => "value must be a number"
  | stackOverflow => "stack overflow"
  | handlerNotSet => "error handler not set to a function"
  | notCallableDirectly f =>
    "the function passed to " ++ f ++ " cannot be called directly by " ++ f ++
      ". wrap in a script function instead."
  | continued type name => "a " ++ type ++ " cannot replace a call continued by '" ++ name ++ "'"
  | badArgument position f explanation =>
    "bad argument #" ++ toString position ++ " to '" ++ f ++ "' (" ++ explanation ++ ")"
  | tostringResult => "'__tostring' must return a string"
  | protectedMetatable => "cannot change a protected metatable"
  | assertion => "assertion failed!"

end Complaint

end ScriptMachine
