import ScriptMachine.Library.Basic
import ScriptMachine.Library.Coroutine
import ScriptMachine.Library.Protection

namespace ScriptMachine.Library

def globalFunctions : List (String × Builtin) := [
  ("pcall", .pcall), ("xpcall", .xpcall), ("error", .error), ("assert", .assert),
  ("print", .print), ("type", .type), ("tostring", .tostring), ("tonumber", .tonumber),
  ("select", .select), ("setmetatable", .setmetatable), ("getmetatable", .getmetatable),
  ("rawget", .rawget), ("rawset", .rawset), ("rawequal", .rawequal), ("next", .next),
  ("ipairs", .ipairs)]

def coroutineFunctions : List (String × Builtin) := [
  ("create", .create), ("wrap", .wrap), ("resume", .resume), ("yield", .yield),
  ("running", .running), ("status", .status), ("close", .close),
  ("isyieldable", .isyieldable)]

def run (E : Engine) (site : CallSite) (a : Arguments) : Builtin → Exec Value
  | .pcall => pcall E site a
  | .xpcall => xpcall E site a
  | .error => error site a
  | .assert => assert a
  | .print => print E a
  | .type => type a
  | .tostring => tostring E a
  | .tonumber => tonumber a
  | .select => select a
  | .setmetatable => setmetatable a
  | .getmetatable => getmetatable a
  | .rawget => rawget a
  | .rawset => rawset a
  | .rawequal => return rawequal a
  | .next => next a
  | .ipairs => ipairs a
  | .ipairsStep => ipairsStep a
  | .create => create a
  | .wrap => wrap a
  | .resume => resume E site a
  | .yield => return yield a
  | .running => running site
  | .status => status a
  | .close => close E a
  | .isyieldable => isyieldable site
  | .wrapped co => wrapped E site co a
  | .withStatus ok => return withStatus ok a

def registerAll (h : Heap) (t : TableId) (functions : List (String × Builtin)) : Heap :=
  functions.foldl (fun h (name, b) =>
    let (id, h) := h.newNative { name, behavior := .builtin b }
    h.modifyTable t fun t => t.setString name (.native id)) h

def register (h : Heap) (globals : TableId) : Heap :=
  let (coroutine, h) := h.newTable {}
  let h := registerAll h coroutine coroutineFunctions
  let h := registerAll h globals globalFunctions
  h.modifyTable globals fun t =>
    (t.setString "coroutine" (.table coroutine)).setString "_G" (.table globals)

end ScriptMachine.Library
