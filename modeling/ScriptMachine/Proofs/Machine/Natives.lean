import ScriptMachine.Proofs.Machine.Asides

namespace ScriptMachine

open Exec

theorem Exec.Preserves.undisturbed {α : Type} {x : Exec α} (h : Preserves Aside x) :
    Preserves Undisturbed x := h.mono fun _ _ => Aside.undisturbed

section Evaluation

theorem detached_setVariable (name : String) (v : Value) : Detached (setVariable name v) :=
  ⟨.modify fun m => ⟨⟨rfl, rfl, rfl, rfl, .refl m⟩, rfl, fun _ => rfl⟩, fun _ _ => rfl, .modify _⟩

theorem detached_makeTable (array : List Value) (pairs : List (Value × Value))
    (metatable : Option Value) : Detached (makeTable array pairs metatable) :=
  .bind (.ofComplaint _) fun _ => ⟨.modifyGet fun _ => .of_heap rfl rfl, fun _ _ => rfl, .modifyGet _⟩

theorem detached_makeTailCall (function : Value) (arguments : List Value)
    (continuation onError beforeUnwind : Option Value) :
    Detached (makeTailCall function arguments continuation onError beforeUnwind) :=
  detached_newTailCall _

mutual

theorem detached_evaluate (t : Template) : Detached (evaluate t) := by
  cases t with
  | value v => exact .pure _
  | named name => exact .read fun _ _ => rfl
  | global path => exact .read fun _ _ => rfl
  | table array pairs metatable =>
    exact .bind (detached_evaluateAll array) fun _ => .bind (detached_evaluatePairs pairs) fun _ =>
      .bind (detached_evaluateOption metatable) fun _ => detached_makeTable _ _ _
  | tuple items => exact .bind (detached_evaluateAll items) fun _ => .pure _
  | pack items => exact .bind (detached_evaluateAll items) fun _ => .pure _
  | userdata typeName metatable =>
    exact .bind (detached_evaluateOption metatable) fun _ => detached_newUserdata _
  | yieldRequest items forced => exact .bind (detached_evaluateAll items) fun _ => .pure _
  | tailCall function arguments continuation onError beforeUnwind =>
    exact .bind (detached_evaluate function) fun _ => .bind (detached_evaluateAll arguments) fun _ =>
      .bind (detached_evaluateOption continuation) fun _ =>
        .bind (detached_evaluateOption onError) fun _ =>
          .bind (detached_evaluateOption beforeUnwind) fun _ => detached_makeTailCall _ _ _ _ _
  | native name logged action =>
    exact .bind (detached_evaluateAction action) fun _ => .bind (detached_newNative _) fun _ => .pure _

theorem detached_evaluateAll (ts : List Template) : Detached (evaluateAll ts) := by
  cases ts with
  | nil => exact .pure _
  | cons t ts =>
    exact .bind (detached_evaluate t) fun _ => .bind (detached_evaluateAll ts) fun _ => .pure _

theorem detached_evaluatePair (p : Template × Template) : Detached (evaluatePair p) := by
  cases p with
  | mk k v => exact .bind (detached_evaluate k) fun _ => .bind (detached_evaluate v) fun _ => .pure _

theorem detached_evaluatePairs (ps : List (Template × Template)) :
    Detached (evaluatePairs ps) := by
  cases ps with
  | nil => exact .pure _
  | cons p ps =>
    exact .bind (detached_evaluatePair p) fun _ => .bind (detached_evaluatePairs ps) fun _ => .pure _

theorem detached_evaluateOption (t : Option Template) : Detached (evaluateOption t) := by
  cases t with
  | none => exact .pure _
  | some t => exact .bind (detached_evaluate t) fun _ => .pure _

theorem detached_evaluateAction (a : HostAction Template Template) :
    Detached (evaluateAction a) := by
  cases a with
  | const t => exact .bind (detached_evaluate t) fun _ => .pure _
  | raise t => exact .bind (detached_evaluate t) fun _ => .pure _
  | apply t => exact .bind (detached_evaluate t) fun _ => .pure _
  | _ => exact .pure _

end

end Evaluation

section Library

open Library

theorem detached_guardedCall (name : String) (function : Value) (arguments : List Value)
    (handler : Option Value) : Detached (guardedCall name function arguments handler) :=
  .bind (detached_newBuiltin _ _) fun _ => .bind (detached_newBuiltin _ _) fun _ => detached_newTailCall _

variable (a : Arguments)

theorem detached_numeralBase (v : Value) : Detached (numeralBase v) := by
  unfold numeralBase
  split
  · exact .ite (.pure _) (.complain _)
  · exact .complain _

theorem detached_errorLevel : Detached (errorLevel a) := by
  unfold errorLevel
  split
  · exact .pure _
  · split
    · exact .pure _
    · exact .complain _

theorem detached_select : Detached (select a) := by
  unfold select
  split
  · exact .pure _
  · split
    · exact .complain _
    · dsimp only
      split
      · exact .pure _
      · exact .complain _

theorem detached_setmetatable : Detached (setmetatable a) := by
  refine .bind (.ofExcept _) fun t => .bind ?_ fun metatable => .bind (.read fun _ _ => rfl) fun _ =>
    .bind (.read fun _ _ => rfl) fun _ => ?_
  · unfold newMetatable
    split
    · exact .pure _
    · exact .pure _
    · exact .complain _
  · exact .ite (.bind (.complain _) fun _ => .bind (detached_modifyTable _ _) fun _ => .pure _)
      (.bind (detached_modifyTable _ _) fun _ => .pure _)

theorem detached_getmetatable : Detached (getmetatable a) := by
  refine .bind (.read fun _ _ => rfl) fun metatable => ?_
  split
  · exact .pure _
  · exact .bind (.read fun _ _ => rfl) fun _ => .pure _

theorem detached_rawset : Detached (rawset a) :=
  .bind (.ofExcept _) fun _ => .bind (detached_setIndex _ _ _) fun _ => .pure _

theorem detached_next : Detached (next a) := by
  refine .bind (.ofExcept _) fun t => .bind (.read fun _ _ => rfl) fun _ => .bind (.ofComplaint _) fun r => ?_
  split <;> exact .pure _

theorem detached_ipairs : Detached (ipairs a) :=
  .bind (.ofExcept _) fun _ => .bind (detached_newBuiltin _ _) fun _ => .pure _

theorem detached_assert : Detached (assert a) := by
  refine .ite (.pure _) ?_
  split
  · exact .complain _
  · exact detached_raise _

end Library

/-- Nothing that is asked of the engine disturbs the flows that are in the middle of a run. -/
def Quiet (E : Engine) : Prop := ∀ request, Preserves Undisturbed (E request)

section Coroutines

theorem undisturbed_pushFiber (m : Machine) (b : Fiber) :
    Undisturbed m { m with fibers := m.fibers.push b } := fun _ => {
  active := rfl, code := rfl, options := rfl, natives := .refl m
  size := by simp
  fiber := fun f _ hf => by
    simp only [Machine.fiber, Array.getD_eq_getD_getElem?, Array.getElem?_push]
    rw [if_neg hf.1.ne] }

theorem undisturbed_newFiber (function : Value) : Preserves Undisturbed (newFiber function) :=
  .bind (.read _) fun _ => .bind (aside_newCoroutine _).undisturbed fun _ =>
    .bind (.modify fun m => undisturbed_pushFiber m _) fun _ => .pure _

theorem detached_fiberOf (co : CoroutineId) : Detached (fiberOf co) := by
  refine .bind (.read fun _ _ => rfl) fun body => ?_
  split
  · exact .pure _
  · exact .fail _

variable {E : Engine} (hE : Quiet E)
include hE

theorem undisturbed_handledError (handler : Value) (e : RuntimeError) :
    Preserves Undisturbed (handledError E handler e) := .handledError hE handler e

theorem undisturbed_applyContinuation (f : FiberId) (handlers : Handlers) (v : Value)
    (location : Option Location) :
    Preserves Undisturbed (applyContinuation E f handlers v location) := by
  unfold applyContinuation
  split
  · exact .pure _
  · exact .ite (.bind (.read _) fun _ => .complain _) (hE _)

end Coroutines

section Host

theorem detached_namedCoroutine (name : String) : Detached (Host.namedCoroutine name) := by
  refine .bind (.read fun _ _ => rfl) fun v => ?_
  split
  · exact .pure _
  · exact .fail _

theorem detached_tailCallAction (E : Engine) (id : NativeId) (site : CallSite) (a : Arguments)
    (function : Template) (arguments : Option (List Template))
    (continuation onError beforeUnwind : Option Template) :
    Detached (Host.run E id site a
      (.tailCall function arguments continuation onError beforeUnwind)) := by
  have hrest (arguments : List Value) : Detached (do
      makeTailCall (← evaluate function) arguments (← evaluateOption continuation)
        (← evaluateOption onError) (← evaluateOption beforeUnwind)) :=
    .bind (detached_evaluate function) fun _ =>
      .bind (detached_evaluateOption continuation) fun _ =>
        .bind (detached_evaluateOption onError) fun _ =>
          .bind (detached_evaluateOption beforeUnwind) fun _ => detached_makeTailCall _ _ _ _ _
  cases arguments with
  | none => exact .bind (.pure _) hrest
  | some templates => exact .bind (detached_evaluateAll templates) hrest

end Host

end ScriptMachine
