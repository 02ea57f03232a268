import ScriptMachine.Proofs.Machine.Catching
import ScriptMachine.Proofs.Machine.Releasing

namespace ScriptMachine

/-- A value is stored in a variable of the frame on top. -/
structure Assignment where
  depth : Nat
  symbol : Symbol
  value : Value
  previous : Value
  before : Machine
  outcome : Except Stop Unit
  after : Machine

/-- What a store asks of the engine. If the variable is to be closed and holds another value, that is
closed first, provided that the new one can be closed. -/
def Assignment.request (a : Assignment) : Option Request :=
  let closable := !a.value.isTruthy || (a.before.heap.metamethod? a.value "__close").isSome
  if a.symbol.isToBeClosed && closable && a.previous.isTruthy && !a.previous.rawEquals a.value then
    (a.before.heap.metamethod? a.previous "__close").map fun handler =>
      .call handler [a.previous, .nil]
  else none

/-- What happens to the variables of a flow. -/
inductive Entry where
  | closed (c : Release)
  | assigned (a : Assignment)
  /-- A closure shares variables of the frame on top. New ones are made for the slots that are
  empty. -/
  | shared (depth : Nat) (slots : List Nat)

namespace Entry

def Closes (place : Nat × Nat) : Entry → Prop
  | closed c => place = (c.depth, c.symbol.index) ∧ c.request.isSome
  | assigned a => place = (a.depth, a.symbol.index) ∧ a.request.isSome
  | shared _ _ => False

def Fills (place : Nat × Nat) : Entry → Prop
  | closed _ => False
  | assigned a => place = (a.depth, a.symbol.index) ∧ a.outcome = .ok ()
  | shared depth slots => place.1 = depth ∧ place.2 ∈ slots

def Fails : Entry → Prop
  | assigned a => a.outcome ≠ .ok ()
  | _ => False

end Entry

def Symbol.slot? : Symbol → Option Nat
  | .localVar _ index _ _ => some index
  | _ => none

def Fiber.depth (b : Fiber) : Nat := b.frames.size - 1

def Machine.held (m : Machine) (f : FiberId) (slot : Nat) : Value :=
  ((m.fiber f).frames.back?.map fun frame => frame.localValue m.heap slot).getD .nil

def Fiber.isVacant (b : Fiber) (slot : Nat) : Bool :=
  (b.frames.back?.bind fun frame => frame.local? slot).isNone

namespace Exec

variable (E : Engine) (f : FiberId)

def recordAssign (s : Symbol) (v : Value) : Recorded Entry Unit :=
  .noted (fun m r => .assigned ⟨(m.fiber f).depth, s, v, m.held f s.index, m, r.1, r.2⟩)
    (assignLocal E f s v)

def recordStore (i : Instruction) : Recorded Entry Unit := do
  let s ← symbolOf i
  recordAssign E f s (← storedValue f i)

def recordArguments (i : Instruction) : Recorded Entry Unit := do
  let arguments := Value.spread (← stackedArguments f)
  i.symbolList.zipIdx.forM fun (s, position) =>
    recordAssign E f s (parameterValue arguments position s)

def recordClosure (i : Instruction) : Recorded Entry Value :=
  .noted (fun m _ => .shared (m.fiber f).depth
    ((i.symbolList.filterMap Symbol.slot?).filter (m.fiber f).isVacant)) (makeClosure f i)

def openBlock (i : Instruction) : Exec Unit := do
  discard (topFrame f)
  modifyFrame f fun frame =>
    let frame := (frame.clear i.number i.number2).addPending (i.symbolList.map Symbol.index)
    { frame with blocks := i.symbolList.reverse :: frame.blocks }

/-- Executes an instruction, and records what happens to variables. -/
def recordExecute (fuel ip : Nat) (i : Instruction) : Recorded Entry Flow :=
  match i.op with
  | .closure => do result f (← recordClosure f i)
  | .storeLocal => do
    recordStore E f i
    return .next
  | .bindArguments => do
    recordArguments E f i
    return .next
  | .enter => do
    (releaseSymbols E f i.symbolList .nil).relabel .closed
    openBlock f i
    return .next
  | .leave | .exit => do
    (releaseBlock E f .nil fuel).relabel .closed
    clearSlots f i
    return .next
  | .clean => do
    (releaseSymbols E f i.symbolList .nil).relabel .closed
    clearSlots f i
    return .next
  | .ret => do
    (releaseBlocks E f .nil fuel).relabel .closed
    return .transfer (← finishReturn E f fuel i ip)
  | _ => Recorded.silent (execute E f fuel ip i)

def recordStep (fuel : Nat) (budget : Option Nat) (executed ip : Nat) : Recorded Entry Flow := do
  match ← read fun m => m.code.get? ip with
  | none => Recorded.silent (internal ("instruction pointer " ++ toString ip ++ " out of range"))
  | some i =>
    listening f ip i
    if budget.any (· ≤ executed) then Recorded.silent (suspendAt f ip)
    else recordExecute E f fuel ip i

def handOver (n : Nat) (frame : Frame) (handler : NativeId) (e : RuntimeError) : Exec Resumption := do
  if !frame.isNative then popArguments f
  push f (← E (.invoke handler ⟨f, frame.calledFrom⟩ [e.toValue] false))
  settle (performCall E f n) f frame.returnTo frame.isEntry

def recordUnwind : Nat → RuntimeError → Recorded Entry Resumption
  | 0, _ => Recorded.silent (throw .exhausted)
  | n + 1, e => do
    if ← readFiber f fun b => b.frames.isEmpty then Recorded.silent (fail (.runtime e))
    else
      match ← ((releaseBlocks E f e.toValue n).relabel Entry.closed).attempt with
      | .error (.fault (.runtime raised)) =>
        let raised := raised.decorate none
        emit (.warned ("finalizer failed while unwinding '" ++ e.text ++ "': " ++ raised.text))
        recordUnwind n raised
      | .error s => Recorded.silent (throw s)
      | .ok () =>
        let frame ← popFrame f
        match frame.handlers.onError with
        | some handler => Recorded.silent (handOver E f n frame handler e)
        | none => if frame.isEntry then Recorded.silent (fail (.runtime e)) else recordUnwind n e

def recordRecover (fuel : Nat) (e : RuntimeError) (ip : Nat) : Recorded Entry Round := do
  let r ← recordUnwind E f fuel (← announce E f e ip)
  afterCatch f r

def recordRound (fuel : Nat) (limit : Option Nat) (executed ip : Nat) : Recorded Entry Round := do
  match ← (recordStep E f fuel limit executed ip).attempt with
  | .ok flow => return .following limit ip flow
  | .error (.fault (.runtime e)) => recordRecover E f fuel e ip
  | .error s => Recorded.silent (throw s)

section Plain

variable {E f}

theorem plain_recordArguments (i : Instruction) :
    (recordArguments E f i).plain = bindArguments E f i := by
  rw [recordArguments, Recorded.plain_bind]
  exact congrArg _ (funext fun _ => Recorded.plain_forM fun _ => rfl)

theorem plain_recordExecute (fuel ip : Nat) (i : Instruction) :
    (recordExecute E f fuel ip i).plain = execute E f fuel ip i := by
  unfold recordExecute execute
  cases i.op with
  | closure =>
    simp only [Recorded.plain_bind]
    rfl
  | storeLocal =>
    simp only [Recorded.plain_bind, recordStore]
    rfl
  | bindArguments =>
    simp only [Recorded.plain_bind, plain_recordArguments]
    rfl
  | enter =>
    simp only [Recorded.plain_bind, Recorded.plain_relabel, plain_releaseSymbols]
    exact (bind_assoc _ _ _).symm
  | leave | exit =>
    simp only [Recorded.plain_bind, Recorded.plain_relabel, plain_releaseBlock]
    exact (bind_assoc _ _ _).symm
  | clean =>
    simp only [Recorded.plain_bind, Recorded.plain_relabel, plain_releaseSymbols]
    exact (bind_assoc _ _ _).symm
  | ret =>
    simp only [Recorded.plain_bind, Recorded.plain_relabel, plain_releaseBlocks]
    exact (bind_assoc _ _ _).symm
  | _ => rfl

theorem plain_recordStep (fuel : Nat) (budget : Option Nat) (executed ip : Nat) :
    (recordStep E f fuel budget executed ip).plain = step E f fuel budget executed ip := by
  rw [recordStep, step_eq, Recorded.plain_bind]
  refine congrArg _ (funext fun i? => ?_)
  cases i? with
  | none => rfl
  | some i =>
    dsimp only
    rw [Recorded.plain_bind]
    refine congrArg _ (funext fun _ => ?_)
    split
    · rfl
    · exact plain_recordExecute fuel ip i

theorem plain_recordUnwind (n : Nat) (e : RuntimeError) :
    (recordUnwind E f n e).plain = unwindFrames E f n e := by
  induction n generalizing e with
  | zero => rfl
  | succ n ih =>
    rw [recordUnwind, unwindFrames, Recorded.plain_bind]
    refine congrArg _ (funext fun empty => ?_)
    split
    · rfl
    · rw [Recorded.plain_bind, Recorded.plain_attempt, Recorded.plain_relabel, plain_releaseBlocks]
      refine congrArg _ (funext fun r => ?_)
      rcases r with ((raised | _) | _) | _
      case error.fault.runtime =>
        dsimp only
        rw [Recorded.plain_bind, ih]
        rfl
      case ok =>
        dsimp only
        rw [Recorded.plain_bind]
        refine congrArg _ (funext fun frame => ?_)
        cases frame.handlers.onError with
        | some handler => rfl
        | none =>
          dsimp only
          split
          · rfl
          · exact ih e
      all_goals rfl

theorem plain_recordRecover (fuel : Nat) (e : RuntimeError) (ip : Nat) :
    (recordRecover E f fuel e ip).plain = recover E f fuel e ip := by
  rw [recordRecover, recover_eq]
  simp only [Recorded.plain_bind, Recorded.plain_lift, plain_recordUnwind]

theorem plain_recordRound (fuel : Nat) (limit : Option Nat) (executed ip : Nat) :
    (recordRound E f fuel limit executed ip).plain = Exec.round E f fuel limit executed ip := by
  rw [recordRound, Exec.round, Recorded.plain_bind, Recorded.plain_attempt, plain_recordStep]
  refine congrArg _ (funext fun r => ?_)
  rcases r with ((e | _) | _) | flow
  case error.fault.runtime => exact plain_recordRecover fuel e ip
  case ok => rfl
  all_goals rfl

end Plain

end Exec

namespace Likeness

open Exec

variable {c : Likeness} [c.Lawful] {f : FiberId} [c.Carries f] {E E' : Engine} (hE : c.Agree E E')
  {n n' : Nat} (hn : c.Enough n n')
include hE hn

theorem alike_settled (frame : Frame) :
    c.AlikeRun (settle (performCall E f n) f frame.returnTo frame.isEntry)
      (settle (performCall E' f n') f frame.returnTo frame.isEntry) :=
  alike_settle (alike_performCall hE hn) _ _

theorem alike_finishReturn (i : Instruction) (ip : Nat) :
    c.AlikeRun (finishReturn E f n i ip) (finishReturn E' f n' i ip) := by
  refine .ite (.bind (.pure _) fun v => ?_)
    (.ite (.bind alike_pop fun v => ?_) (.bind (.internal _) fun v => ?_))
  all_goals
    refine .bind alike_popFrame fun frame => .bind alike_popArguments fun _ => .bind ?_ fun location =>
      .bind (alike_push v) fun _ => .ite
        (.bind alike_pop fun v => .bind (alike_applyContinuation hE _ v location) fun _ =>
          .bind (alike_push _) fun _ => alike_settled hE hn frame)
        (alike_settled hE hn frame)
    exact .read fun _ _ => rfl

theorem alike_handOver (frame : Frame) (handler : NativeId) (e : RuntimeError) :
    c.AlikeRun (handOver E f n frame handler e) (handOver E' f n' frame handler e) := by
  unfold handOver
  refine .first alike_popArguments fun _ => ?_
  refine .bind (hE _) fun _ => ?_
  exact .bind (alike_push _) fun _ => alike_settled hE hn frame

end Likeness

namespace Exec

section Agreeing

variable {E : Engine} {f : FiberId} {E' : Engine} (hE : Agrees E E')
include hE

theorem refines_recordAssign (s : Symbol) (v : Value) :
    Recorded.Refines (recordAssign E f s v) (recordAssign E' f s v) :=
  .noted (alike_iff_refines.1 (Likeness.alike_assignLocal hE.agree s v)) _

theorem refines_finishReturn (n : Nat) (i : Instruction) (ip : Nat) :
    Refines (finishReturn E f n i ip) (finishReturn E' f n i ip) :=
  alike_iff_refines.1 (Likeness.alike_finishReturn hE.agree (enough_of_le (Nat.le_refl n)) i ip).alike

theorem refines_handOver (n : Nat) (frame : Frame) (handler : NativeId) (e : RuntimeError) :
    Refines (handOver E f n frame handler e) (handOver E' f n frame handler e) :=
  alike_iff_refines.1
    (Likeness.alike_handOver hE.agree (enough_of_le (Nat.le_refl n)) frame handler e).alike

theorem refines_recordExecute (n ip : Nat) (i : Instruction) :
    Recorded.Refines (recordExecute E f n ip i) (recordExecute E' f n ip i) := by
  unfold recordExecute
  cases i.op with
  | closure => exact .refl _
  | storeLocal =>
    exact .bind (.bind (.refl _) fun _ => .bind (.refl _) fun _ => refines_recordAssign hE _ _)
      fun _ => .refl _
  | bindArguments =>
    exact .bind (.bind (.refl _) fun _ => .forM fun _ => refines_recordAssign hE _ _) fun _ => .refl _
  | enter | clean => exact .bind (.relabel (refines_releaseSymbols hE _ _) _) fun _ => .refl _
  | leave | exit => exact .bind (.relabel (refines_releaseBlock hE _ _) _) fun _ => .refl _
  | ret =>
    exact .bind (.relabel (refines_releaseBlocks hE _ _) _) fun _ =>
      .bind (.silent (refines_finishReturn hE n i ip)) fun _ => .refl _
  | _ =>
    exact .silent (alike_iff_refines.1 (Likeness.alike_execute hE.agree
      (enough_of_le (Nat.le_refl n)) ip i).alike)

theorem refines_recordStep (n : Nat) (limit : Option Nat) (executed ip : Nat) :
    Recorded.Refines (recordStep E f n limit executed ip) (recordStep E' f n limit executed ip) := by
  refine .bind (.refl _) fun i? => ?_
  cases i? with
  | none => exact .refl _
  | some i =>
    refine .bind (.refl _) fun _ => ?_
    split
    · exact .refl _
    · exact refines_recordExecute hE n ip i

theorem refines_recordUnwind (n : Nat) (e : RuntimeError) :
    Recorded.Refines (recordUnwind E f n e) (recordUnwind E' f n e) := by
  induction n generalizing e with
  | zero => exact .refl _
  | succ n ih =>
    refine .bind (.refl _) fun empty => ?_
    split
    · exact .refl _
    · refine .attempt_bind (.relabel (refines_releaseBlocks hE _ _) _) (fun _ => rfl) fun r => ?_
      rcases r with ((raised | _) | _) | _
      case error.fault.runtime => exact .bind (.refl _) fun _ => ih _
      case ok =>
        refine .bind (.refl _) fun frame => ?_
        cases frame.handlers.onError with
        | some handler => exact .silent (refines_handOver hE n frame handler e)
        | none =>
          dsimp only
          split
          · exact .refl _
          · exact ih e
      all_goals exact .refl _

theorem refines_announce (e : RuntimeError) (ip : Nat) :
    Refines (announce E f e ip) (announce E' f e ip) :=
  alike_iff_refines.1 (.bind (.read fun _ _ => rfl) fun _ =>
    .bind (Likeness.Lawful.reportError f _ ip) fun _ => .bind (.readFiber fun _ _ => rfl) fun _ =>
      .foldlM (fun e handler => Likeness.alike_handledError hE.agree handler e) _)

/-- What is recorded does not depend on how long the requests would take. -/
theorem refines_recordRound (n : Nat) (limit : Option Nat) (executed ip : Nat) :
    Recorded.Refines (recordRound E f n limit executed ip) (recordRound E' f n limit executed ip) := by
  refine .attempt_bind (refines_recordStep hE n limit executed ip) (fun _ => rfl) fun r => ?_
  rcases r with ((e | _) | _) | flow
  case error.fault.runtime =>
    exact .bind (.silent (refines_announce hE e ip)) fun e =>
      .bind (refines_recordUnwind hE n e) fun _ => .refl _
  case ok => exact .refl _
  all_goals exact .refl _

end Agreeing

end Exec

end ScriptMachine
