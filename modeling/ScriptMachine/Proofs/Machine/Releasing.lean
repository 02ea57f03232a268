import ScriptMachine.Proofs.Machine.FinalizerOrder
import ScriptMachine.Proofs.Machine.Recording

namespace ScriptMachine

/-- A value is closed that a variable held. -/
structure Release where
  depth : Nat
  symbol : Symbol
  value : Value
  error : Value
  before : Machine
  outcome : Except Stop Unit
  after : Machine

def Release.request (c : Release) : Option Request :=
  if c.value.isTruthy then
    (c.before.heap.metamethod? c.value "__close").map fun handler =>
      .call handler [c.value, c.error]
  else none

namespace Exec

variable (E : Engine) (f : FiberId)

def releaseValue (depth : Nat) (s : Symbol) (v error : Value) : Recorded Release Unit :=
  .noted (fun m r => ⟨depth, s, v, error, m, r.1, r.2⟩) (closeValue E s v error)

def releaseSymbol (s : Symbol) (error : Value) : Recorded Release Unit := do
  let depth ← readFiber f fun b => b.frames.size - 1
  match ← takeClosable f s with
  | some v => releaseValue E depth s v error
  | none => pure ()

def releaseSymbols (ss : List Symbol) (error : Value) : Recorded Release Unit :=
  ss.reverse.forM fun s => releaseSymbol E f s error

def releaseBlock (error : Value) : Nat → Recorded Release Unit
  | 0 => Recorded.silent (throw .exhausted)
  | n + 1 => do
    match (← topFrame f).blocks with
    | [] => pure ()
    | [] :: outer => modifyFrame f fun frame => { frame with blocks := outer }
    | (s :: rest) :: outer =>
      modifyFrame f fun frame => { frame with blocks := rest :: outer }
      releaseSymbol E f s error
      releaseBlock error n

def releaseBlocks (error : Value) : Nat → Recorded Release Unit
  | 0 => Recorded.silent (throw .exhausted)
  | n + 1 => do
    if (← topFrame f).blocks.isEmpty then pure ()
    else
      releaseBlock E f error n
      releaseBlocks error n

def releaseFrames : Nat → Recorded Release Unit
  | 0 => Recorded.silent (throw .exhausted)
  | n + 1 => do
    if ← readFiber f fun b => !b.frames.isEmpty then
      releaseBlocks E f .nil n
      Recorded.silent (discard (popFrame f))
      releaseFrames n

variable {E f}

theorem plain_releaseSymbol (s : Symbol) (error : Value) :
    (releaseSymbol E f s error).plain = closeSymbol E f s error := by
  funext m
  rw [releaseSymbol, Recorded.plain_bind, Recorded.plain_lift, bind_ok (readFiber_apply f _ m),
    Recorded.plain_bind, Recorded.plain_lift, closeSymbol]
  refine congrFun (congrArg _ (funext fun v? => ?_)) m
  cases v? <;> rfl

theorem plain_releaseSymbols (ss : List Symbol) (error : Value) :
    (releaseSymbols E f ss error).plain = closeSymbols E f ss error :=
  Recorded.plain_forM fun s => plain_releaseSymbol s error

theorem plain_releaseBlock (error : Value) (n : Nat) :
    (releaseBlock E f error n).plain = closeBlock E f error n := by
  induction n with
  | zero => rfl
  | succ n ih =>
    rw [releaseBlock, Recorded.plain_bind, Recorded.plain_lift, closeBlock]
    refine congrArg _ (funext fun top => ?_)
    rcases top.blocks with _ | ⟨_ | ⟨s, rest⟩, outer⟩
    · rfl
    · rfl
    · simp only [Recorded.plain_bind, Recorded.plain_lift, plain_releaseSymbol, ih]

theorem plain_releaseBlocks (error : Value) (n : Nat) :
    (releaseBlocks E f error n).plain = closeBlocks E f error n := by
  induction n with
  | zero => rfl
  | succ n ih =>
    rw [releaseBlocks, Recorded.plain_bind, Recorded.plain_lift, closeBlocks]
    refine congrArg _ (funext fun top => ?_)
    split
    · rfl
    · rw [Recorded.plain_bind, plain_releaseBlock, ih]

theorem plain_releaseFrames (n : Nat) : (releaseFrames E f n).plain = closeFrames E f n := by
  induction n with
  | zero => rfl
  | succ n ih =>
    rw [releaseFrames, Recorded.plain_bind, Recorded.plain_lift, closeFrames]
    refine congrArg _ (funext fun open? => ?_)
    split
    · simp only [Recorded.plain_bind, Recorded.plain_silent, plain_releaseBlocks, ih]
    · rfl

section Agreeing

variable {E' : Engine} (hE : Agrees E E')
include hE

theorem refines_closeValue (s : Symbol) (v error : Value) :
    Refines (closeValue E s v error) (closeValue E' s v error) :=
  alike_iff_refines.1 (Likeness.alike_closeValue hE.agree s v error)

theorem refines_releaseSymbol (s : Symbol) (error : Value) :
    Recorded.Refines (releaseSymbol E f s error) (releaseSymbol E' f s error) := by
  refine .bind (.refl _) fun depth => .bind (.refl _) fun v? => ?_
  cases v? with
  | none => exact .refl _
  | some v => exact .noted (refines_closeValue hE s v error) _

theorem refines_releaseSymbols (ss : List Symbol) (error : Value) :
    Recorded.Refines (releaseSymbols E f ss error) (releaseSymbols E' f ss error) :=
  .forM fun s => refines_releaseSymbol hE s error

theorem refines_releaseBlock (error : Value) (n : Nat) :
    Recorded.Refines (releaseBlock E f error n) (releaseBlock E' f error n) := by
  induction n with
  | zero => exact .refl _
  | succ n ih =>
    refine .bind (.refl _) fun top => ?_
    match top.blocks with
    | [] => exact .refl _
    | [] :: outer => exact .refl _
    | (s :: rest) :: outer =>
      exact .bind (.refl _) fun _ => .bind (refines_releaseSymbol hE s error) fun _ => ih

theorem refines_releaseBlocks (error : Value) (n : Nat) :
    Recorded.Refines (releaseBlocks E f error n) (releaseBlocks E' f error n) := by
  induction n with
  | zero => exact .refl _
  | succ n ih =>
    refine .bind (.refl _) fun top => ?_
    split
    · exact .refl _
    · exact .bind (refines_releaseBlock hE error n) fun _ => ih

theorem refines_releaseFrames (n : Nat) :
    Recorded.Refines (releaseFrames E f n) (releaseFrames E' f n) := by
  induction n with
  | zero => exact .refl _
  | succ n ih =>
    refine .bind (.refl _) fun open? => ?_
    split
    · exact .bind (refines_releaseBlocks hE .nil n) fun _ => .bind (.refl _) fun _ => ih
    · exact .refl _

end Agreeing

end Exec

open Exec

theorem Awaits.releaseSymbol_apply {frame : Frame} {outer : List Frame} {blocks : List (List Symbol)}
    {m : Machine} {E : Engine} {f : FiberId} (h : Awaits f frame outer blocks m) (s : Symbol)
    (error : Value) :
    releaseSymbol E f s error m =
      if s.index ∈ frame.pending then
        releaseValue E outer.length s (frame.localValue m.heap s.index) error
          (m.withTop f (.take s.index))
      else ((.ok (), m), []) := by
  have hdepth : readFiber f (fun b => b.frames.size - 1) m = (.ok outer.length, m) := by
    rw [readFiber_apply, Fiber.size_frames, h.calls]
    rfl
  rw [releaseSymbol]
  refine (Recorded.silent_ok hdepth).trans ?_
  by_cases hs : s.index ∈ frame.pending
  · have htake : takeClosable f s m =
        (.ok (some (frame.localValue m.heap s.index)), m.withTop f (.take s.index)) := by
      rw [takeClosable, bind_ok (topFrame_apply h.calls), if_pos hs]
      rfl
    rw [if_pos hs]
    exact Recorded.silent_ok htake
  · have htake : takeClosable f s m = (.ok none, m) := by
      rw [takeClosable, bind_ok (topFrame_apply h.calls), if_neg hs]
      rfl
    rw [if_neg hs]
    exact Recorded.silent_ok htake

end ScriptMachine
