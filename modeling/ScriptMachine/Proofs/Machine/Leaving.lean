import ScriptMachine.Proofs.Machine.Finalizers

namespace ScriptMachine

/-- A call under way: its frame is on top of others, and what was put on the stack for it stands on
some values. -/
structure Fiber.Runs (b : Fiber) (frame : Frame) (outer : List Frame) (lower : Array Value) :
    Prop where
  calls : b.calls = frame :: outer
  floor : frame.Floor b.values lower.size
  base : frame.base ≤ b.values.size
  below : ∀ i < lower.size, b.values[i]? = lower[i]?

def Machine.dropFrame (m : Machine) (f : FiberId) (frame : Frame) : Machine :=
  m.withFiber f fun b => { b with frames := b.frames.pop, values := b.values.shrink frame.base }

def Machine.backTo (m : Machine) (f : FiberId) (values : Array Value) : Machine :=
  m.withFiber f fun b => { b with frames := b.frames.pop, values }

section Leaving

open Exec Machine

variable {m : Machine} {f : FiberId} {frame : Frame} {outer : List Frame} {lower : Array Value}

theorem Exec.popFrame_apply (h : (m.fiber f).calls = frame :: outer) :
    popFrame f m = (.ok frame, m.dropFrame f frame) := by
  rw [popFrame, bind_ok (topFrame_apply h), bind_ok (modifyFiber_apply _ _ _)]
  rfl

theorem Exec.drop_apply {n : Nat} (h : n ≤ (m.fiber f).values.size) :
    drop f n m = (.ok (), m.withFiber f fun b =>
      { b with values := b.values.shrink ((m.fiber f).values.size - n) }) := by
  rw [drop_eq, if_neg (by omega)]

theorem Exec.popArguments_apply (argc floor : Nat) (hf : f.index < m.fibers.size)
    (hsize : (m.fiber f).values.size = floor + argc + 2)
    (hcount : (m.fiber f).values.back? = some (.ofNat argc)) (hargc : argc < 2 ^ 53) :
    popArguments f m = (.ok (), m.withFiber f fun b => { b with values := b.values.shrink floor }) := by
  have hpop : ((m.withFiber f fun b => { b with values := b.values.pop }).fiber f).values.size =
      floor + argc + 1 := by
    rw [fiber_withFiber_self hf]
    simp [hsize]
  have hlimit : countOf (.ofNat argc) < countLimit := by
    rw [countOf_ofNat hargc, countLimit, UInt64.size]
    omega
  rw [popArguments, bind_ok (pop_apply hcount)]
  change (if 0 ≤ Number.ofNat argc then _ else _ : Exec Unit) _ = _
  rw [if_pos (Number.zero_le_ofNat hargc), if_pos hlimit, countOf_ofNat hargc,
    drop_apply (by rw [hpop]; omega), hpop, withFiber_withFiber]
  refine congrArg (Prod.mk _) (withFiber_congr ?_)
  simp only [Function.comp]
  congr 1
  refine Array.ext_getElem? fun i => ?_
  rw [getElem?_shrink, getElem?_shrink, Array.getElem?_pop]
  split_ifs <;> first | rfl | omega

theorem Exec.peek_top_apply {v : Value} (h : (m.fiber f).values.back? = some v) :
    peek f 0 m = (.ok v, m) := by
  rw [Array.back?_eq_getElem?] at h
  have hsize : 0 < (m.fiber f).values.size := by
    have := (Array.getElem?_eq_some_iff.1 h).1
    omega
  rw [peek_eq, if_pos hsize, Array.getD_eq_getD_getElem?, Nat.sub_zero, h]
  rfl

theorem Exec.settle_of_value {call : Nat → CallSetup → Exec Resumption} {v : Value}
    (h : (m.fiber f).values.back? = some v) (hv : v.isRequest = false) (returnTo : Option Nat)
    (isEntry : Bool) : settle call f returnTo isEntry m = (.ok (.after returnTo), m) := by
  rw [settle, bind_ok (peek_top_apply h)]
  cases v with
  | tailCall _ | yieldRequest _ _ => cases hv
  | _ => rfl

namespace Fiber.Runs

theorem congr {b b' : Fiber} (h : b.Runs frame outer lower) (hcalls : b'.calls = b.calls)
    (hvalues : ∀ i < frame.base, b'.values[i]? = b.values[i]?) (hbase : frame.base ≤ b'.values.size) :
    b'.Runs frame outer lower where
  calls := hcalls.trans h.calls
  floor := Footing.Floor.congr h.floor hvalues
  base := hbase
  below i hi := (hvalues i (hi.trans_le (Footing.Floor.le_base h.floor))).trans (h.below i hi)

variable (h : (m.fiber f).Runs frame outer lower)
include h

theorem index_lt : f.index < m.fibers.size := index_lt_of_calls h.calls

theorem shrink_eq : (m.fiber f).values.shrink lower.size = lower := by
  refine Array.ext_getElem? fun i => ?_
  rw [getElem?_shrink]
  split
  · exact h.below i ‹_›
  · rw [Array.getElem?_eq_none (by omega)]

theorem calls_backTo (values : Array Value) : ((m.backTo f values).fiber f).calls = outer := by
  rw [backTo, fiber_withFiber_self h.index_lt]
  exact (Fiber.calls_pop _).trans (congrArg List.tail h.calls)

theorem values_backTo (values : Array Value) : ((m.backTo f values).fiber f).values = values := by
  rw [backTo, fiber_withFiber_self h.index_lt]

theorem dropFrame_native (hnative : frame.isNative = true) : m.dropFrame f frame = m.backTo f lower := by
  have hfloor := h.floor
  rw [Frame.Floor, if_pos hnative] at hfloor
  refine withFiber_congr ?_
  rw [hfloor, h.shrink_eq]

variable (hscript : frame.native = none) (hlow : frame.base < 2 ^ 53)
include hscript hlow

theorem popArguments_dropFrame : popArguments f (m.dropFrame f frame) = (.ok (), m.backTo f lower) := by
  have hfloor := h.floor
  rw [Frame.Floor, Frame.isNative, hscript, if_neg (by decide)] at hfloor
  obtain ⟨argc, hbase, hcount⟩ := hfloor
  have hfiber : (m.dropFrame f frame).fiber f = { m.fiber f with
      frames := (m.fiber f).frames.pop, values := (m.fiber f).values.shrink frame.base } :=
    fiber_withFiber_self h.index_lt
  have hsize : ((m.fiber f).values.shrink frame.base).size = lower.size + argc + 2 := by
    rw [Array.size_shrink, Nat.min_eq_left h.base, hbase]
  rw [popArguments_apply argc lower.size ?_ ?_ ?_ (by omega), dropFrame,
    withFiber_withFiber]
  · refine congrArg (Prod.mk _) (withFiber_congr ?_)
    simp only [Function.comp]
    congr 1
    refine Array.ext_getElem? fun i => ?_
    rw [getElem?_shrink, getElem?_shrink]
    split_ifs with hi hi'
    · exact h.below i hi
    · omega
    · rw [Array.getElem?_eq_none (by omega)]
  · exact Array.size_modify.symm ▸ h.index_lt
  · rw [hfiber]
    exact hsize
  · rw [hfiber, Array.back?_eq_getElem?]
    dsimp only
    rw [hsize, getElem?_shrink, if_pos (by omega)]
    exact hcount

/-- A script function that is left is taken off the stacks, with all that was put there for it. -/
theorem leave {α : Type} (k : Frame → Exec α) : (do
      let frame ← popFrame f
      popArguments f
      k frame) m = k frame (m.backTo f lower) := by
  rw [bind_ok (popFrame_apply h.calls), bind_ok (h.popArguments_dropFrame hscript hlow)]

end Fiber.Runs

/-- The value that a return instruction takes from the stack of its frame. -/
def Instruction.Returns (i : Instruction) (frame : Frame) (v : Value) (values : Array Value) : Prop :=
  i.number = 0 ∧ v = .tuple [] ∨
    i.number = 1 ∧ frame.base < values.size ∧ values.back? = some v

theorem Fiber.Runs.finishReturn (h : (m.fiber f).Runs frame outer lower) (hscript : frame.native = none)
    (hlow : frame.base < 2 ^ 53) (hcontinuation : frame.handlers.continuation = none)
    {i : Instruction} {v : Value} (hi : i.Returns frame v (m.fiber f).values)
    (hv : v.isRequest = false) (E : Engine) (fuel ip : Nat) :
    finishReturn E f fuel i ip m = (.ok (.after frame.returnTo), m.backTo f (lower.push v)) := by
  have hfinish {m : Machine} (h : (m.fiber f).Runs frame outer lower) :
      leaveWith E f fuel ip v m = (.ok (.after frame.returnTo), m.backTo f (lower.push v)) := by
    have hpush : (m.backTo f lower).withFiber f (fun b => { b with values := b.values.push v }) =
        m.backTo f (lower.push v) := m.withFiber_withFiber f _ _
    rw [leaveWith, h.leave hscript hlow, hcontinuation]
    change settle (performCall E f fuel) f frame.returnTo frame.isEntry (withFiber _ f _) = _
    rw [hpush, settle_of_value ?_ hv]
    rw [h.values_backTo]
    exact Array.back?_push
  rw [Exec.finishReturn]
  rcases hi with ⟨hnumber, rfl⟩ | ⟨hnumber, hbase, hback⟩
  · rw [if_pos hnumber]
    exact hfinish h
  · have hruns : ((m.withFiber f fun b => { b with values := b.values.pop }).fiber f).Runs frame outer
        lower := by
      rw [fiber_withFiber_self h.index_lt]
      refine h.congr rfl (fun j hj => ?_) ?_
      · rw [Array.getElem?_pop, if_pos (by omega)]
      · rw [Array.size_pop]
        omega
    rw [if_neg (by rw [hnumber]; decide), if_pos hnumber]
    refine ((bind_ok (pop_apply hback)).trans (hfinish hruns)).trans ?_
    rw [backTo, withFiber_withFiber]
    rfl

end Leaving
end ScriptMachine
