import ScriptMachine.Proofs.Machine.LikeRounds

namespace ScriptMachine

open Exec Machine

section Entering

variable {f : FiberId} {m m' : Machine} {α : Type}

def Machine.entered (m : Machine) (f : FiberId) : Machine :=
  let m := m.withFiber f fun b => { b with nesting := b.nesting + 1 }
  if f ≠ mainFiber then { m with active := f :: m.active } else m

def Machine.exited (m : Machine) (f : FiberId) : Machine :=
  (if f ≠ mainFiber then { m with active := m.active.tail } else m).withFiber f fun b =>
    { b with nesting := b.nesting - 1 }

theorem entering_apply (x : Exec α) (m : Machine) :
    entering f x m = ((x (m.entered f)).1, (x (m.entered f)).2.exited f) := by
  have hafter (m : Machine) : (do
      if f ≠ mainFiber then modify fun m => { m with active := m.active.tail }
      modifyFiber f fun b => { b with nesting := b.nesting - 1 } : Exec Unit) m =
      (.ok (), m.exited f) := by
    unfold exited
    split <;> rfl
  rw [← ensuring_apply hafter x]
  unfold entering entered
  rw [bind_ok (modifyFiber_apply _ _ _)]
  split <;> rfl

theorem Machine.fiber_entered (m : Machine) (f f' : FiberId) : (m.entered f).fiber f' =
    (m.withFiber f fun b => { b with nesting := b.nesting + 1 }).fiber f' := by
  unfold entered
  dsimp only
  split <;> rfl

theorem Machine.fiber_exited (m : Machine) (f f' : FiberId) : (m.exited f).fiber f' =
    (m.withFiber f fun b => { b with nesting := b.nesting - 1 }).fiber f' := by
  unfold exited
  split <;> rfl

theorem Machine.size_entered (m : Machine) (f : FiberId) :
    (m.entered f).fibers.size = m.fibers.size := by
  unfold entered
  dsimp only
  split <;> exact Array.size_modify

theorem Machine.size_exited (m : Machine) (f : FiberId) :
    (m.exited f).fibers.size = m.fibers.size := by
  unfold exited
  split <;> exact Array.size_modify

theorem Machine.active_entered (m : Machine) (f : FiberId) :
    (m.entered f).active = if f ≠ mainFiber then f :: m.active else m.active := by
  unfold entered
  dsimp only
  split <;> rfl

theorem Machine.heap_entered (m : Machine) (f : FiberId) : (m.entered f).heap = m.heap := by
  unfold entered
  dsimp only
  split <;> rfl

theorem Machine.heap_exited (m : Machine) (f : FiberId) : (m.exited f).heap = m.heap := by
  unfold exited
  split <;> rfl

theorem Machine.active_exited (m : Machine) (f : FiberId) :
    (m.exited f).active = if f ≠ mainFiber then m.active.tail else m.active := by
  unfold exited
  split <;> rfl

theorem Machine.active_left {start : Machine} (h : m.active = (start.entered f).active)
    (g : Fiber → Fiber) : ((m.withFiber f g).exited f).active = start.active := by
  have hsame : (m.withFiber f g).active = m.active := rfl
  rw [active_exited, hsame, h, active_entered]
  split <;> rfl

/-- What happens inside a flow concerns no other flow, and afterwards the same ones are active. -/
theorem Keeps.exited (h : Keeps (· ≠ f) (m.entered f) m') : Keeps (· ≠ f) m (m'.exited f) where
  active := by
    have hactive := h.active
    rw [Machine.active_entered] at hactive
    unfold Machine.exited
    split at hactive
    · rw [if_pos ‹_›]
      exact congrArg List.tail hactive
    · rw [if_neg ‹_›]
      exact hactive
  code := by
    refine Eq.trans ?_ (h.code.trans ?_)
    · unfold Machine.exited
      split <;> rfl
    · unfold Machine.entered
      dsimp only
      split <;> rfl
  options := by
    refine Eq.trans ?_ (h.options.trans ?_)
    · unfold Machine.exited
      split <;> rfl
    · unfold Machine.entered
      dsimp only
      split <;> rfl
  natives := by
    intro id hid
    rw [Machine.heap_exited]
    rw [← Machine.heap_entered m f] at hid ⊢
    exact h.natives id hid
  size := by
    rw [Machine.size_exited, ← Machine.size_entered m f]
    exact h.size
  fiber f' hne hbusy := by
    have hentered : (m.entered f).fiber f' = m.fiber f' := by
      rw [Machine.fiber_entered, Machine.fiber_withFiber_ne hne]
    have hbusy' : Busy (m.entered f) f' := by
      rw [Busy, hentered, Machine.size_entered]
      exact hbusy
    rw [Machine.fiber_exited, Machine.fiber_withFiber_ne hne, h.fiber f' hne hbusy', hentered]

end Entering

section HostCalls

variable {f : FiberId} {α : Type}

def Machine.prepared (m : Machine) (f : FiberId) : Machine :=
  (m.entered f).withFiber f fun b => { b with canYield := false }

theorem Machine.fiber_prepared {m : Machine} (hf : f.index < m.fibers.size) : (m.prepared f).fiber f =
    { m.fiber f with nesting := (m.fiber f).nesting + 1, canYield := false } := by
  rw [prepared, fiber_withFiber_self (by rw [size_entered]; exact hf), fiber_entered,
    fiber_withFiber_self hf]

namespace Exec

/-- Puts a function and its arguments on the stack and sets up the call. -/
def beginCall (E : Engine) (f : FiberId) (fuel : Nat) (function : Value) (arguments : List Value) :
    Exec Resumption := do
  push f function
  pushAll f arguments
  performCall E f fuel arguments.length { isEntry := true }

def hostCall (E : Engine) (f : FiberId) (fuel : Nat) (function : Value) (arguments : List Value) :
    Exec Value := do
  drive E f fuel (← beginCall E f fuel function arguments)

end Exec

theorem guarded_apply (x : Exec α) (m : Machine) :
    guarded f x m = match x (m.withFiber f fun b => { b with canYield := false }) with
      | (.ok a, m') => (.ok a, m'.withFiber f fun b => { b with canYield := (m.fiber f).canYield })
      | (.error s, m') => (.error s, (m'.withFiber f fun b =>
          { b with canYield := (m.fiber f).canYield }).withFiber f fun b => { b with
            values := b.values.shrink (m.fiber f).values.size
            frames := b.frames.shrink (m.fiber f).frames.size }) := by
  rw [guarded, bind_ok (readFiber_apply _ _ _), bind_ok (readFiber_apply _ _ _),
    bind_ok (readFiber_apply _ _ _), bind_ok (modifyFiber_apply _ _ _)]
  rcases hx : x (m.withFiber f fun b => { b with canYield := false }) with ⟨s | a, m'⟩
  · rw [bind_ok (attempt_apply hx)]
    rfl
  · rw [bind_ok (attempt_apply hx)]
    rfl

theorem callFunction_apply (E : Engine) (fuel : Nat) (function : Value) (arguments : List Value)
    (m : Machine) : callFunction E fuel function arguments m =
      ensuring (entering m.currentFiber <| guarded m.currentFiber <|
        hostCall E m.currentFiber fuel function arguments) (reportEnd m.currentFiber) m := by
  have hbody : hostCall E m.currentFiber fuel function arguments = (do
      push m.currentFiber function
      pushAll m.currentFiber arguments
      runCall E m.currentFiber fuel arguments.length) := by
    simp only [hostCall, beginCall, runCall, bind_assoc]
  rw [hbody]
  rfl

theorem outcome_callFunction (E : Engine) (fuel : Nat) (function : Value) (arguments : List Value)
    (m : Machine) : (callFunction E fuel function arguments m).1 =
      (hostCall E m.currentFiber fuel function arguments (m.prepared m.currentFiber)).1 := by
  rw [callFunction_apply, ensuring_apply fun m' => (reportEnd_apply m.currentFiber m').1,
    entering_apply, guarded_apply, ← prepared]
  rcases hostCall E m.currentFiber fuel function arguments (m.prepared m.currentFiber) with
    ⟨s | a, m'⟩ <;> rfl

end HostCalls

section Resuming

variable {f : FiberId} {m : Machine} {α : Type} {E : Engine}

theorem sound_entered (hm : Sound m) (hf : f.index < m.fibers.size) (hne : f ≠ mainFiber) :
    Sound ((m.entered f).withFiber f fun b => { b with status := .running }) ∧
      Busy ((m.entered f).withFiber f fun b => { b with status := .running }) f := by
  have hsize : ((m.entered f).withFiber f fun b => { b with status := .running }).fibers.size =
      m.fibers.size := Array.size_modify.trans (size_entered m f)
  have hself : (((m.entered f).withFiber f fun b => { b with status := .running }).fiber f).status =
      .running := by
    rw [fiber_withFiber_self (by rw [size_entered]; exact hf)]
  have hother (f' : FiberId) (h : f' ≠ f) :
      ((m.entered f).withFiber f fun b => { b with status := .running }).fiber f' = m.fiber f' := by
    rw [fiber_withFiber_ne h, fiber_entered, fiber_withFiber_ne h]
  refine ⟨⟨?_, fun f' hf' => ?_⟩, hsize ▸ hf, .inr hself⟩
  · rw [hsize, hother _ hne.symm]
    exact hm.main
  · rw [hsize]
    by_cases h : f' = f
    · rw [h]
      exact ⟨hf, hself⟩
    · have hactive : f' ∈ f :: m.active := by
        have := active_entered m f
        rw [if_pos hne] at this
        exact this ▸ hf'
      rw [hother f' h]
      exact hm.active f' ((List.mem_cons.1 hactive).resolve_left h)

theorem Sound.idle (hm : Sound m) (h : (m.fiber f).status ≠ .main) :
    f.index < m.fibers.size ∧ f ≠ mainFiber := by
  constructor
  · by_contra hlt
    refine h ?_
    rw [fiber, Array.getD_eq_getD_getElem?, Array.getElem?_eq_none (by omega)]
    rfl
  · rintro rfl
    exact h hm.main.2

theorem Keeps.undisturbed {m' : Machine} (h : Keeps (· ≠ f) m m')
    (hidle : (m.fiber f).status ≠ .main ∧ (m.fiber f).status ≠ .running) :
    Keeps (fun _ => True) m m' := by
  refine { h with fiber := fun f' _ hbusy => h.fiber f' ?_ hbusy }
  rintro rfl
  exact hbusy.2.elim hidle.1 hidle.2

end Resuming

end ScriptMachine
