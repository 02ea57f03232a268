import ScriptMachine.Proofs.Machine.Natives

namespace ScriptMachine

variable {α : Type}

/-- The calls under way, innermost first. -/
def Fiber.calls (b : Fiber) : List Frame := b.frames.toList.reverse

/-- What running code never changes in its own flow. -/
structure SameRole (b b' : Fiber) : Prop where
  status : b'.status = b.status
  canYield : b'.canYield = b.canYield
  closeError : b'.closeError = b.closeError
  nesting : b'.nesting = b.nesting
  budget : b'.budget = b.budget
  owner : b'.owner = b.owner

theorem SameRole.stacks (b : Fiber) (values : Array Value) (frames : Array Frame) (savedIp : Option Nat) :
    SameRole b { b with values, frames, savedIp } := ⟨rfl, rfl, rfl, rfl, rfl, rfl⟩

/-- What running code never changes in a frame. -/
structure Frame.Like (frame frame' : Frame) : Prop where
  base : frame'.base = frame.base
  returnTo : frame'.returnTo = frame.returnTo
  isEntry : frame'.isEntry = frame.isEntry
  native : frame'.native = frame.native
  handlers : frame'.handlers = frame.handlers

theorem SameRole.refl (b : Fiber) : SameRole b b := ⟨rfl, rfl, rfl, rfl, rfl, rfl⟩

theorem SameRole.trans {b b' b'' : Fiber} (h : SameRole b b') (h' : SameRole b' b'') :
    SameRole b b'' :=
  ⟨h'.status.trans h.status, h'.canYield.trans h.canYield, h'.closeError.trans h.closeError,
    h'.nesting.trans h.nesting, h'.budget.trans h.budget, h'.owner.trans h.owner⟩

theorem Frame.Like.refl (frame : Frame) : frame.Like frame := ⟨rfl, rfl, rfl, rfl, rfl⟩

theorem Frame.Like.trans {frame frame' frame'' : Frame} (h : frame.Like frame')
    (h' : frame'.Like frame'') : frame.Like frame'' :=
  ⟨h'.base.trans h.base, h'.returnTo.trans h.returnTo, h'.isEntry.trans h.isEntry,
    h'.native.trans h.native, h'.handlers.trans h.handlers⟩

namespace Fiber

variable {b : Fiber} {frame : Frame} {outer : List Frame}

theorem back?_frames (b : Fiber) : b.frames.back? = b.calls.head? := by
  rw [calls, List.head?_reverse, Array.getLast?_toList]

theorem calls_push (b : Fiber) (frame : Frame) :
    { b with frames := b.frames.push frame }.calls = frame :: b.calls := by
  simp [calls]

theorem calls_pop (b : Fiber) : { b with frames := b.frames.pop }.calls = b.calls.tail := by
  simp [calls]

theorem modify_concat (l : List α) (a : α) (g : α → α) :
    (l ++ [a]).modify l.length g = l ++ [g a] := by
  induction l with
  | nil => rfl
  | cons x l ih => exact congrArg (x :: ·) ih

theorem calls_modify (h : b.calls = frame :: outer) (g : Frame → Frame) :
    { b with frames := b.frames.modify (b.frames.size - 1) g }.calls = g frame :: outer := by
  have hlist : b.frames.toList = outer.reverse ++ [frame] := by
    rw [← List.reverse_reverse b.frames.toList]
    exact (congrArg List.reverse h).trans List.reverse_cons
  have hsize : b.frames.size - 1 = outer.reverse.length := by
    rw [← Array.length_toList, hlist, List.length_append]
    rfl
  rw [calls, Array.toList_modify, hsize, hlist, modify_concat, List.reverse_concat,
    List.reverse_reverse]

theorem size_frames (b : Fiber) : b.frames.size = b.calls.length := by
  simp [calls]

end Fiber

theorem getElem?_shrink (xs : Array α) (n i : Nat) :
    (xs.shrink n)[i]? = if i < n then xs[i]? else none := by
  rw [Array.shrink_eq_take, Array.take_eq_extract, Array.getElem?_extract]
  simp only [Nat.sub_zero, Nat.zero_add]
  split_ifs with h1 h2 h2
  · rfl
  · omega
  · exact (Array.getElem?_eq_none (by omega)).symm
  · rfl

theorem size_appendList (xs : Array α) (l : List α) :
    (xs.appendList l).size = xs.size + l.length := by
  rw [Array.appendList_eq_append, ← Array.length_toList, Array.toList_appendList,
    List.length_append, Array.length_toList]

theorem getElem?_appendList (xs : Array α) (l : List α) (i : Nat) :
    (xs.appendList l)[i]? = if i < xs.size then xs[i]? else l[i - xs.size]? := by
  rw [Array.appendList_eq_append, ← Array.getElem?_toList, Array.toList_appendList,
    List.getElem?_append, Array.length_toList, Array.getElem?_toList]

section ModifyFiber

variable {m : Machine} {f f' : FiberId} {g u : Fiber → Fiber}

/-- The machine with one flow changed. -/
def Machine.withFiber (m : Machine) (f : FiberId) (g : Fiber → Fiber) : Machine :=
  { m with fibers := m.fibers.modify f.index g }

theorem Exec.modifyFiber_apply (f : FiberId) (g : Fiber → Fiber) (m : Machine) :
    modifyFiber f g m = (.ok (), m.withFiber f g) := rfl

theorem Exec.readFiber_apply (f : FiberId) (g : Fiber → α) (m : Machine) :
    readFiber f g m = (.ok (g (m.fiber f)), m) := rfl

/-- A value is known that a frame returns with. -/
def Exec.leaveWith (E : Engine) (f : FiberId) (fuel ip : Nat) (v : Value) : Exec Resumption := do
  let frame ← popFrame f
  popArguments f
  let location ← read fun m => m.code.locationAt ip
  push f v
  if frame.handlers.continuation.isSome then
    let v ← applyContinuation E f frame.handlers (← pop f) location
    push f v
  settle (performCall E f fuel) f frame.returnTo frame.isEntry

theorem Exec.peek_eq (f : FiberId) (depth : Nat) (m : Machine) : peek f depth m =
    if depth < (m.fiber f).values.size then
      (.ok ((m.fiber f).values.getD ((m.fiber f).values.size - 1 - depth) .nil), m)
    else (.error (.fault (.internal
      ("value stack peek(" ++ toString depth ++ ") past the bottom"))), m) := by
  rw [peek, height, bind_ok (readFiber_apply _ _ _)]
  split <;> rfl

theorem Exec.drop_eq (f : FiberId) (n : Nat) (m : Machine) : drop f n m =
    if (m.fiber f).values.size < n then underflow m
    else (.ok (), m.withFiber f fun b =>
      { b with values := b.values.shrink ((m.fiber f).values.size - n) }) := by
  rw [drop, height, bind_ok (readFiber_apply _ _ _)]
  split <;> rfl

theorem Exec.popMany_eq (f : FiberId) (n : Nat) (m : Machine) : popMany f n m =
    if (m.fiber f).values.size < n then underflow m
    else (.ok ((m.fiber f).values.extract ((m.fiber f).values.size - n)
      (m.fiber f).values.size).toList, m.withFiber f fun b =>
        { b with values := b.values.shrink ((m.fiber f).values.size - n) }) := by
  rw [popMany, height, bind_ok (readFiber_apply _ _ _)]
  split <;> rfl

theorem Exec.topFrame_apply {frame : Frame} {outer : List Frame}
    (h : (m.fiber f).calls = frame :: outer) : topFrame f m = (.ok frame, m) := by
  have hread : readFiber f (fun b => b.frames.back?) m = (.ok (some frame), m) := by
    rw [readFiber_apply, Fiber.back?_frames, h]
    rfl
  rw [topFrame, bind_ok hread]
  rfl

theorem Exec.topFrame_nil (h : (m.fiber f).calls = []) :
    ∃ message, topFrame f m = (.error (.fault (.internal message)), m) := by
  have hread : readFiber f (fun b => b.frames.back?) m = (.ok none, m) := by
    rw [readFiber_apply, Fiber.back?_frames, h]
    rfl
  rw [topFrame, bind_ok hread]
  exact ⟨_, rfl⟩

theorem Exec.pop_apply {v : Value} (h : (m.fiber f).values.back? = some v) :
    pop f m = (.ok v, m.withFiber f fun b => { b with values := b.values.pop }) := by
  have hread : readFiber f (fun b => b.values.back?) m = (.ok (some v), m) := by
    rw [readFiber_apply, h]
  rw [pop, bind_ok hread]
  rfl

theorem Machine.fiber_withFiber_self (hf : f.index < m.fibers.size) :
    (m.withFiber f g).fiber f = g (m.fiber f) := by
  simp only [fiber, withFiber, Array.getD_eq_getD_getElem?, Array.getElem?_modify, if_true,
    Array.getElem?_eq_getElem hf]
  rfl

theorem Machine.fiber_withFiber_ne (h : f' ≠ f) : (m.withFiber f g).fiber f' = m.fiber f' := by
  have hne : f.index ≠ f'.index := fun hEq => h (by cases f; cases f'; cases hEq; rfl)
  simp only [fiber, withFiber, Array.getD_eq_getD_getElem?, Array.getElem?_modify, if_neg hne]

theorem Machine.fiber_withFiber_of {v : Fiber → α} (hv : v (g (m.fiber f)) = v (m.fiber f))
    (f' : FiberId) : v ((m.withFiber f g).fiber f') = v (m.fiber f') := by
  by_cases hEq : f' = f
  · by_cases hf : f.index < m.fibers.size
    · rw [hEq, fiber_withFiber_self hf, hv]
    · simp only [fiber, withFiber, Array.getD_eq_getD_getElem?, Array.getElem?_modify]
      rw [Array.getElem?_eq_none (by rw [hEq]; omega)]
      split <;> rfl
  · rw [fiber_withFiber_ne hEq]

theorem Machine.withFiber_of_le (h : m.fibers.size ≤ f.index) : m.withFiber f u = m := by
  have hmodify : m.fibers.modify f.index u = m.fibers := by
    refine Array.ext_getElem? fun i => ?_
    rw [Array.getElem?_modify]
    split
    · rw [Array.getElem?_eq_none (by omega)]
      rfl
    · rfl
  simp only [withFiber, hmodify]

theorem Machine.withFiber_withFiber (m : Machine) (f : FiberId) (u v : Fiber → Fiber) :
    (m.withFiber f u).withFiber f v = m.withFiber f (v ∘ u) := by
  have hmodify : (m.fibers.modify f.index u).modify f.index v = m.fibers.modify f.index (v ∘ u) := by
    refine Array.ext_getElem? fun i => ?_
    simp only [Array.getElem?_modify]
    split <;> simp
  simp only [withFiber, hmodify]

theorem Machine.withFiber_congr {v : Fiber → Fiber} (h : u (m.fiber f) = v (m.fiber f)) :
    m.withFiber f u = m.withFiber f v := by
  have hmodify : m.fibers.modify f.index u = m.fibers.modify f.index v := by
    refine Array.ext_getElem? fun i => ?_
    rw [Array.getElem?_modify, Array.getElem?_modify]
    split
    · rename_i hi
      cases hb : m.fibers[i]? with
      | none => rfl
      | some b =>
        have hfiber : m.fiber f = b := by
          rw [fiber, Array.getD_eq_getD_getElem?, hi, hb]
          rfl
        rw [Option.map_some, Option.map_some, ← hfiber, h]
    · rfl
  simp only [withFiber, hmodify]

theorem Machine.withFiber_eq_self (h : u (m.fiber f) = m.fiber f) : m.withFiber f u = m := by
  have hid : m.fibers.modify f.index id = m.fibers :=
    Array.ext_getElem? fun i => by rw [Array.getElem?_modify]; split <;> simp
  rw [withFiber_congr (v := id) h, withFiber, hid]

theorem Keeps.withFiber (m : Machine) (f : FiberId) (g : Fiber → Fiber) :
    Keeps (· ≠ f) m (m.withFiber f g) where
  active := rfl
  code := rfl
  options := rfl
  natives := .refl m
  size := (Array.size_modify).ge
  fiber _ h _ := Machine.fiber_withFiber_ne h

end ModifyFiber

/-- Only one flow has changed, and it still does the same job. -/
structure Alone (f : FiberId) (m m' : Machine) : Prop where
  keeps : Keeps (· ≠ f) m m'
  role : SameRole (m.fiber f) (m'.fiber f)

namespace Alone

variable {m m' m'' : Machine} {f : FiberId}

theorem refl (f : FiberId) (m : Machine) : Alone f m m := ⟨.refl m, .refl _⟩

theorem trans (h : Alone f m m') (h' : Alone f m' m'') : Alone f m m'' :=
  ⟨h.keeps.trans h'.keeps, h.role.trans h'.role⟩

theorem busy (h : Alone f m m') (hf : Busy m f) : Busy m' f :=
  ⟨hf.1.trans_le h.keeps.size, by rw [h.role.status]; exact hf.2⟩

theorem sound (h : Alone f m m') (hm : Sound m) : Sound m' := by
  refine hm.of_status h.keeps.active h.keeps.size fun g hg => ?_
  by_cases hEq : g = f
  · rw [hEq, h.role.status]
  · rw [h.keeps.fiber g hEq hg]

theorem of_undisturbed (h : Undisturbed m m') (hm : Sound m) (hf : Busy m f) : Alone f m m' :=
  ⟨(h hm).mono fun _ _ => trivial, by rw [(h hm).fiber f trivial hf]; exact .refl _⟩

theorem withFiber (hf : f.index < m.fibers.size) {g : Fiber → Fiber}
    (h : SameRole (m.fiber f) (g (m.fiber f))) : Alone f m (m.withFiber f g) :=
  ⟨.withFiber m f g, by rw [Machine.fiber_withFiber_self hf]; exact h⟩

end Alone

end ScriptMachine
