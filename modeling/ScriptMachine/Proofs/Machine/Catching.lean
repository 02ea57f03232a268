import ScriptMachine.Proofs.Machine.FinalizerOrder
import ScriptMachine.Proofs.Machine.Leaving

namespace ScriptMachine

open Exec Machine

variable {e : RuntimeError} {handler : NativeId} {r : Value}

/-- A flow is still there, with the same frames and values. -/
structure SameStacks (f : FiberId) (m m' : Machine) : Prop where
  index_lt : f.index < m'.fibers.size
  frames : (m'.fiber f).frames = (m.fiber f).frames
  values : (m'.fiber f).values = (m.fiber f).values

/-- The calls that close variables leave the stacks of the flow as they found them. -/
def Finalization.Steady (w : Finalization) (f : FiberId) : Prop :=
  ∀ c ∈ w.closings, SameStacks f c.before c.after

/-- A call under way with others above it. What was put on the stack for it stands on some values,
and no frame above it begins further down. -/
structure Fiber.Carries (b : Fiber) (above : List Frame) (frame : Frame) (below : List Frame)
    (lower : Array Value) : Prop where
  calls : b.calls = above ++ frame :: below
  floor : frame.Floor b.values lower.size
  base : frame.base ≤ b.values.size
  below : ∀ i < lower.size, b.values[i]? = lower[i]?
  above : ∀ top ∈ above, frame.base ≤ top.base

namespace Exec

/-- Frames are left one after the other while an error is under way. Their finalizers return or
raise runtime errors, and leave the stacks as they were. -/
inductive Unwinds (E : Engine) (f : FiberId) (ip : Nat) :
    List Frame → RuntimeError → Machine → RuntimeError → Machine → Prop
  | nil {e m} : Unwinds E f ip [] e m e m
  | cons {frame above e e' e'' m m''} {w : Finalization}
      (hw : finalization E f ip frame (some e) m = w) (hsteady : w.Steady f)
      (hok : w.outcome = .ok (some e'))
      (hrest : Unwinds E f ip above e' (w.machine.dropFrame f frame) e'' m'') :
      Unwinds E f ip (frame :: above) e m e'' m''

/-- An error that an instruction raises reaches a frame: no frame above it has an error handler or
leaves the loop. The message handlers and the finalizers, those of the frame itself included, return
or raise runtime errors, and leave the stacks as they were. -/
inductive Reaches (E : Engine) (f : FiberId) (ip : Nat) (above : List Frame) (frame : Frame) :
    RuntimeError → Machine → RuntimeError → Machine → Prop
  | intro {e e₁ e₂ e' m m₁ m₂} {w : Finalization}
      (hplain : ∀ t ∈ above, t.handlers.onError = none ∧ t.isEntry = false)
      (hannounce : announce E f e ip m = (.ok e₁, m₁)) (hsame : SameStacks f m m₁)
      (hunwinds : Unwinds E f ip above e₁ m₁ e₂ m₂)
      (hw : finalization E f ip frame (some e₂) m₂ = w) (hsteady : w.Steady f)
      (hok : w.outcome = .ok (some e')) : Reaches E f ip above frame e m e' w.machine

end Exec

section Closing

variable {E : Engine} {f : FiberId} {ip : Nat} {frame : Frame} {outer : List Frame} {m m' : Machine}
  {underway : Option RuntimeError} {w : Finalization} {e e' : RuntimeError} {lower : Array Value}

theorem Finalization.Steady.balanced (h : w.Steady f) : w.Balanced f := fun c hc => (h c hc).frames

theorem Machine.values_withTop (m : Machine) (f : FiberId) (g : Frame → Frame) :
    ((m.withTop f g).fiber f).values = (m.fiber f).values :=
  fiber_withFiber_of (v := Fiber.values) rfl f

theorem finalization_of_empty (h : frame.blocks = []) :
    finalization E f ip frame underway m = ⟨[], .ok underway, m⟩ := by
  rw [finalization, h]
  rfl

theorem values_finalize (steps : List (Option Symbol × List (List Symbol)))
    (hw : finalize E f ip steps frame underway m = w) (hsteady : w.Steady f) :
    (w.machine.fiber f).values = (m.fiber f).values := by
  induction steps generalizing frame underway m w with
  | nil =>
    subst hw
    rfl
  | cons step steps ih =>
    obtain ⟨s?, blocks⟩ := step
    have hblocks : ((m.withBlocks f blocks).fiber f).values = (m.fiber f).values :=
      m.values_withTop f _
    cases s? with
    | none => exact (ih hw hsteady).trans hblocks
    | some s =>
      by_cases hs : s.index ∈ frame.pending
      · have htaken := ((m.withBlocks f blocks).values_withTop f (.take s.index)).trans hblocks
        rcases hrun : closeUnder E f ip s (frame.localValue (m.withBlocks f blocks).heap s.index)
          underway ((m.withBlocks f blocks).withTop f (.take s.index)) with ⟨stop | raised, m'⟩
        · rw [finalize_stop hs hrun] at hw
          subst hw
          exact (hsteady _ List.mem_cons_self).values.trans htaken
        · rw [finalize_close hs hrun] at hw
          subst hw
          have hclosed := (hsteady _ List.mem_cons_self).values.trans htaken
          exact (ih rfl fun c hc => hsteady c (List.mem_cons_of_mem _ hc)).trans hclosed
      · rw [finalize_skip hs] at hw
        exact (ih hw hsteady).trans hblocks

theorem leaveFrame_plain (hcalls : (m.fiber f).calls = frame :: outer)
    (hhandler : frame.handlers.onError = none) (n : Nat) : leaveFrame E f n e m =
      (if frame.isEntry then fail (.runtime e) else unwindFrames E f n e) (m.dropFrame f frame) := by
  rw [leaveFrame, bind_ok (popFrame_apply hcalls), hhandler]

/-- The error handler of a frame is called without the frame and without what was put on the stack
for it. Its answer is the result of the call. -/
theorem leaveFrame_catches (h : (m.fiber f).Runs frame outer lower) (hlow : frame.base < 2 ^ 53)
    (hhandler : frame.handlers.onError = some handler)
    (hanswer : E (.invoke handler ⟨f, frame.calledFrom⟩ [e.toValue] false) (m.backTo f lower) =
      (.ok r, m')) (hf : f.index < m'.fibers.size) (hr : r.isRequest = false) (n : Nat) :
    leaveFrame E f n e m = (.ok (.after frame.returnTo),
      m'.withFiber f fun b => { b with values := b.values.push r }) := by
  have hcatch : (do
      push f (← E (.invoke handler ⟨f, frame.calledFrom⟩ [e.toValue] false))
      settle (performCall E f n) f frame.returnTo frame.isEntry) (m.backTo f lower) =
        (.ok (.after frame.returnTo), m'.withFiber f fun b => { b with values := b.values.push r }) := by
    rw [bind_ok hanswer, push, bind_ok (modifyFiber_apply _ _ _), settle_of_value ?_ hr]
    rw [fiber_withFiber_self hf]
    exact Array.back?_push
  rw [leaveFrame, bind_ok (popFrame_apply h.calls), hhandler]
  cases hnative : frame.isNative with
  | true =>
    rw [h.dropFrame_native hnative]
    exact hcatch
  | false =>
    have hscript : frame.native = none := by simpa [Frame.isNative] using hnative
    exact (bind_ok (h.popArguments_dropFrame hscript hlow)).trans hcatch

/-- The last machine before a frame is left. -/
structure Closed (f : FiberId) (frame : Frame) (outer : List Frame) (values : Array Value) (top : Frame)
    (m : Machine) : Prop where
  calls : (m.fiber f).calls = top :: outer
  values : (m.fiber f).values = values
  like : frame.Like top
  calledFrom : top.calledFrom = frame.calledFrom

/-- All variables of a frame are closed before it is left with the last error. -/
theorem unwindFrames_closes (hcalls : (m.fiber f).calls = frame :: outer)
    (hw : finalization E f ip frame (some e) m = w) (hsteady : w.Steady f)
    (hok : w.outcome = .ok (some e')) :
    ∃ top, Closed f frame outer (m.fiber f).values top w.machine ∧
      ∀ n, (Frame.closingSteps frame.blocks).length < n →
        unwindFrames E f (n + 1) e m = leaveFrame E f (n - w.failures) e' w.machine := by
  obtain ⟨locals, pending, hawaits⟩ := awaits_finalize ⟨hcalls⟩ hw hsteady.balanced hok
  refine ⟨_, ⟨hawaits.calls, values_finalize _ hw hsteady, ⟨rfl, rfl, rfl, rfl, rfl⟩, rfl⟩,
    fun n hn => ?_⟩
  have hunwind := unwinding_finalizes hcalls hn hw hsteady.balanced (fail (.runtime e)) pure
  simp only [bind_pure] at hunwind
  rw [hunwind, Finalization.andThen, hok]
  rfl

end Closing

section Catching

variable {E : Engine} {f : FiberId} {ip : Nat} {frame top : Frame} {above below : List Frame}
  {m m' : Machine} {w : Finalization} {e e' : RuntimeError} {lower : Array Value}

theorem Fiber.Carries.runs {b : Fiber} (h : b.Carries [] frame below lower) :
    b.Runs frame below lower := ⟨h.calls, h.floor, h.base, h.below⟩

theorem Fiber.Carries.congr {b b' : Fiber} (h : b.Carries above frame below lower)
    (hcalls : b'.calls = b.calls) (hvalues : b'.values = b.values) :
    b'.Carries above frame below lower :=
  ⟨hcalls.trans h.calls, hvalues ▸ h.floor, hvalues ▸ h.base, hvalues ▸ h.below, h.above⟩

theorem Fiber.Carries.dropFrame (h : (m.fiber f).Carries (top :: above) frame below lower) :
    ((m.dropFrame f top).fiber f).Carries above frame below lower := by
  have hle : frame.base ≤ top.base := h.above top List.mem_cons_self
  have hfloor := Footing.Floor.le_base h.floor
  have hkept (i : Nat) (hi : i < frame.base) :
      ((m.fiber f).values.shrink top.base)[i]? = (m.fiber f).values[i]? := by
    rw [getElem?_shrink, if_pos (by omega)]
  rw [Machine.dropFrame, Machine.fiber_withFiber_self (Machine.index_lt_of_calls h.calls)]
  refine ⟨(Fiber.calls_pop _).trans (congrArg List.tail h.calls), Footing.Floor.congr h.floor hkept,
    ?_, fun i hi => (hkept i (by omega)).trans (h.below i hi),
    fun t ht => h.above t (List.mem_cons_of_mem _ ht)⟩
  have := h.base
  rw [Array.size_shrink]
  omega

theorem Closed.dropFrame_eq {values : Array Value} {last : Frame}
    (h : Closed f top below values last m) : m.dropFrame f last = m.dropFrame f top := by
  rw [dropFrame, h.like.base]
  rfl

theorem unwindFrames_plain (hcalls : (m.fiber f).calls = top :: below)
    (hw : finalization E f ip top (some e) m = w) (hsteady : w.Steady f)
    (hok : w.outcome = .ok (some e')) (hhandler : top.handlers.onError = none)
    (hentry : top.isEntry = false) {n : Nat} (hn : (Frame.closingSteps top.blocks).length < n) :
    unwindFrames E f (n + 1) e m =
      unwindFrames E f (n - w.failures) e' (w.machine.dropFrame f top) := by
  obtain ⟨last, hclosed, hrun⟩ := unwindFrames_closes hcalls hw hsteady hok
  rw [hrun n hn, leaveFrame_plain hclosed.calls (hclosed.like.handlers ▸ hhandler),
    hclosed.like.isEntry, hentry, hclosed.dropFrame_eq]
  rfl

theorem Fiber.Carries.closed (h : (m.fiber f).Carries (top :: above) frame below lower)
    (hw : finalization E f ip top (some e) m = w) (hsteady : w.Steady f)
    (hok : w.outcome = .ok (some e')) :
    ((w.machine.dropFrame f top).fiber f).Carries above frame below lower := by
  obtain ⟨last, hclosed, -⟩ := unwindFrames_closes h.calls hw hsteady hok
  have hcarries : (w.machine.fiber f).Carries (last :: above) frame below lower :=
    ⟨hclosed.calls, hclosed.values ▸ h.floor, hclosed.values ▸ h.base, hclosed.values ▸ h.below, by
      intro t ht
      rcases List.mem_cons.1 ht with rfl | ht
      · rw [hclosed.like.base]
        exact h.above top List.mem_cons_self
      · exact h.above t (List.mem_cons_of_mem _ ht)⟩
  rw [← hclosed.dropFrame_eq]
  exact hcarries.dropFrame

/-- Frames are left until one is on top that may catch the error. -/
theorem Exec.Unwinds.run (hunwinds : Unwinds E f ip above e m e' m')
    (h : (m.fiber f).Carries above frame below lower)
    (hplain : ∀ t ∈ above, t.handlers.onError = none ∧ t.isEntry = false) :
    (m'.fiber f).Runs frame below lower ∧ ∃ N, ∀ n, N ≤ n →
      ∃ n', n ≤ n' + N ∧ unwindFrames E f n e m = unwindFrames E f n' e' m' := by
  induction hunwinds with
  | nil => exact ⟨h.runs, 0, fun n _ => ⟨n, le_rfl, rfl⟩⟩
  | @cons top above e e₁ e₂ m m₂ w hw hsteady hok hrest ih =>
    obtain ⟨hhandler, hentry⟩ := hplain top List.mem_cons_self
    obtain ⟨hruns, N, hrun⟩ := ih (h.closed hw hsteady hok) fun t ht =>
      hplain t (List.mem_cons_of_mem _ ht)
    refine ⟨hruns, (Frame.closingSteps top.blocks).length + w.failures + N + 2, fun n hn => ?_⟩
    obtain ⟨n', hn', heq⟩ := hrun (n - 1 - w.failures) (by omega)
    refine ⟨n', by omega, ?_⟩
    rw [← heq, ← unwindFrames_plain h.calls hw hsteady hok hhandler hentry (n := n - 1) (by omega),
      Nat.sub_add_cancel (by omega)]

theorem Exec.unwind_eq (E : Engine) (f : FiberId) (fuel : Nat) (e : RuntimeError) (ip : Nat) :
    unwind E f fuel e ip = (do unwindFrames E f fuel (← announce E f e ip)) := by
  simp only [unwind, announce, bind_assoc]

variable (h : Reaches E f ip above frame e m e' m')
  (hcarries : (m.fiber f).Carries above frame below lower)
include h hcarries

/-- An error that reaches a frame is dealt with as that frame is left. -/
theorem Exec.Reaches.run :
    ∃ top, (m'.fiber f).Runs top below lower ∧ frame.Like top ∧ top.calledFrom = frame.calledFrom ∧
      ∃ N, ∀ fuel, N ≤ fuel → ∃ n, unwind E f fuel e ip m = leaveFrame E f n e' m' := by
  obtain ⟨hplain, hannounce, hsame, hunwinds, hw, hsteady, hok⟩ := h
  have hcarries₁ := hcarries.congr (congrArg (fun frames => frames.toList.reverse) hsame.frames)
    hsame.values
  obtain ⟨hruns, N, hrun⟩ := hunwinds.run hcarries₁ hplain
  obtain ⟨top, hclosed, hleave⟩ := unwindFrames_closes hruns.calls hw hsteady hok
  refine ⟨top, ⟨hclosed.calls, ?_, ?_, ?_⟩, hclosed.like, hclosed.calledFrom,
    N + (Frame.closingSteps frame.blocks).length + 2, fun fuel hfuel => ?_⟩
  · rw [hclosed.values]
    exact Footing.Floor.like hruns.floor hclosed.like
  · rw [hclosed.values, hclosed.like.base]
    exact hruns.base
  · rw [hclosed.values]
    exact hruns.below
  · obtain ⟨n, hn, heq⟩ := hrun fuel (by omega)
    obtain ⟨n, rfl⟩ : ∃ k, n = k + 1 := ⟨n - 1, by omega⟩
    rw [unwind_eq, bind_ok hannounce, heq]
    exact ⟨_, hleave n (by omega)⟩

/-- A frame with an error handler catches the error that reaches it. -/
theorem Exec.Reaches.catches (hlow : frame.base < 2 ^ 53)
    {m'' : Machine} (hhandler : frame.handlers.onError = some handler)
    (hanswer : E (.invoke handler ⟨f, frame.calledFrom⟩ [e'.toValue] false) (m'.backTo f lower) =
      (.ok r, m'')) (hsame : SameStacks f (m'.backTo f lower) m'') (hr : r.isRequest = false) :
    ∃ N, ∀ fuel, N ≤ fuel → ∃ m₁, unwind E f fuel e ip m = (.ok (.after frame.returnTo), m₁) ∧
      (m₁.fiber f).calls = below ∧ (m₁.fiber f).values = lower.push r := by
  obtain ⟨top, hruns, hlike, hfrom, N, hrun⟩ := h.run hcarries
  refine ⟨N, fun fuel hfuel => ?_⟩
  obtain ⟨n, hunwind⟩ := hrun fuel hfuel
  rw [← hfrom] at hanswer
  rw [← hlike.returnTo, hunwind, leaveFrame_catches hruns (hlike.base ▸ hlow)
    (hlike.handlers ▸ hhandler) hanswer hsame.index_lt hr n]
  refine ⟨_, rfl, ?_, ?_⟩
  · rw [fiber_withFiber_self hsame.index_lt]
    exact (congrArg (fun frames => frames.toList.reverse) hsame.frames).trans (hruns.calls_backTo lower)
  · rw [fiber_withFiber_self hsame.index_lt, hsame.values, hruns.values_backTo]

/-- A frame that leaves the loop, without a handler, passes on the error that reaches it. -/
theorem Exec.Reaches.escapes (hhandler : frame.handlers.onError = none) (hentry : frame.isEntry = true) :
    ∃ N, ∀ fuel, N ≤ fuel → ∃ m₁, unwind E f fuel e ip m = (.error (.fault (.runtime e')), m₁) ∧
      (m₁.fiber f).calls = below := by
  obtain ⟨top, hruns, hlike, -, N, hrun⟩ := h.run hcarries
  refine ⟨N, fun fuel hfuel => ?_⟩
  obtain ⟨n, hunwind⟩ := hrun fuel hfuel
  rw [hunwind, leaveFrame_plain hruns.calls (hlike.handlers ▸ hhandler), hlike.isEntry, hentry]
  refine ⟨_, rfl, ?_⟩
  rw [dropFrame, fiber_withFiber_self hruns.index_lt]
  exact (Fiber.calls_pop _).trans (congrArg List.tail hruns.calls)

end Catching

section Layout

variable {g : Footing} {own above below : List Frame} {frame : Frame} {b : Fiber} {m m' : Machine}

theorem Footing.Layered.carries (h : g.Layered b.values (above ++ frame :: below))
    (hlevel : g.level (above ++ frame :: below) ≤ b.values.size) (bottom : List Frame)
    (hcalls : b.calls = above ++ frame :: (below ++ bottom)) :
    ∃ lower, b.Carries above frame (below ++ bottom) lower := by
  have hbase := h.base_le
  have hsplit : (∃ floor, frame.Floor b.values floor) ∧ ∀ t ∈ above, frame.base ≤ t.base := by
    clear hcalls hlevel hbase
    induction above with
    | nil =>
      obtain ⟨⟨floor, -, hfloor⟩, -⟩ := h
      exact ⟨⟨floor, hfloor⟩, nofun⟩
    | cons top above ih =>
      obtain ⟨⟨floor, hground, hfloor⟩, hrest⟩ := h
      obtain ⟨hframe, habove⟩ := ih hrest
      refine ⟨hframe, List.forall_mem_cons.2 ⟨?_, habove⟩⟩
      exact (hrest.base_le frame (by simp)).trans (hground.level_le.trans (Floor.le_base hfloor))
  obtain ⟨⟨floor, hfloor⟩, habove⟩ := hsplit
  have hframe : frame.base ≤ b.values.size := (hbase frame (by simp)).trans hlevel
  have hsize : (b.values.shrink floor).size = floor := by
    rw [Array.size_shrink]
    exact Nat.min_eq_left ((Floor.le_base hfloor).trans hframe)
  refine ⟨b.values.shrink floor, hcalls, hsize.symm ▸ hfloor, hframe, fun i hi => ?_, habove⟩
  rw [getElem?_shrink, if_pos (hsize ▸ hi)]

end Layout

section Reachable

variable {E : Engine} {f : FiberId} {m m' : Machine} {n : Nat} {limit : Option Nat}
  {executed ip : Nat} {t : Turn} {arguments : List Value} {function : Value} {own : List Frame}

theorem step_served (ht : t ∈ trace E f n limit executed ip m)
    (hserved : (loop E f n limit executed ip m).1 ≠ .error .exhausted) :
    (step E f t.fuel t.limit t.executed t.ip t.machine).1 ≠ .error .exhausted := by
  induction n generalizing limit executed ip m with
  | zero => cases ht
  | succ n ih =>
    rw [loop_succ] at hserved
    rw [trace, List.mem_cons] at ht
    rcases ht with rfl | ht
    · intro hstep
      have hround := round_of_error (Prod.ext hstep rfl : step E f n limit executed ip m = (_, _)) rfl
      exact hserved (by rw [bind_error hround])
    · rcases hrun : Exec.round E f n limit executed ip m with ⟨s | r, m'⟩ <;> rw [hrun] at ht
      · cases ht
      · cases r with
        | again limit' ip' =>
          rw [bind_ok hrun] at hserved
          exact ih ht hserved
        | leave => cases ht

theorem Footing.Hosting.open_of_mem_trace {g : Footing} (hg : g.Hosting) (hE : Quiet E)
    (hopen : g.Open own) (hm : g.Sits own (fun _ => True) m)
    (hturns : ∀ t ∈ trace E g.fiber n none executed ip m,
      t.orderly E g.fiber (g.start.fiber g.fiber).frames.size)
    (ht : t ∈ trace E g.fiber n none executed ip m) :
    t.limit = none ∧ ∃ own, g.Open own ∧ g.Sits own (fun _ => True) t.machine := by
  induction n generalizing executed ip m own with
  | zero => cases ht
  | succ n ih =>
    rw [trace, List.forall_mem_cons] at hturns
    rw [trace, List.mem_cons] at ht
    rcases ht with rfl | ht
    · exact ⟨rfl, own, hopen, hm⟩
    · have hrounds := hg.round_rounds hE hopen hm hturns.1 m rfl
      rcases hrun : Exec.round E g.fiber n none executed ip m with ⟨s | r, m'⟩ <;>
        rw [hrun] at hrounds hturns ht
      · cases ht
      · cases r with
        | again limit' ip' =>
          obtain ⟨rfl, own', hopen', hm'⟩ := hrounds
          exact ih hopen' hm' hturns.2 ht
        | leave => cases ht

/-- Frames of its own stand on those that a loop has found in its flow, and each is laid out as a
call under way. -/
structure LaidOut (f : FiberId) (start : Machine) (own : List Frame) (m : Machine) : Prop where
  calls : (m.fiber f).calls = own ++ (start.fiber f).calls
  bare : own = [] → (start.fiber f).calls = []
  low : ∀ frame ∈ own, frame.base < 2 ^ 53
  carries : ∀ above frame below, own = above ++ frame :: below →
    ∃ lower, (m.fiber f).Carries above frame (below ++ (start.fiber f).calls) lower

theorem laidOut_of_sits (hm : (m.footing f).Sits own (fun _ => True) m') (hcount : m'.countable f)
    (hdepth : (m.fiber f).frames.size = 0 ∨ (m.fiber f).frames.size < (m'.fiber f).frames.size) :
    LaidOut f m own m' := by
  have hlow := hm.low hcount trivial
  have hpiled := (hm.piled trivial).1
  obtain ⟨bottom, hbottom, hcalls⟩ := hm.calls
  obtain rfl : bottom = (m.fiber f).calls := hbottom
  change (m'.fiber f).calls = _ at hcalls
  refine ⟨hcalls, ?_, hlow, ?_⟩
  · rintro rfl
    rw [Fiber.size_frames, Fiber.size_frames, hcalls] at hdepth
    exact List.length_eq_zero_iff.1 (hdepth.resolve_right (lt_irrefl _))
  · rintro above frame below rfl
    exact hpiled.layered.carries hpiled.level _ (hcalls.trans (List.append_assoc _ _ _))

/-- Whenever an instruction raises an error in the loop of a host call that is in order, the stacks
are laid out. -/
theorem laidOut_of_mem_callTrace (hE : Quiet E) (hm : Sound m)
    (horderly : orderlyCall E n function arguments m) (ht : t ∈ callTrace E n function arguments m)
    (hstep : step E m.currentFiber t.fuel t.limit t.executed t.ip t.machine =
      (.error (.fault (.runtime e)), m')) : ∃ own, LaidOut m.currentFiber m own m' := by
  have hf := hm.busy_current
  have hg := hosting_footing hf.1
  have hbegin := beginCall_lands hE hm hf hm.running_current n function arguments _ rfl
  have hturns := List.all_eq_true.1 horderly
  have hturn := hturns t ht
  have hframes : ((m.prepared m.currentFiber).fiber m.currentFiber).frames.size =
      (m.fiber m.currentFiber).frames.size := by
    rw [fiber_prepared hf.1]
  unfold callTrace at ht hturns
  dsimp only at ht hturns
  rcases hrun : beginCall E m.currentFiber n function arguments (m.prepared m.currentFiber) with
    ⟨s | r, m₁⟩ <;> rw [hrun] at hbegin ht hturns
  · cases ht
  · cases r with
    | jump ip =>
      obtain ⟨own, hopen, hsits⟩ := hbegin
      obtain ⟨hlimit, own', hopen', hsits'⟩ := hg.open_of_mem_trace hE hopen hsits (fun t ht => by
        rw [← hframes] at hturns
        exact hturns t ht) ht
      obtain ⟨k, _, executed, ip', m₂⟩ := t
      obtain rfl := hlimit
      simp only [Turn.orderly, Bool.and_eq_true] at hturn
      obtain ⟨⟨hfits, hcount⟩, hanchor⟩ := hturn
      simp only [Turn.anchored, hstep, Bool.and_eq_true, Bool.or_eq_true, beq_iff_eq,
        decide_eq_true_eq] at hanchor
      have hflows := hg.step_flows hE hopen' hsits' hfits hcount _ rfl
      have hrun : step E (m.footing m.currentFiber).fiber k none executed ip' m₂ = _ := hstep
      rw [hrun] at hflows
      obtain ⟨own'', hsits''⟩ := hflows
      exact ⟨own'', laidOut_of_sits hsits'' hanchor.2 hanchor.1⟩
    | done => cases ht
    | yielded => cases ht

theorem step_served_of_mem_callTrace (hE : Quiet E) (hm : Sound m)
    (ht : t ∈ callTrace E n function arguments m)
    (hserved : (callFunction E n function arguments m).1 ≠ .error .exhausted) :
    (step E m.currentFiber t.fuel t.limit t.executed t.ip t.machine).1 ≠ .error .exhausted := by
  have hf := hm.busy_current
  have hbegin := beginCall_lands hE hm hf hm.running_current n function arguments _ rfl
  rw [outcome_callFunction, hostCall] at hserved
  unfold callTrace at ht
  dsimp only at ht
  rcases hrun : beginCall E m.currentFiber n function arguments (m.prepared m.currentFiber) with
    ⟨s | r, m'⟩ <;> rw [hrun] at hbegin ht
  · cases ht
  · cases r with
    | jump ip =>
      obtain ⟨own, -, hsits⟩ := hbegin
      have hbudget : budget m.currentFiber m' = (.ok none, m') :=
        (hosting_footing hf.1).budget_none hsits
      rw [bind_ok hrun, drive, runFrom, bind_ok hbudget] at hserved
      exact step_served ht hserved
    | done => cases ht
    | yielded => cases ht

theorem laidOut_of_served (hm : Sound m)
    (hserved : (watched (n + 1) (.call function arguments) m).1 ≠ .error .exhausted)
    (ht : t ∈ callTrace (engine n) n function arguments m)
    (hstep : step (engine n) m.currentFiber t.fuel t.limit t.executed t.ip t.machine =
      (.error (.fault (.runtime e)), m')) : ∃ own, LaidOut m.currentFiber m own m' := by
  simp only [watched] at hserved
  split at hserved
  · rename_i horderly
    rw [callTrace_eq (quiet_watched n) hm (agrees_watched n) hserved] at ht
    have hsame := refines_step (agrees_watched n) (le_refl t.fuel) m.currentFiber t.limit t.executed
      t.ip t.machine (step_served_of_mem_callTrace (quiet_watched n) hm ht hserved)
    exact laidOut_of_mem_callTrace (quiet_watched n) hm horderly ht (hsame.symm.trans hstep)
  · exact (hserved rfl).elim

end Reachable

/-- The machines in which an instruction raises an error: those that the loop of a host call comes to
which is served under watch, and any other one that is laid out as those are. -/
inductive Exec.Erring : Engine → FiberId → Machine → Nat → RuntimeError → Machine → Prop
  | hosted {n function arguments start t e m} (hstart : Sound start)
      (hserved : (watched (n + 1) (.call function arguments) start).1 ≠ .error .exhausted)
      (ht : t ∈ callTrace (engine n) n function arguments start)
      (hstep : step (engine n) start.currentFiber t.fuel t.limit t.executed t.ip t.machine =
        (.error (.fault (.runtime e)), m)) :
      Erring (engine n) start.currentFiber start t.ip e m
  | laid {E f start own ip e m} (h : LaidOut f start own m) : Erring E f start ip e m

theorem Exec.Erring.laidOut {E : Engine} {f : FiberId} {start m : Machine} {ip : Nat}
    (h : Erring E f start ip e m) : ∃ own, LaidOut f start own m := by
  cases h with
  | hosted hstart hserved ht hstep => exact laidOut_of_served hstart hserved ht hstep
  | laid h => exact ⟨_, h⟩

/-- When an instruction raises an error, the frames of its loop are laid out so that unwinding
restores the stacks. If the error reaches a frame with an error handler, the run goes on where the
frame returns to, with the frames below it and the values below its callee as they were, and the
answer of the handler as the result. If it reaches a frame that leaves the loop, without a handler,
the error is raised again there, and the frames below are as they were. -/
theorem unwinding_restores {E : Engine} {f : FiberId} {start m : Machine} {ip : Nat}
    {e : RuntimeError} (h : Erring E f start ip e m) :
    ∃ own, LaidOut f start own m ∧ ∀ {above frame below lower}, own = above ++ frame :: below →
      (m.fiber f).Carries above frame (below ++ (start.fiber f).calls) lower →
        ∀ {e' m'}, Reaches E f ip above frame e m e' m' →
          (∀ {handler r m''}, frame.handlers.onError = some handler →
            E (.invoke handler ⟨f, frame.calledFrom⟩ [e'.toValue] false) (m'.backTo f lower) =
              (.ok r, m'') → SameStacks f (m'.backTo f lower) m'' → r.isRequest = false →
            ∃ N, ∀ fuel, N ≤ fuel →
              ∃ m₁, unwind E f fuel e ip m = (.ok (.after frame.returnTo), m₁) ∧
                (m₁.fiber f).calls = below ++ (start.fiber f).calls ∧
                (m₁.fiber f).values = lower.push r) ∧
          (frame.handlers.onError = none → frame.isEntry = true →
            ∃ N, ∀ fuel, N ≤ fuel →
              ∃ m₁, unwind E f fuel e ip m = (.error (.fault (.runtime e')), m₁) ∧
                (m₁.fiber f).calls = below ++ (start.fiber f).calls) := by
  obtain ⟨own, hlaid⟩ := h.laidOut
  refine ⟨own, hlaid, fun {above frame below lower} hown hcarries e' m' hreaches => ?_⟩
  have hlow : frame.base < 2 ^ 53 := hlaid.low _ (hown ▸ by simp)
  exact ⟨hreaches.catches hcarries hlow, hreaches.escapes hcarries⟩

/-- The frames of a call with an error handler, and of one made from there. -/
def Frame.sheltering : Frame :=
  { base := 3, returnTo := some 7, handlers := { onError := some ⟨0⟩ } }

def Frame.sheltered : Frame := { base := 6, returnTo := some 3 }

/-- A machine with these two calls under way. They are calls of a function that calls nil. -/
def sheltering : Machine where
  code := { instructions := #[{ op := .preamble },
    { op := .literal, value := some .nil },
    { op := .call, number := 0 },
    { op := .ret, number := 1 }] }
  heap := {
    closures := #[{ entry := 0 }]
    natives := #[{ name := "h", behavior := .builtin (.withStatus false) }] }
  fibers := #[{
    values := #[.bool true, .closure ⟨0⟩, .ofNat 0, .nil, .closure ⟨0⟩, .ofNat 0, .nil]
    frames := #[.sheltering, .sheltered], status := .main, owner := ⟨0⟩ }]

theorem sound_sheltering : Sound sheltering :=
  ⟨⟨by decide, rfl⟩, List.forall_mem_nil _⟩

theorem carries_sheltering :
    (sheltering.fiber ⟨0⟩).Carries [.sheltered] .sheltering [] #[.bool true] := by
  refine ⟨rfl, ⟨0, rfl, rfl⟩, by decide, fun i hi => ?_, fun t ht => ?_⟩
  · obtain rfl : i = 0 := Nat.lt_one_iff.1 hi
    rfl
  · obtain rfl := List.mem_singleton.1 ht
    decide

theorem laidOut_sheltering : LaidOut ⟨0⟩ default [.sheltered, .sheltering] sheltering := by
  refine ⟨rfl, nofun, by decide, fun above frame below h => ?_⟩
  match above, h with
  | [], h =>
    cases h
    refine ⟨(sheltering.fiber ⟨0⟩).values.shrink 4, rfl, ⟨0, rfl, rfl⟩, by decide, fun i hi => ?_,
      nofun⟩
    rw [getElem?_shrink, if_pos (show i < 4 from hi)]
  | [_], h =>
    cases h
    exact ⟨_, carries_sheltering⟩
  | _ :: _ :: above, h =>
    have := congrArg List.length h
    simp at this

theorem reaches_sheltering (e : RuntimeError) :
    Reaches (engine 9) ⟨0⟩ 2 [.sheltered] .sheltering e sheltering
      (e.decorate (sheltering.code.locationAt 2)) (sheltering.dropFrame ⟨0⟩ .sheltered) := by
  have hannounce : announce (engine 9) ⟨0⟩ e 2 sheltering =
      (.ok (e.decorate (sheltering.code.locationAt 2)), sheltering) := rfl
  have htop : Unwinds (engine 9) ⟨0⟩ 2 [.sheltered] (e.decorate (sheltering.code.locationAt 2))
      sheltering _ _ :=
    .cons (finalization_of_empty rfl) (List.forall_mem_nil _) rfl .nil
  exact .intro (fun t ht => by obtain rfl := List.mem_singleton.1 ht; exact ⟨rfl, rfl⟩) hannounce
    ⟨by decide, rfl, rfl⟩ htop (finalization_of_empty rfl) (List.forall_mem_nil _) rfl

/-- The error is caught in the middle of the two calls; and a host call from there raises one. -/
theorem unwinding_sheltering :
    (∃ N, ∀ fuel, N ≤ fuel → ∃ m, unwind (engine 9) ⟨0⟩ fuel { message := "late" } 2 sheltering =
        (.ok (.jump 7), m) ∧ (m.fiber ⟨0⟩).calls = [] ∧
        (m.fiber ⟨0⟩).values = #[.bool true, .tuple [.bool false, .string "late"]]) ∧
      ∃ t ∈ callTrace (engine 9) 9 (.closure ⟨0⟩) [] sheltering, ∃ e m own,
        step (engine 9) ⟨0⟩ t.fuel t.limit t.executed t.ip t.machine =
          (.error (.fault (.runtime e)), m) ∧ LaidOut ⟨0⟩ sheltering own m := by
  have hserved : (watched 10 (.call (.closure ⟨0⟩) []) sheltering).1 ≠ .error .exhausted :=
    fun h => absurd (congrArg Ending.of h) (by decide +kernel)
  have hfails : ((callTrace (engine 9) 9 (.closure ⟨0⟩) [] sheltering).any fun t => Ending.of
      (step (engine 9) ⟨0⟩ t.fuel t.limit t.executed t.ip t.machine).1 = .runtime) = true := by
    decide +kernel
  constructor
  · obtain ⟨own, hlaid, hunwind⟩ :=
      @unwinding_restores (engine 9) _ _ _ 2 { message := "late" } (.laid laidOut_sheltering)
    obtain rfl : own = [.sheltered, .sheltering] := (List.append_nil own).symm.trans hlaid.calls.symm
    exact (hunwind rfl carries_sheltering (reaches_sheltering _)).1 rfl rfl ⟨by decide, rfl, rfl⟩ rfl
  · obtain ⟨t, ht, hstep⟩ := List.any_eq_true.1 hfails
    obtain ⟨e, he⟩ := Ending.exists_runtime (of_decide_eq_true hstep)
    have hrun : step (engine 9) ⟨0⟩ t.fuel t.limit t.executed t.ip t.machine = (_, _) := Prod.ext he rfl
    obtain ⟨own, hlaid, -⟩ := unwinding_restores (.hosted sound_sheltering hserved ht hrun)
    exact ⟨t, ht, e, _, own, hrun, hlaid⟩

/-- A machine in the middle of a native call, made by a function with an error handler. The native
function is to call one that asks for a call with a handler of its own; in that call, a continuation
calls a function that returns a request to call nil. -/
def overrun : Machine where
  code := { instructions := #[
    { op := .preamble },
    { op := .literal, value := some (.tailCall ⟨0⟩) },
    { op := .ret, number := 1 },
    { op := .preamble },
    { op := .ret, number := 0 },
    { op := .preamble },
    { op := .literal, value := some (.native ⟨2⟩) },
    { op := .call, number := 0 },
    { op := .pop, number := 1 },
    { op := .literal, value := some (.tailCall ⟨0⟩) },
    { op := .ret, number := 1 },
    { op := .preamble },
    { op := .literal, value := some (.ofNat 0) },
    { op := .literal, value := some (.native ⟨0⟩) },
    { op := .literal, value := some (.native ⟨1⟩) },
    { op := .call, number := 1 },
    { op := .ret, number := 1 }] }
  heap := {
    closures := #[{ entry := 0 }, { entry := 3 }, { entry := 5 }, { entry := 11 }]
    natives := #[
      { name := "c", behavior := .host .call },
      { name := "t", behavior := .host (.const (.tailCall ⟨1⟩)) },
      { name := "k", behavior := .host (.const (.tailCall ⟨2⟩)) },
      { name := "n", behavior := .host (.apply (.closure ⟨0⟩)) },
      { name := "h", behavior := .builtin (.withStatus false) }]
    tailCalls := #[
      { function := .nil, arguments := [] },
      { function := .closure ⟨2⟩, arguments := [], handlers := { onError := some ⟨4⟩ } },
      { function := .closure ⟨1⟩, arguments := [], handlers := { continuation := some ⟨3⟩ } }] }
  fibers := #[{
    values := #[.closure ⟨3⟩, .ofNat 0, .ofNat 0, .native ⟨0⟩, .native ⟨1⟩]
    frames := #[
      { entry := 11, base := 2, isEntry := true, handlers := { onError := some ⟨4⟩ } },
      { base := 3, native := some ⟨0⟩, returnTo := some 16 }]
    status := .main, owner := ⟨0⟩ }]

/-- Whether an instruction raises an error right on a frame with a handler and nothing to close, and
unwinding does not get over it. -/
def Turn.isLost (t : Turn) (E : Engine) (f : FiberId) : Bool :=
  match step E f t.fuel t.limit t.executed t.ip t.machine with
  | (.error (.fault (.runtime e)), m) =>
    ((m.fiber f).frames.back?.any fun frame =>
      frame.handlers.onError.isSome && frame.blocks.isEmpty) &&
    match unwind E f t.fuel e t.ip m with
    | (.error (.fault (.internal _)), _) => true
    | _ => false
  | _ => false

/-- The error of the continuation is unwound by a loop that has no frame left, so the call with the
handler of its own ends too early. Its code goes on in the frame of the native call. When it returns,
a value of the outer call is taken for an argument count, and the count of the outer call is dropped
as if it were a function; it is missing when an error is to be caught there. -/
theorem unwinding_unrestored : Sound overrun ∧
    ((callTrace (engine 19) 19 (.native ⟨1⟩) [] overrun).all fun t => t.disciplined ⟨0⟩) = true ∧
    ((callTrace (engine 19) 19 (.native ⟨1⟩) [] overrun).any fun t => t.isLost (engine 19) ⟨0⟩) = true :=
  ⟨⟨⟨by decide, rfl⟩, List.forall_mem_nil _⟩, by decide +kernel, by decide +kernel⟩

end ScriptMachine
