import ScriptMachine.Proofs.Machine.Uncaught

namespace ScriptMachine

open Exec

/-- Each call goes back to the one below it, where a script runs; the outermost one leaves the loop. -/
def Chained : List Frame → Prop
  | [] => True
  | [frame] => frame.returnTo = none ∧ frame.isEntry = true
  | frame :: caller :: outer =>
    (frame.returnTo.isSome ∧ frame.isEntry = false ∧ caller.native = none) ∧ Chained (caller :: outer)

/-- A flow that can go on after a yield: in the script on top, or with what it is given as the
result of all of it. -/
structure Fiber.Parked (b : Fiber) : Prop where
  chained : Chained b.calls
  saved : match b.savedIp with
    | none => b.calls = []
    | some _ => ∃ top outer, b.calls = top :: outer ∧ top.native = none

/-- How the stacks of a coroutine are between two resumptions. -/
structure Fiber.Formed (b : Fiber) : Prop extends b.Parked where
  fresh : b.status = .notStarted → b.frames = #[] ∧ ∃ id, b.values = #[.closure id]

/-- The footing of a flow with nothing below its calls. -/
def Machine.ground (m : Machine) (f : FiberId) : Footing where
  fiber := f
  start := m
  Bottom bottom := bottom = []
  Returns returnTo isEntry := returnTo = none ∧ isEntry = true
  solid _ _ _ _ h := by cases h.1
  height := 0
  valued := False

/-- A value that asks to suspend the flow. -/
def Value.IsYield (v : Value) : Prop := ∃ items forced, v = .yieldRequest items forced

/-- How a coroutine is left by its loop with a value: it waits to go on, or has come to an end. -/
def Fiber.Ends (b : Fiber) (v : Value) : Prop :=
  (v.IsYield → b.Parked) ∧ (¬ v.IsYield → b.calls = [])

/-- Whatever would be the result of the loop, the coroutine could be left with it. -/
def Machine.Leaves (m : Machine) (f : FiberId) : Prop :=
  ∀ v, (m.fiber f).values.back? = some v → (m.fiber f).Ends v

theorem Fiber.Ends.congr {b b' : Fiber} {v : Value} (h : b.Ends v) (hcalls : b'.calls = b.calls)
    (hsaved : b'.savedIp = b.savedIp) : b'.Ends v := by
  refine ⟨fun hv => ⟨?_, ?_⟩, fun hv => hcalls.trans (h.2 hv)⟩
  · rw [hcalls]
    exact (h.1 hv).chained
  · rw [hcalls, hsaved]
    exact (h.1 hv).saved

theorem pop_leaves {f : FiberId} : Triple (fun m => m.Leaves f) (pop f) (fun v m => (m.fiber f).Ends v)
    (fun s m => s.isCatchable → (m.fiber f).calls = []) := by
  refine Triple.bind (Q := fun v? m => m.Leaves f ∧ (m.fiber f).values.back? = v?)
    (.read fun m hm => ⟨hm, rfl⟩) fun v? => ?_
  cases v? with
  | none => exact .throw fun _ _ h => nomatch h
  | some v =>
    refine .bind (Triple.modifyFiber (Q := fun _ m => (m.fiber f).Ends v) fun m ⟨hm, hv⟩ => ?_)
      fun _ => .pure fun _ h => h
    exact (hm v hv).congr (Machine.fiber_withFiber_of (v := Fiber.calls) rfl f)
      (Machine.fiber_withFiber_of (v := Fiber.savedIp) rfl f)

variable {m₀ m : Machine} {f : FiberId} {own : List Frame} {P : Array Value → Prop} {E : Engine}

namespace Footing

theorem routed_ground : (m₀.ground f).Routed own ↔ Chained own := by
  induction own with
  | nil => exact Iff.rfl
  | cons frame own ih =>
    cases own with
    | nil => exact and_iff_left trivial
    | cons caller outer => exact and_congr_right fun _ => ih

theorem calls_ground (hm : (m₀.ground f).Sits own P m) : (m.fiber f).calls = own := by
  obtain ⟨_, rfl, hcalls⟩ := hm.calls
  exact hcalls.trans (List.append_nil own)

theorem open_ground (hopen : (m₀.ground f).Open own) :
    ∃ frame rest, own = frame :: rest ∧ frame.native = none := by
  cases own with
  | nil =>
    obtain ⟨_, _, hnone, -⟩ := hopen
    cases hnone
  | cons frame rest => exact ⟨frame, rest, rfl, hopen⟩

/-- How calls, returns and unwinding of a coroutine end. -/
def Rests (g : Footing) : Resumption → Machine → Prop
  | .jump _, m => ∃ own, g.Open own ∧ g.Sits own (fun _ => True) m
  | _, m => m.Leaves g.fiber

theorem catches_rests : (m₀.ground f).Catches (m₀.ground f).Rests where
  jump _ frame own _ hscript hm := ⟨frame :: own, hscript, hm⟩
  back _ _ _ h := nomatch h.1
  done _ m _ hm hv := by
    refine fun v htop => ⟨fun hyield => ?_, fun _ => calls_ground hm⟩
    obtain ⟨items, forced, rfl⟩ := hyield
    exact (hv items forced htop).elim
  yielded own returnTo isEntry items forced m hroute hm _ htop := by
    have hself : (m.withFiber f fun b => { b with savedIp := returnTo }).fiber f =
        { m.fiber f with savedIp := returnTo } := Machine.fiber_withFiber_self hm.busy.1
    have hcalls : ({ m.fiber f with savedIp := returnTo } : Fiber).calls = own := calls_ground hm
    refine fun v hv => ?_
    rw [show (m₀.ground f).fiber = f from rfl, hself] at hv ⊢
    have hyield : v.IsYield := ⟨items, forced, Option.some.inj (hv.symm.trans htop)⟩
    refine ⟨fun _ => ⟨?_, ?_⟩, fun h => (h hyield).elim⟩
    · rw [hcalls]
      exact routed_ground.1 hm.routed
    · cases own with
      | nil =>
        obtain ⟨rfl, -⟩ := hroute
        exact hcalls
      | cons caller outer =>
        obtain ⟨hsome, -, hscript⟩ := hroute
        obtain ⟨ip, rfl⟩ := Option.isSome_iff_exists.1 hsome
        exact ⟨caller, outer, hcalls, hscript⟩

theorem suspendAt_rests (hopen : (m₀.ground f).Open own) (ip : Nat) :
    Triple ((m₀.ground f).Sits own P) (suspendAt f ip) ((m₀.ground f).FlowsTo (m₀.ground f).Rests)
      (fun _ => (m₀.ground f).Holds) := by
  intro m hm
  obtain ⟨top, rest, rfl, hscript⟩ := open_ground hopen
  have hrun : suspendAt f ip m = (.ok (Flow.transfer .yielded), m.withFiber f fun b =>
      { b with savedIp := some ip, values := b.values.push (.yieldRequest [] true) }) :=
    Prod.ext rfl (m.withFiber_withFiber f _ _)
  rw [hrun]
  have hself : (m.withFiber f fun b => { b with
      savedIp := some ip, values := b.values.push (.yieldRequest [] true) }).fiber f =
      { m.fiber f with savedIp := some ip, values := (m.fiber f).values.push (.yieldRequest [] true) } :=
    Machine.fiber_withFiber_self hm.busy.1
  intro v hv
  rw [show (m₀.ground f).fiber = f from rfl, hself] at hv ⊢
  have hyield : v.IsYield := ⟨[], true, Option.some.inj (hv.symm.trans Array.back?_push)⟩
  have hcalls := calls_ground hm
  exact ⟨fun _ => ⟨hcalls ▸ routed_ground.1 hm.routed, top, rest, hcalls, hscript⟩,
    fun h => (h hyield).elim⟩

theorem step_rests (hE : Quiet E) (n : Nat) (limit : Option Nat) (executed ip : Nat)
    (hopen : (m₀.ground f).Open own) (hm : (m₀.ground f).Sits own (fun _ => True) m) :
    Triple (· = m) (step E f n limit executed ip) ((m₀.ground f).FlowsTo (m₀.ground f).Rests)
      (fun _ => (m₀.ground f).Holds) := by
  obtain ⟨top, rest, rfl, hscript⟩ := open_ground hopen
  by_cases hspent : limit.any (· ≤ executed)
  · rw [step_eq]
    refine .bind (Triple.before (quiet (.read _)) fun _ h => h ▸ hm)
      fun i? => ?_
    cases i? with
    | none => exact stop
    | some i =>
      refine .bind (quiet (observes_listening _ _ _).aside.undisturbed) fun _ => ?_
      rw [if_pos hspent]
      exact suspendAt_rests hopen ip
  · exact step_catches catches_rests hE n (Bool.not_eq_true _ ▸ hspent) hm hscript False.elim False.elim

/-- No call under way has an error handler. -/
def Unhandled (own : List Frame) : Prop := ∀ frame ∈ own, frame.handlers.onError = none

theorem Unhandled.like {frame top : Frame} (h : Unhandled (frame :: own)) (hlike : frame.Like top) :
    Unhandled (top :: own) := by
  intro fr hfr
  rcases List.mem_cons.1 hfr with rfl | hmem
  · rw [hlike.handlers]
    exact h frame List.mem_cons_self
  · exact h fr (List.mem_cons_of_mem _ hmem)

theorem popFrame_sits {frame : Frame} {S : Stop → Machine → Prop} :
    Triple ((m₀.ground f).Sits (frame :: own) P) (popFrame f)
      (fun popped m => (popped = frame ∧ (m₀.ground f).Route own frame.returnTo frame.isEntry) ∧
        (m₀.ground f).Sits own (fun _ => True) m) S := by
  intro m hm
  have hleft := popFrame_left m hm
  have hcalls := calls_ground hm
  rw [popFrame, show (m₀.ground f).fiber = f from rfl, bind_ok (topFrame_apply hcalls),
    bind_ok (modifyFiber_apply _ _ _)] at hleft
  rw [popFrame, bind_ok (topFrame_apply hcalls), bind_ok (modifyFiber_apply _ _ _)]
  exact ⟨hleft.1, hleft.2.mono fun _ _ => trivial⟩

/-- Without an error handler, unwinding leaves all frames, or it is stopped. -/
theorem unwindFrames_empties (hE : Quiet E) (n : Nat) (e : RuntimeError) (hnone : Unhandled own) :
    Triple ((m₀.ground f).Sits own fun _ => True) (unwindFrames E f n e) (fun _ _ => False)
      (fun s m => s.isCatchable → (m.fiber f).calls = []) := by
  induction n generalizing own e with
  | zero => exact .throw fun _ _ h => absurd h Bool.false_ne_true
  | succ n ih =>
    cases own with
    | nil =>
      refine Triple.bind (Q := fun empty m => empty = true ∧ (m₀.ground f).Sits [] (fun _ => True) m)
        (.read fun m hm => ⟨by simpa [Fiber.calls] using calls_ground hm, hm⟩)
        fun empty => .given fun hempty => ?_
      rw [if_pos hempty]
      exact .bind (Q := fun _ _ => False) (.throw fun m hm _ => calls_ground hm) fun _ _ => False.elim
    | cons frame own =>
      refine Triple.bind (Q := fun empty m => empty = false ∧
          (m₀.ground f).Sits (frame :: own) (fun _ => True) m) (.read fun m hm => ⟨?_, hm⟩)
        fun empty => .given fun hempty => ?_
      · have hcalls := calls_ground hm
        by_contra hempty
        simp only [Bool.not_eq_false, Array.isEmpty_iff] at hempty
        rw [Fiber.calls, hempty] at hcalls
        cases hcalls
      subst hempty
      refine Triple.bind (Q := fun _ m => ∃ top, frame.Like top ∧
          (m₀.ground f).Sits (top :: own) (fun _ => True) m) (.attempt (closeBlocks_sits hE _ n)) fun r =>
        .exists_ fun top => .given fun hlike => ?_
      have hnone := hnone.like hlike
      split
      · refine Triple.bind (Q := fun _ => (m₀.ground f).Sits (top :: own) fun _ => True)
          (fun m hm => ?_) fun _ => ih _ hnone
        exact hm.undisturbed ((detached_emit _ rfl).undisturbed m)
      · rename_i stop hother
        refine .throw fun _ _ hs => ?_
        obtain ⟨raised, rfl⟩ := Stop.eq_runtime hs
        exact (hother raised rfl).elim
      · refine .bind popFrame_sits fun popped => .given fun hpopped => ?_
        obtain ⟨rfl, hroute⟩ := hpopped
        rw [hnone popped List.mem_cons_self]
        refine .ite (fun hentry => .throw fun m hm _ => ?_) fun _ =>
          ih e fun fr hfr => hnone fr (List.mem_cons_of_mem _ hfr)
        cases own with
        | nil => exact calls_ground hm
        | cons caller outer => exact absurd (hroute.2.1.symm.trans hentry) Bool.false_ne_true

theorem handledError_sits (hE : Quiet E) (handler : Value) (e : RuntimeError) :
    Triple ((m₀.ground f).Sits own P) (handledError E handler e) (fun _ => (m₀.ground f).Sits own P)
      (fun s m => s.isCatchable → (m.fiber f).calls = []) := by
  have hrest (r : Except Stop Value) : Triple ((m₀.ground f).Sits own P) (rephrased e r)
      (fun _ => (m₀.ground f).Sits own P) (fun s m => s.isCatchable → (m.fiber f).calls = []) := by
    unfold rephrased
    split
    · exact .bind (.read fun _ h => h) fun _ => .pure fun _ h => h
    · exact .pure fun _ h => h
    · rename_i stop hother
      refine .throw fun _ _ hs => ?_
      obtain ⟨raised, rfl⟩ := Stop.eq_runtime hs
      exact (hother raised rfl).elim
  have hattempt (request : Request) : Triple ((m₀.ground f).Sits own P) (attempt (E request))
      (fun _ => (m₀.ground f).Sits own P) (fun s m => s.isCatchable → (m.fiber f).calls = []) :=
    .attempt (.of_state (fun m hm _ => hm.undisturbed (hE request m))
      fun m hm _ => hm.undisturbed (hE request m))
  rw [handledError_eq]
  exact .ite (fun _ => .bind (hattempt _) hrest) fun _ => hrest _

theorem unwind_empties (hE : Quiet E) (n : Nat) (e : RuntimeError) (ip : Nat) (hnone : Unhandled own) :
    Triple ((m₀.ground f).Sits own fun _ => True) (unwind E f n e ip) (fun _ _ => False)
      (fun s m => s.isCatchable → (m.fiber f).calls = []) := by
  have hreport (e : RuntimeError) : Triple ((m₀.ground f).Sits own fun _ => True) (reportError f e ip)
      (fun _ => (m₀.ground f).Sits own fun _ => True)
      (fun s m => s.isCatchable → (m.fiber f).calls = []) := by
    intro m hm
    have hundisturbed := (observes_reportError f e ip).aside.undisturbed m
    obtain ⟨_, debug, events, hrun, -⟩ := observes_reportError f e ip m
    rw [hrun] at hundisturbed ⊢
    exact hm.undisturbed hundisturbed
  have hhandled (handlers : List Value) (e : RuntimeError) :
      Triple ((m₀.ground f).Sits own fun _ => True)
        (handlers.foldlM (fun e handler => handledError E handler e) e)
        (fun _ => (m₀.ground f).Sits own fun _ => True)
        (fun s m => s.isCatchable → (m.fiber f).calls = []) := by
    induction handlers generalizing e with
    | nil => exact .pure fun _ h => h
    | cons handler handlers ih => exact .bind (handledError_sits hE handler e) ih
  exact .bind (.read fun _ h => h) fun _ => .bind (hreport _) fun _ => .bind (.read fun _ h => h)
    fun handlers => .bind (hhandled handlers _) fun e => unwindFrames_empties hE n e hnone

def Rounded (g : Footing) : Round → Machine → Prop
  | .again _ _, m => ∃ own, g.Open own ∧ g.Sits own (fun _ => True) m
  | .leave, m => m.Leaves g.fiber

theorem rounded_following {limit : Option Nat} {ip : Nat} {flow : Flow}
    (h : (m₀.ground f).FlowsTo (m₀.ground f).Rests flow m) :
    (m₀.ground f).Rounded (.following limit ip flow) m := by
  match flow with
  | .next =>
    obtain ⟨frame, own, h⟩ := h
    exact ⟨frame :: own, h⟩
  | .transfer (.jump _) | .transfer .done | .transfer .yielded => exact h

end Footing

/-- Error handlers do not fail: an error of the turn that is not caught finds none. -/
def Turn.answered (t : Turn) (E : Engine) (f : FiberId) : Prop :=
  ∀ e m, t.ends E f = (.error (.fault (.runtime e)), m) →
    ∀ e', (unwind E f t.fuel e t.ip m).1 = .error (.fault (.runtime e')) →
      Footing.Unhandled (m.fiber f).calls

namespace Footing

/-- A round of the loop of a coroutine keeps it in order, and an error that is not caught leaves no
frame. -/
theorem round_rests (hE : Quiet E) {t : Turn} (hopen : (m₀.ground f).Open own)
    (hm : (m₀.ground f).Sits own (fun _ => True) t.machine) :
    Triple (· = t.machine) (Exec.round E f t.fuel t.limit t.executed t.ip) (m₀.ground f).Rounded
      (fun s m => t.answered E f → s.isCatchable → (m.fiber f).calls = []) := by
  rintro _ rfl
  have hstep := step_rests hE t.fuel t.limit t.executed t.ip hopen hm t.machine rfl
  rcases hends : step E f t.fuel t.limit t.executed t.ip t.machine with ⟨s | flow, m'⟩ <;>
    rw [hends] at hstep
  · by_cases hs : s.isCatchable
    · obtain ⟨e, rfl⟩ := Stop.eq_runtime hs
      obtain ⟨own, hsits⟩ := hstep
      rw [round_of_runtime hends, recover]
      have hunwind : Triple ((m₀.ground f).Sits own fun _ => True) (unwind E f t.fuel e t.ip)
          (m₀.ground f).Rests (fun _ => (m₀.ground f).Holds) :=
        unwind_catches catches_rests hE t.fuel e t.ip False.elim
          (.inr ⟨fun _ h => absurd h.2 Bool.false_ne_true, fun _ _ h => h⟩)
      have hunwind := hunwind m' hsits
      rcases hrun : unwind E f t.fuel e t.ip m' with ⟨s | r, m''⟩ <;> rw [hrun] at hunwind
      · rw [bind_error hrun]
        intro hanswered hs
        obtain ⟨e', rfl⟩ := Stop.eq_runtime hs
        have hnone := hanswered e m' hends e' (congrArg Prod.fst hrun)
        rw [calls_ground hsits] at hnone
        have hempty := unwind_empties hE t.fuel e t.ip hnone m' hsits
        rw [hrun] at hempty
        exact hempty hs
      · rw [bind_ok hrun]
        cases r with
        | jump target => exact hunwind
        | done => exact hunwind
        | yielded => exact hunwind
    · rw [round_of_error hends (by simpa using hs)]
      exact fun _ h => (hs h).elim
  · rw [round_of_ok hends]
    exact rounded_following hstep

variable {n executed ip : Nat} {limit : Option Nat} (hE : Quiet E) (hopen : (m₀.ground f).Open own)
  (hm : (m₀.ground f).Sits own (fun _ => True) m)
include hE hopen hm

theorem sits_of_mem_trace {t : Turn} (ht : t ∈ trace E f n limit executed ip m) :
    ∃ own, (m₀.ground f).Open own ∧ (m₀.ground f).Sits own (fun _ => True) t.machine := by
  induction n generalizing limit executed ip m own with
  | zero => cases ht
  | succ n ih =>
    have hround := round_rests hE (t := ⟨n, limit, executed, ip, m⟩) hopen hm m rfl
    dsimp only at hround
    rw [trace] at ht
    rcases List.mem_cons.1 ht with rfl | ht
    · exact ⟨own, hopen, hm⟩
    · rcases hrun : Exec.round E f n limit executed ip m with ⟨s | r, m'⟩ <;> rw [hrun] at ht hround
      · cases ht
      · cases r with
        | leave => cases ht
        | again limit' ip' =>
          obtain ⟨own', hopen', hm'⟩ := hround
          exact ih hopen' hm' ht

/-- How the loop of a coroutine ends. -/
theorem loop_rests : Triple (· = m) (loop E f n limit executed ip) (fun v m => (m.fiber f).Ends v)
    (fun s m' => (∀ t ∈ trace E f n limit executed ip m, t.answered E f) → s.isCatchable →
      (m'.fiber f).calls = []) := by
  induction n generalizing limit executed ip m own with
  | zero =>
    rintro _ rfl
    exact fun _ h => nomatch h
  | succ n ih =>
    rintro m rfl
    have hround := round_rests hE (t := ⟨n, limit, executed, ip, m⟩) hopen hm m rfl
    dsimp only at hround
    rw [trace, loop_succ]
    rcases hrun : Exec.round E f n limit executed ip m with ⟨s | r, m'⟩ <;> rw [hrun] at hround
    · rw [bind_error hrun]
      exact fun hanswered => hround (hanswered _ List.mem_cons_self)
    · rw [bind_ok hrun]
      cases r with
      | again limit' ip' =>
        obtain ⟨own', hopen', hm'⟩ := hround
        refine Triple.failing (ih hopen' hm') (fun s m'' h hanswered => ?_)
          m' rfl
        exact h fun t ht => hanswered t (List.mem_cons_of_mem _ ht)
      | leave => exact Triple.failing pop_leaves (fun _ _ h _ => h) m' hround

end Footing

end ScriptMachine
