import ScriptMachine.Proofs.Machine.Agreement

namespace ScriptMachine

def Machine.countable (m : Machine) (f : FiberId) : Bool := (m.fiber f).values.size < 2 ^ 53

namespace Turn

/-- Whether the next instruction takes values only from above the base of its frame. -/
def disciplined (t : Turn) (f : FiberId) : Bool :=
  match (t.machine.fiber f).frames.back?, t.machine.code.get? t.ip with
  | some frame, some i => frame.base + i.demand ≤ (t.machine.fiber f).values.size
  | _, _ => true

/-- Whether the loop, should the next instruction raise an error, still has a frame above those
that it found, which the error is unwound from. -/
def anchored (t : Turn) (E : Engine) (f : FiberId) (depth : Nat) : Bool :=
  match Exec.step E f t.fuel t.limit t.executed t.ip t.machine with
  | (.error (.fault (.runtime _)), m) =>
    (depth == 0 || depth < (m.fiber f).frames.size) && m.countable f
  | _ => true

def orderly (t : Turn) (E : Engine) (f : FiberId) (depth : Nat) : Bool :=
  t.disciplined f && t.machine.countable f && t.anchored E f depth

end Turn

namespace Exec

def callTrace (E : Engine) (fuel : Nat) (function : Value) (arguments : List Value) (m : Machine) :
    List Turn :=
  let f := m.currentFiber
  match beginCall E f fuel function arguments (m.prepared f) with
  | (.ok (.jump ip), m) => trace E f fuel none 0 ip m
  | _ => []

/-- Whether the loop of a host call is in order at every turn. -/
def orderlyCall (E : Engine) (fuel : Nat) (function : Value) (arguments : List Value)
    (m : Machine) : Bool :=
  (callTrace E fuel function arguments m).all fun t =>
    t.orderly E m.currentFiber (m.fiber m.currentFiber).frames.size

end Exec

/-- The engine, except that it does not serve a host call whose loop would not be in order. -/
def watched : Nat → Engine
  | 0, _ => throw .exhausted
  | fuel + 1, .call function arguments => fun m =>
    if Exec.orderlyCall (watched fuel) fuel function arguments m then
      Exec.callFunction (watched fuel) fuel function arguments m
    else (.error .exhausted, m)
  | fuel + 1, request => Exec.serve (watched fuel) fuel request

namespace Footing

open Exec

variable {executed ip n : Nat}

/-- The footing of a host call. -/
structure Hosting (g : Footing) : Prop where
  valued : g.valued
  returns : ∀ returnTo isEntry, g.Returns returnTo isEntry → returnTo = none ∧ isEntry = true
  bottom : ∀ bottom, g.Bottom bottom → bottom = (g.start.fiber g.fiber).calls
  canYield : (g.start.fiber g.fiber).canYield = false

variable {g : Footing} (hg : g.Hosting) {own : List Frame} {m m' : Machine} {E : Engine}

theorem Sits.low (hm : g.Sits own (fun _ => True) m) (hcount : m.countable g.fiber) :
    g.Low own := by
  intro hv frame hframe
  have hp := (hm.piled hv).1
  have hle := (hp.layered.base_le frame hframe).trans hp.level
  simp only [Machine.countable, decide_eq_true_eq] at hcount
  omega

include hg

theorem Hosting.ne_nil (h : g.Open own) : ∃ frame rest, own = frame :: rest ∧ frame.native = none := by
  cases own with
  | nil =>
    obtain ⟨ip, isEntry, h⟩ := h
    cases (hg.returns _ _ h).1
  | cons frame rest => exact ⟨frame, rest, rfl, h⟩

theorem Hosting.not_yielded (h : g.Lands .yielded m) : False := by
  obtain ⟨hyield, halone, -⟩ := h
  rw [halone.role.canYield, hg.canYield] at hyield
  cases hyield

theorem Hosting.budget_none (hm : g.Sits own (fun _ => True) m) :
    budget g.fiber m = (.ok none, m) := by
  have hyield : (m.fiber g.fiber).canYield = false := hm.alone.role.canYield.trans hg.canYield
  have happly : budget g.fiber m = (.ok (if 0 < (m.fiber g.fiber).budget ∧
      (m.fiber g.fiber).canYield ∧ (m.fiber g.fiber).status ≠ .main then
        some (m.fiber g.fiber).budget else none), m) := rfl
  rw [happly, hyield, if_neg (by simp)]

def Rounds (g : Footing) : Round → Machine → Prop
  | .again limit _, m => limit = none ∧ ∃ own, g.Open own ∧ g.Sits own (fun _ => True) m
  | .leave, m => g.Ready [] 0 m

theorem Hosting.step_flows (hE : Quiet E) (hopen : g.Open own) (hm : g.Sits own (fun _ => True) m)
    (hfits : Turn.disciplined ⟨n, none, executed, ip, m⟩ g.fiber) (hcount : m.countable g.fiber) :
    Triple (· = m) (step E g.fiber n none executed ip) g.Flows (fun _ => g.Holds) := by
  obtain ⟨frame, rest, rfl, hscript⟩ := hg.ne_nil hopen
  refine Footing.step_catches catches_lands hE n rfl hm hscript (hm.low hcount) fun _ i hi => ?_
  obtain ⟨bottom, hbottom, hcalls⟩ := hm.calls
  have hback : (m.fiber g.fiber).frames.back? = some frame := by
    rw [Fiber.back?_frames, hcalls]
    rfl
  simpa [Turn.disciplined, hback, hi] using hfits

/-- Unwinding stops above the frames that were there before, if there is one of its own. -/
theorem Hosting.recover_rounds (hE : Quiet E) (e : RuntimeError) (hm : g.Holds m)
    (hcount : m.countable g.fiber) (hframe : (g.start.fiber g.fiber).frames.size = 0 ∨
      (g.start.fiber g.fiber).frames.size < (m.fiber g.fiber).frames.size) :
    Triple (· = m) (recover E g.fiber n e ip) g.Rounds (fun _ => g.Holds) := by
  obtain ⟨own, hm⟩ := hm
  have hbare : own = [] → ∀ bottom, g.Bottom bottom → bottom = [] := by
    rintro rfl bottom hbottom
    obtain ⟨bottom', hbottom', hcalls⟩ := hm.calls
    rw [hg.bottom bottom hbottom]
    rw [hg.bottom bottom' hbottom'] at hcalls
    rw [Fiber.size_frames, Fiber.size_frames, hcalls] at hframe
    exact List.length_eq_zero_iff.1 (hframe.resolve_right (lt_irrefl _))
  have hunwind := unwind_catches catches_lands hE n e ip (hm.low hcount)
    (.inr ⟨fun returnTo h => (nomatch (hg.returns _ _ h).2), hbare⟩)
  refine .bind (hunwind.before fun m' h => h ▸ hm) fun r => ?_
  cases r with
  | jump target =>
    refine .exists_ fun own => .given fun hopen m hm => ?_
    dsimp only
    rw [bind_ok (hg.budget_none hm)]
    exact ⟨rfl, own, hopen, hm⟩
  | done => exact .pure fun _ h => h.2
  | yielded => exact .pure fun _ h => (hg.not_yielded h).elim

theorem Hosting.round_rounds (hE : Quiet E) (hopen : g.Open own) (hm : g.Sits own (fun _ => True) m)
    (hturn : Turn.orderly ⟨n, none, executed, ip, m⟩ E g.fiber (g.start.fiber g.fiber).frames.size) :
    Triple (· = m) (round E g.fiber n none executed ip) g.Rounds (fun _ => g.Holds) := by
  rintro _ rfl
  simp only [Turn.orderly, Bool.and_eq_true] at hturn
  obtain ⟨⟨hfits, hcount⟩, hanchor⟩ := hturn
  have hflows := hg.step_flows hE hopen hm hfits hcount _ rfl
  rcases hstep : step E g.fiber n none executed ip _ with ⟨s | flow, m'⟩ <;> rw [hstep] at hflows
  · rcases s with (e | _) | _
    · simp only [Turn.anchored, hstep, Bool.and_eq_true, Bool.or_eq_true, beq_iff_eq,
        decide_eq_true_eq] at hanchor
      rw [round_of_runtime hstep]
      exact hg.recover_rounds hE e hflows hanchor.2 hanchor.1 m' rfl
    all_goals
      rw [round_of_error hstep rfl]
      exact hflows
  · rw [round_of_ok hstep]
    match flow with
    | .next =>
      obtain ⟨frame, own, h⟩ := hflows
      exact ⟨rfl, frame :: own, h⟩
    | .transfer (.jump _) => exact ⟨rfl, hflows⟩
    | .transfer .done => exact hflows.2
    | .transfer .yielded => exact (hg.not_yielded hflows).elim

/-- A loop whose turns are in order runs on frames of its own, and leaves none of them if it ends
with a result. -/
theorem Hosting.loop_ends (hE : Quiet E) (hopen : g.Open own) (hm : g.Sits own (fun _ => True) m)
    (hturns : ∀ t ∈ trace E g.fiber n none executed ip m,
      t.orderly E g.fiber (g.start.fiber g.fiber).frames.size) :
    Triple (· = m) (loop E g.fiber n none executed ip)
        (fun _ => g.Sits [] fun vs => g.Ground [] vs.size) (fun _ => g.Holds) ∧
      ∀ t ∈ trace E g.fiber n none executed ip m,
        ∃ own, own ≠ [] ∧ g.Sits own (fun _ => True) t.machine := by
  induction n generalizing executed ip m own with
  | zero => exact ⟨.throw fun _ h => h ▸ hm.holds, fun t ht => by simp [trace] at ht⟩
  | succ n ih =>
    have hown : own ≠ [] := by
      obtain ⟨frame, rest, rfl, -⟩ := hg.ne_nil hopen
      exact List.cons_ne_nil _ _
    rw [trace] at hturns ⊢
    rw [List.forall_mem_cons] at hturns ⊢
    obtain ⟨hturn, hturns⟩ := hturns
    have hrounds := hg.round_rounds hE hopen hm hturn m rfl
    rw [loop_succ]
    rcases hround : Exec.round E g.fiber n none executed ip m with ⟨s | r, m'⟩ <;>
      rw [hround] at hrounds hturns
    · refine ⟨?_, ⟨own, hown, hm⟩, List.forall_mem_nil _⟩
      rintro _ rfl
      rw [bind_error hround]
      exact hrounds
    · cases r with
      | again limit ip' =>
        obtain ⟨rfl, own', hopen', hm'⟩ := hrounds
        obtain ⟨hloop, hrest⟩ := ih hopen' hm' hturns
        refine ⟨?_, ⟨own, hown, hm⟩, hrest⟩
        rintro _ rfl
        rw [bind_ok hround]
        exact hloop m' rfl
      | leave =>
        refine ⟨?_, ⟨own, hown, hm⟩, List.forall_mem_nil _⟩
        rintro _ rfl
        rw [bind_ok hround]
        exact pop_ready m' hrounds

end Footing

section HostCalls

open Exec

variable {f : FiberId} {m m' : Machine} {E : Engine} {α : Type} {arguments : List Value}
  {function : Value} {fuel : Nat} {own : List Frame}

/-- The footing of a call by native code: all that is on the stacks of the flow. -/
def Machine.footing (m : Machine) (f : FiberId) : Footing where
  fiber := f
  start := m.prepared f
  Bottom bottom := bottom = (m.fiber f).calls
  Returns returnTo isEntry := returnTo = none ∧ isEntry = true
  solid _ _ _ _ h := by cases h.1
  height := (m.fiber f).values.size
  valued := True

theorem Machine.hosting_footing (hf : f.index < m.fibers.size) : (m.footing f).Hosting where
  valued := trivial
  returns _ _ h := h
  bottom bottom h := by
    change _ = ((m.prepared f).fiber f).calls
    rw [fiber_prepared hf]
    exact h
  canYield := by
    change ((m.prepared f).fiber f).canYield = false
    rw [fiber_prepared hf]

theorem Sound.prepared (hm : Sound m) (hf : Busy m f)
    (hrunning : f ≠ Machine.mainFiber → (m.fiber f).status = .running) :
    Sound (m.prepared f) ∧ Busy (m.prepared f) f := by
  have hsize : (m.prepared f).fibers.size = m.fibers.size :=
    Array.size_modify.trans (Machine.size_entered m f)
  have hstatus (f' : FiberId) : ((m.prepared f).fiber f').status = (m.fiber f').status := by
    by_cases h : f' = f
    · rw [h, Machine.fiber_prepared hf.1]
    · rw [Machine.prepared, Machine.fiber_withFiber_ne h, Machine.fiber_entered,
        Machine.fiber_withFiber_ne h]
  refine ⟨⟨?_, fun f' hf' => ?_⟩, ?_⟩
  · rw [hsize, hstatus]
    exact hm.main
  · rw [hsize, hstatus]
    change f' ∈ (m.entered f).active at hf'
    rw [Machine.active_entered] at hf'
    split at hf'
    · rcases List.mem_cons.1 hf' with rfl | hmem
      · exact ⟨hf.1, hrunning ‹_›⟩
      · exact hm.active f' hmem
    · exact hm.active f' hf'
  · rw [Busy, hsize, hstatus]
    exact hf

theorem Sound.sits_prepared (hm : Sound m) (hf : Busy m f)
    (hrunning : f ≠ Machine.mainFiber → (m.fiber f).status = .running) :
    (m.footing f).Sits [] (fun vs => (m.footing f).Ground [] vs.size) (m.prepared f) := by
  obtain ⟨hsound, hbusy⟩ := hm.prepared hf hrunning
  have hvalues : ((m.prepared f).fiber f).values = (m.fiber f).values := by
    rw [Machine.fiber_prepared hf.1]
  refine ⟨.refl _ _, hsound, hbusy, ⟨_, rfl, ?_⟩, trivial, fun _ => ⟨⟨trivial, ?_, fun _ _ => rfl,
    rfl⟩, ?_⟩⟩
  · change ((m.prepared f).fiber f).calls = _
    rw [Machine.fiber_prepared hf.1]
    rfl
  · exact (congrArg Array.size hvalues).ge
  · exact congrArg Array.size hvalues

theorem beginCall_lands (hE : Quiet E) (hm : Sound m) (hf : Busy m f)
    (hrunning : f ≠ Machine.mainFiber → (m.fiber f).status = .running) (fuel : Nat)
    (function : Value) (arguments : List Value) :
    Triple (· = m.prepared f) (beginCall E f fuel function arguments) (m.footing f).Lands
      (fun _ => (m.footing f).Holds) := by
  have hsits := hm.sits_prepared hf hrunning
  have hpush : Triple ((m.footing f).Sits [] fun vs => (m.footing f).Ground [] vs.size)
      (push f function) (fun _ => (m.footing f).Ready [] 0) (fun _ => (m.footing f).Holds) :=
    Footing.push_grounded function
  have hcall : Triple ((m.footing f).Ready [] arguments.length)
      (performCall E f fuel arguments.length { isEntry := true }) (m.footing f).Lands
      (fun _ => (m.footing f).Holds) :=
    Footing.performCall_lands hE fuel ⟨rfl, rfl⟩ fun _ => List.forall_mem_nil _
  refine .bind (hpush.before fun m' h => h ▸ hsits) fun _ =>
    .bind (Footing.pushAll_ready arguments) fun _ => ?_
  rw [Nat.zero_add]
  exact hcall

theorem hostCall_ends (hE : Quiet E) (hm : Sound m)
    (horderly : orderlyCall E fuel function arguments m) :
    Triple (· = m.prepared m.currentFiber) (hostCall E m.currentFiber fuel function arguments)
      (fun _ => (m.footing m.currentFiber).Sits [] fun vs =>
        (m.footing m.currentFiber).Ground [] vs.size)
      (fun _ => (m.footing m.currentFiber).Holds) ∧
    ∀ t ∈ callTrace E fuel function arguments m, ∃ own, own ≠ [] ∧
      (m.footing m.currentFiber).Sits own (fun _ => True) t.machine := by
  have hf := hm.busy_current
  have hrunning : m.currentFiber ≠ Machine.mainFiber → (m.fiber m.currentFiber).status = .running :=
    hm.running_current
  have hg := Machine.hosting_footing hf.1
  have hbegin := beginCall_lands hE hm hf hrunning fuel function arguments _ rfl
  unfold hostCall
  unfold orderlyCall callTrace at horderly
  unfold callTrace
  dsimp only at horderly ⊢
  rcases hrun : beginCall E m.currentFiber fuel function arguments (m.prepared m.currentFiber) with
    ⟨s | r, m'⟩ <;> rw [hrun] at hbegin horderly
  · refine ⟨?_, List.forall_mem_nil _⟩
    rintro _ rfl
    rw [bind_error hrun]
    exact hbegin
  · cases r with
    | jump ip =>
      obtain ⟨own, hopen, hsits⟩ := hbegin
      have hframes : ((m.prepared m.currentFiber).fiber m.currentFiber).frames.size =
          (m.fiber m.currentFiber).frames.size := by
        rw [Machine.fiber_prepared hf.1]
      obtain ⟨hloop, htrace⟩ := hg.loop_ends hE hopen hsits fun t ht => by
        have hturn := List.all_eq_true.1 horderly t ht
        rw [← hframes] at hturn
        exact hturn
      have hbudget : budget m.currentFiber m' = (.ok none, m') := hg.budget_none hsits
      refine ⟨?_, htrace⟩
      rintro _ rfl
      rw [bind_ok hrun, drive, runFrom, bind_ok hbudget]
      exact hloop m' rfl
    | done =>
      refine ⟨?_, List.forall_mem_nil _⟩
      have hpop : Triple ((m.footing m.currentFiber).Ready [] 0) (pop m.currentFiber)
          (fun _ => (m.footing m.currentFiber).Sits [] fun vs =>
            (m.footing m.currentFiber).Ground [] vs.size)
          (fun _ => (m.footing m.currentFiber).Holds) := Footing.pop_ready
      rintro _ rfl
      rw [bind_ok hrun]
      exact hpop m' hbegin.2
    | yielded => exact (hg.not_yielded hbegin).elim

theorem shrink_eq_of_kept {xs ys : Array α} (hkept : ∀ i < ys.size, xs[i]? = ys[i]?) :
    xs.shrink ys.size = ys := by
  refine Array.ext_getElem? fun i => ?_
  rw [getElem?_shrink]
  split
  · exact hkept i ‹_›
  · rw [Array.getElem?_eq_none (by omega)]

theorem Fiber.shrink_frames {b b' : Fiber} (h : b'.calls = own ++ b.calls) :
    b'.frames.shrink b.frames.size = b.frames := by
  have hlist : b'.frames.toList = b.frames.toList ++ own.reverse := by
    have := congrArg List.reverse h
    simpa [calls] using this
  rw [Array.shrink_eq_take, Array.take_eq_extract]
  refine Array.toList_inj.1 ?_
  simp [hlist]

theorem sits_cut {P : Array Value → Prop} (hf : f.index < m.fibers.size)
    (hm : (m.footing f).Sits own P m') :
    (m'.fiber f).values.shrink (m.fiber f).values.size = (m.fiber f).values ∧
      (m'.fiber f).frames.shrink (m.fiber f).frames.size = (m.fiber f).frames ∧
      (m'.fiber f).savedIp = (m.fiber f).savedIp := by
  have hp := (hm.piled trivial).1
  have hstart : ((m.footing f).start.fiber (m.footing f).fiber) = (m.prepared f).fiber f := rfl
  have hkept := hp.kept
  have hsaved := hp.savedIp
  rw [hstart, Machine.fiber_prepared hf] at hkept hsaved
  obtain ⟨bottom, rfl, hcalls⟩ := hm.calls
  exact ⟨shrink_eq_of_kept hkept, Fiber.shrink_frames hcalls, hsaved⟩

theorem Fiber.eq_of_role {b b' : Fiber} (hrole : SameRole b b') (hvalues : b'.values = b.values)
    (hframes : b'.frames = b.frames) (hsaved : b'.savedIp = b.savedIp) : b' = b := by
  obtain ⟨h1, h2, h3, h4, h5, h6⟩ := hrole
  cases b
  cases b'
  simp_all

theorem guarded_restores {x : Exec α} (hf : f.index < m.fibers.size)
    (hx : Triple (· = m.prepared f) x
      (fun _ => (m.footing f).Sits [] fun vs => (m.footing f).Ground [] vs.size)
      (fun _ => (m.footing f).Holds)) :
    Keeps (· ≠ f) (m.entered f) (guarded f x (m.entered f)).2 ∧
      (guarded f x (m.entered f)).2.fiber f = (m.entered f).fiber f := by
  have hentered : (m.entered f).fiber f = { m.fiber f with nesting := (m.fiber f).nesting + 1 } := by
    rw [Machine.fiber_entered, Machine.fiber_withFiber_self hf]
  have hprepared := Machine.fiber_prepared hf
  have hends := hx _ rfl
  have hcut {own : List Frame} {P : Array Value → Prop} {m' : Machine}
      (hsits : (m.footing f).Sits own P m') : Keeps (· ≠ f) (m.entered f) m' ∧
        SameRole { m.fiber f with nesting := (m.fiber f).nesting + 1, canYield := false }
          (m'.fiber f) := by
    have hrole : SameRole ((m.prepared f).fiber f) (m'.fiber f) := hsits.alone.role
    rw [hprepared] at hrole
    exact ⟨(Keeps.withFiber _ f _).trans hsits.alone.keeps, hrole⟩
  rw [guarded_apply, ← Machine.prepared, hentered]
  rcases hrun : x (m.prepared f) with ⟨s | a, m'⟩ <;> rw [hrun] at hends
  · obtain ⟨own, hsits⟩ := hends
    obtain ⟨hvalues, hframes, hsaved⟩ := sits_cut hf hsits
    obtain ⟨hkeeps, hrole⟩ := hcut hsits
    have hf' : f.index < m'.fibers.size := hsits.busy.1
    refine ⟨(hkeeps.trans (.withFiber _ f _)).trans (.withFiber _ f _), ?_⟩
    rw [Machine.fiber_withFiber_self (Array.size_modify.symm ▸ hf'),
      Machine.fiber_withFiber_self hf']
    exact Fiber.eq_of_role ⟨hrole.status, rfl, hrole.closeError, hrole.nesting, hrole.budget,
      hrole.owner⟩ hvalues hframes hsaved
  · have hsits : (m.footing f).Sits [] (fun vs => vs.size = (m.fiber f).values.size) m' := hends
    obtain ⟨hvalues, hframes, hsaved⟩ := sits_cut hf hsits
    obtain ⟨hkeeps, hrole⟩ := hcut hsits
    obtain ⟨bottom, rfl, hcalls⟩ := hsits.calls
    -- On the bare ground there is nothing to cut.
    have hheight : (m'.fiber f).values.size = (m.fiber f).values.size := (hsits.piled trivial).2
    have hdepth : (m'.fiber f).frames.size = (m.fiber f).frames.size := by
      rw [Fiber.size_frames, Fiber.size_frames]
      exact congrArg List.length hcalls
    rw [← hheight, shrink_eq_of_kept fun _ _ => rfl] at hvalues
    rw [← hdepth, shrink_eq_of_kept fun _ _ => rfl] at hframes
    have hf' : f.index < m'.fibers.size := hsits.busy.1
    refine ⟨hkeeps.trans (.withFiber _ f _), ?_⟩
    rw [Machine.fiber_withFiber_self hf']
    exact Fiber.eq_of_role ⟨hrole.status, rfl, hrole.closeError, hrole.nesting, hrole.budget,
      hrole.owner⟩ hvalues hframes hsaved

/-- A host call whose loop is in order leaves every flow in the middle of a run as it was. -/
theorem callFunction_keeps (hE : Quiet E) (hm : Sound m)
    (horderly : orderlyCall E fuel function arguments m) :
    Keeps (fun _ => True) m (callFunction E fuel function arguments m).2 := by
  have hf := hm.busy_current.1
  obtain ⟨hkeeps, hfiber⟩ := guarded_restores hf (hostCall_ends hE hm horderly).1
  rw [callFunction_apply, ensuring_apply fun m' => (reportEnd_apply m.currentFiber m').1,
    entering_apply]
  refine Keeps.trans ?_ ((reportEnd_apply _ _).2.keeps _)
  refine { hkeeps.exited with fiber := fun f' _ hbusy => ?_ }
  by_cases h : f' = m.currentFiber
  · have hf' := lt_of_lt_of_le ((Machine.size_entered m m.currentFiber).symm ▸ hf) hkeeps.size
    rw [h, Machine.fiber_exited, Machine.fiber_withFiber_self hf', hfiber, Machine.fiber_entered,
      Machine.fiber_withFiber_self hf]
    rfl
  · exact hkeeps.exited.fiber f' h hbusy

theorem watched_succ_cases (n : Nat) (r : Request) (m : Machine) :
    watched (n + 1) r m = (.error .exhausted, m) ∨ watched (n + 1) r m = serve (watched n) n r m ∧
      ∀ function arguments, r = .call function arguments →
        orderlyCall (watched n) n function arguments m := by
  cases r with
  | call function arguments =>
    simp only [watched]
    split
    · rename_i horderly
      refine .inr ⟨rfl, fun _ _ h => ?_⟩
      cases h
      exact horderly
    · exact .inl rfl
  | _ => exact .inr ⟨rfl, by simp⟩

/-- Native code that is served under watch leaves every flow in the middle of a run alone. -/
theorem quiet_watched (n : Nat) : Quiet (watched n) := by
  induction n with
  | zero => exact fun _ => .throw _
  | succ n ih =>
    intro request
    cases request with
    | call function arguments =>
      intro m hm
      simp only [watched]
      split
      · exact callFunction_keeps ih hm ‹_›
      · exact .refl m
    | resume f arguments => exact undisturbed_resumeFiber ih n f arguments
    | close f => exact undisturbed_closeFiber ih n f
    | invoke id site arguments method => exact undisturbed_invoke ih site _ id

/-- The engine does what it does under watch, as far as it is served there. -/
theorem agrees_watched (n : Nat) : Agrees (watched n) (engine n) :=
  agrees_of_serves (fun _ _ => rfl) (fun n r m => (watched_succ_cases n r m).imp_right And.left) le_rfl

theorem callTrace_eq {E' : Engine} (hE : Quiet E) (hm : Sound m) (hagrees : Agrees E E')
    (hserved : (callFunction E fuel function arguments m).1 ≠ .error .exhausted) :
    callTrace E' fuel function arguments m = callTrace E fuel function arguments m := by
  have hf := hm.busy_current
  have hbegin := beginCall_lands hE hm hf hm.running_current fuel function arguments _ rfl
  have hrefines := refines_beginCall hagrees (le_refl fuel) m.currentFiber function arguments
    (m.prepared m.currentFiber)
  rw [outcome_callFunction, hostCall] at hserved
  unfold callTrace
  dsimp only
  rcases hrun : beginCall E m.currentFiber fuel function arguments (m.prepared m.currentFiber) with
    ⟨s | r, m'⟩ <;> rw [hrun] at hbegin hrefines
  · rw [bind_error hrun] at hserved
    rw [hrefines fun hs => hserved (congrArg _ (Except.error.inj hs))]
  · rw [hrefines (by simp)]
    cases r with
    | jump ip =>
      obtain ⟨own, -, hsits⟩ := hbegin
      have hbudget : budget m.currentFiber m' = (.ok none, m') :=
        (Machine.hosting_footing hf.1).budget_none hsits
      rw [bind_ok hrun, drive, runFrom, bind_ok hbudget] at hserved
      exact trace_eq hagrees _ fuel none 0 ip m' hserved
    | done => rfl
    | yielded => rfl

/-- A host call that is served under watch is balanced. Under watch, a call is served if in its
loop, and in those of the calls nested in it, each instruction takes only values of its own frame,
and no error is raised while the loop has no frame of its own left. Then all flows in the middle of
a run, the calling one included, are exactly as before, and no frame that was there before is ever
on top in the loop. -/
theorem call_balanced {n : Nat} {function : Value} {arguments : List Value} (hm : Sound m)
    (hserved : (watched (n + 1) (.call function arguments) m).1 ≠ .error .exhausted) :
    Sound (engine (n + 1) (.call function arguments) m).2 ∧
      (engine (n + 1) (.call function arguments) m).2.active = m.active ∧
      (∀ f, Busy m f → (engine (n + 1) (.call function arguments) m).2.fiber f = m.fiber f) ∧
      ∀ t ∈ callTrace (engine n) n function arguments m, ∃ own, own ≠ [] ∧
        (t.machine.fiber m.currentFiber).calls = own ++ (m.fiber m.currentFiber).calls := by
  have hsame := agrees_watched (n + 1) _ m hserved
  simp only [watched] at hserved hsame
  split at hserved
  · rename_i horderly
    rw [if_pos horderly] at hsame
    have hkeeps := callFunction_keeps (quiet_watched n) hm horderly
    rw [hsame, callTrace_eq (quiet_watched n) hm (agrees_watched n) hserved]
    refine ⟨hkeeps.sound hm, hkeeps.active, fun f hf => hkeeps.fiber f trivial hf, fun t ht => ?_⟩
    obtain ⟨own, hown, hsits⟩ := (hostCall_ends (quiet_watched n) hm horderly).2 t ht
    obtain ⟨bottom, rfl, hcalls⟩ := hsits.calls
    exact ⟨own, hown, hcalls⟩
  · exact (hserved rfl).elim

/-- A machine in the middle of a native call. Its functions are one that has a native function
call the second one, the second one, and one that returns a request to call nil. -/
def visited : Machine where
  code := { instructions := #[{ op := .preamble },
    { op := .literal, value := some (.native ⟨0⟩) },
    { op := .literal, value := some (.closure ⟨1⟩) },
    { op := .call, number := 1 },
    { op := .ret, number := 1 },
    { op := .preamble },
    { op := .literal, value := some (.bool true) },
    { op := .ret, number := 1 },
    { op := .preamble },
    { op := .literal, value := some (.tailCall ⟨0⟩) },
    { op := .ret, number := 1 }] }
  heap := {
    closures := #[{ entry := 0 }, { entry := 5 }, { entry := 8 }]
    natives := #[{ name := "c", behavior := .host .call }]
    tailCalls := #[{ function := .nil, arguments := [] }] }
  fibers := #[{
    values := #[.native ⟨0⟩], frames := #[{ base := 0, native := some ⟨0⟩, isEntry := true }]
    status := .main, owner := ⟨0⟩ }]

theorem sound_visited : Sound visited := ⟨⟨by decide, rfl⟩, List.forall_mem_nil _⟩

theorem served_visited :
    (watched 10 (.call (.closure ⟨0⟩) []) visited).1 ≠ .error .exhausted := by
  have hok : (watched 10 (.call (.closure ⟨0⟩) []) visited).1.isOk = true := by decide +kernel
  intro h
  rw [h] at hok
  cases hok

theorem call_visited : Sound visited ∧
    (watched 10 (.call (.closure ⟨0⟩) []) visited).1 ≠ .error .exhausted ∧
    ∀ f, Busy visited f →
      (engine 10 (.call (.closure ⟨0⟩) []) visited).2.fiber f = visited.fiber f :=
  ⟨sound_visited, served_visited, (call_balanced sound_visited served_visited).2.2.1⟩

/-- An instruction raises an error when the loop has no frame left, and the frame of the native
call that the loop was started from is unwound. -/
theorem call_unbalanced : Sound visited ∧
    ((callTrace (engine 9) 9 (.closure ⟨2⟩) [] visited).all fun t => t.disciplined ⟨0⟩) = true ∧
    ((engine 10 (.call (.closure ⟨2⟩) []) visited).2.fiber ⟨0⟩).frames.size = 0 ∧
    ((engine 10 (.call (.closure ⟨2⟩) []) visited).2.fiber ⟨0⟩).values.size = 0 ∧
    (visited.fiber ⟨0⟩).frames.size = 1 ∧ (visited.fiber ⟨0⟩).values.size = 1 :=
  ⟨sound_visited, by decide +kernel, by decide +kernel, by decide +kernel, rfl, rfl⟩

end HostCalls

end ScriptMachine
