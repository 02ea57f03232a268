import ScriptMachine.Proofs.Machine.Errors

namespace ScriptMachine

open Exec

/-- The frame of a protected call, on top of some others. -/
structure Shield where
  fiber : FiberId
  guard : Frame
  outer : List Frame
  continuation : NativeId
  onError : NativeId
  continues : guard.handlers.continuation = some continuation
  catches : guard.handlers.onError = some onError

namespace Shield

variable (s : Shield) {m' : Machine} {top : Frame} {v : Value}

/-- The frame of a protected call as the ground of all that runs under its protection. -/
def footing (m : Machine) : Footing where
  fiber := s.fiber
  start := m
  Bottom bottom := ∃ top, s.guard.Like top ∧ bottom = top :: s.outer
  Returns returnTo isEntry := returnTo.isSome ∧ isEntry = false ∧ s.guard.native = none
  solid := by
    rintro _ ip isEntry ⟨top, hlike, rfl⟩ -
    exact .inl (by simp [Handlers.isEmpty, hlike.handlers, s.continues])
  height := 0
  valued := False

abbrev Sits (m : Machine) (own : List Frame) : Machine → Prop :=
  (s.footing m).Sits own fun _ => True

/-- Both handlers of the protected call report a status. -/
structure Armed (m : Machine) : Prop where
  continuation : m.heap.answersStatus s.continuation
  onError : m.heap.answersStatus s.onError

/-- The frame of the protected call is off the stack. -/
structure Past (m : Machine) : Prop where
  sound : Sound m
  busy : Busy m s.fiber
  calls : (m.fiber s.fiber).calls = s.outer
  armed : s.Armed m

/-- The caller of the protected call has a status on top of its values. -/
def Delivered (m : Machine) : Prop :=
  (∃ v, (m.fiber s.fiber).values.back? = some v ∧ v.isStatus) ∧ s.Past m

def Lands (m₀ : Machine) : Resumption → Machine → Prop
  | .jump ip, m => (∃ own, (s.footing m₀).Open own ∧ s.Sits m₀ own m) ∨
    s.guard.returnTo = some ip ∧ s.Delivered m
  | .done, m => s.guard.returnTo = none ∧ s.Delivered m
  | .yielded, m =>
    ∃ items forced, (m.fiber s.fiber).values.back? = some (.yieldRequest items forced)

def Flows (m₀ : Machine) : Flow → Machine → Prop
  | .next, m => ∃ own, (s.footing m₀).Open own ∧ s.Sits m₀ own m
  | .transfer r, m => s.Lands m₀ r m

def Fails (m₀ : Machine) (stop : Stop) (m : Machine) : Prop :=
  (∃ own, s.Sits m₀ own m) ∨ stop.isCatchable = false

variable {s} {m m₀ : Machine} {own : List Frame} {E : Engine}

section Basics

theorem Armed.alone {f : FiberId} (h : s.Armed m₀) (hm : Alone f m₀ m) : s.Armed m :=
  ⟨hm.keeps.natives.answersStatus h.continuation, hm.keeps.natives.answersStatus h.onError⟩

theorem Sits.of_footing {P : Array Value → Prop} (h : (s.footing m₀).Sits own P m)
    {P' : Array Value → Prop} : (s.footing m₀).Sits own P' m :=
  { h with piled := fun hv => hv.elim }

theorem calls_of_sits (h : s.Sits m₀ own m) :
    ∃ top, s.guard.Like top ∧ (m.fiber s.fiber).calls = own ++ top :: s.outer := by
  obtain ⟨_, ⟨top, hlike, rfl⟩, hcalls⟩ := h.calls
  exact ⟨top, hlike, hcalls⟩

theorem Lands.of_footing {r : Resumption} (h : (s.footing m₀).Lands r m) : s.Lands m₀ r m := by
  cases r with
  | jump ip => exact .inl h
  | done =>
    obtain ⟨⟨_, hsome, -⟩, -⟩ := h
    cases hsome
  | yielded => exact h.2.2

theorem Lands.of_delivered (h : s.Delivered m) : s.Lands m₀ (.after s.guard.returnTo) m := by
  cases hreturn : s.guard.returnTo with
  | none => exact ⟨hreturn, h⟩
  | some ip => exact .inr ⟨hreturn, h⟩

theorem fails_of_mild (s : Shield) (m₀ : Machine) {α : Type} {P : Machine → Prop} {x : Exec α}
    {Q : α → Machine → Prop} (h : Triple P x Q (fun stop _ => stop.isCatchable = false)) :
    Triple P x Q (s.Fails m₀) :=
  h.failing fun _ _ h => .inr h

theorem steady_sits (own : List Frame) : Steady s.fiber (s.Sits m₀ own) where
  busy _ h := h.busy
  quiet _ _ h hm := h.undisturbed hm
  values _ _ h := h.withFiber (.stacks ..) (fun _ h => h) h.routed
    fun hv => hv.elim

theorem Past.alone (h : s.Past m) (hm : Alone s.fiber m m')
    (hcalls : (m'.fiber s.fiber).calls = s.outer) : s.Past m' :=
  ⟨hm.sound h.sound, hm.busy h.busy, hcalls, h.armed.alone hm⟩

theorem steady_past (s : Shield) : Steady s.fiber s.Past where
  busy _ h := h.busy
  quiet m m' h hm := by
    have hsame := (hm h.sound).fiber s.fiber trivial h.busy
    exact h.alone (.of_undisturbed hm h.sound h.busy) (hsame ▸ h.calls)
  values m u h := by
    refine h.alone (.withFiber h.busy.1 (.stacks ..)) ?_
    rw [Machine.fiber_withFiber_self h.busy.1]
    exact h.calls

theorem popFrame_past (harmed : s.Armed m₀) : Triple (s.Sits m₀ []) (popFrame s.fiber)
    (fun frame m => s.guard.Like frame ∧ s.Past m) (fun stop _ => stop.isCatchable = false) := by
  intro m hm
  obtain ⟨top, hlike, hcalls⟩ := calls_of_sits hm
  rw [popFrame, bind_ok (topFrame_apply hcalls), bind_ok (modifyFiber_apply _ _ _)]
  have hf : s.fiber.index < m.fibers.size := hm.busy.1
  have halone := Alone.withFiber (f := s.fiber)
    (g := fun b => { b with frames := b.frames.pop, values := b.values.shrink top.base }) hf
    (.stacks ..)
  refine ⟨hlike, halone.sound hm.sound, halone.busy hm.busy, ?_,
    harmed.alone (hm.alone.trans halone)⟩
  rw [Machine.fiber_withFiber_self hf]
  have hpop := Fiber.calls_pop (m.fiber s.fiber)
  rw [hcalls] at hpop
  exact hpop

theorem deliver (hv : v.isStatus) (call : Nat → CallSetup → Exec Resumption) (isEntry : Bool) :
    Triple s.Past (do
      push s.fiber v
      settle call s.fiber s.guard.returnTo isEntry) (s.Lands m₀)
      (fun stop _ => stop.isCatchable = false) := by
  refine .bind (s.steady_past.push v) fun _ =>
    (settle_status hv call _ isEntry).after ?_
  rintro _ m ⟨rfl, htop, hpast⟩
  exact .of_delivered ⟨⟨v, htop, hv⟩, hpast⟩

end Basics

section Guard

theorem sits_of_at {k : Nat} (hm : s.Sits m₀ [] m) (hlike : s.guard.Like top)
    (hat : ((s.footing m₀).scene m top s.outer).At k m') : s.Sits m₀ [] m' := by
  obtain ⟨top', hcalls, hlike'⟩ := hat.calls trivial
  exact ⟨hm.alone.trans hat.alone, hat.sound, hat.busy,
    ⟨_, ⟨top', hlike.trans hlike', rfl⟩, hcalls⟩, trivial, fun hv => hv.elim⟩

theorem closeBlocks_sits (hE : Quiet E) (error : Value) (n : Nat) :
    Triple (s.Sits m₀ own) (closeBlocks E s.fiber error n)
      (fun _ m => ∃ own', own'.map Frame.handlers = own.map Frame.handlers ∧ s.Sits m₀ own' m)
      (fun _ m => ∃ own', own'.map Frame.handlers = own.map Frame.handlers ∧ s.Sits m₀ own' m) := by
  cases own with
  | cons frame own =>
    have halike (m : Machine) (h : ∃ top, frame.Like top ∧ s.Sits m₀ (top :: own) m) :
        ∃ own', own'.map Frame.handlers = (frame :: own).map Frame.handlers ∧ s.Sits m₀ own' m := by
      obtain ⟨top, hlike, hsits⟩ := h
      exact ⟨top :: own, by rw [List.map_cons, List.map_cons, hlike.handlers], hsits⟩
    exact (Footing.closeBlocks_sits hE error n).conseq (fun _ h => h) (fun _ => halike)
      fun _ => halike
  | nil =>
    intro m hm
    obtain ⟨top, hlike, hcalls⟩ := calls_of_sits hm
    have hguard (m' : Machine) (hat : ((s.footing m₀).scene m top s.outer).At 0 m') :
        ∃ own', own'.map Frame.handlers = [] ∧ s.Sits m₀ own' m' :=
      ⟨[], rfl, sits_of_at hm hlike hat⟩
    exact Triple.conseq (Scene.uses_closeBlocks hE error n) (fun _ h => h) (fun _ => hguard)
      (fun _ => hguard) m (hm.at_scene hcalls fun hv => hv.elim)

/-- The function under protection has a value to return, which is no request. -/
def Returning (s : Shield) (m₀ : Machine) (i : Instruction) (m : Machine) : Prop :=
  (i.number = 1 → ∀ v, (m.fiber s.fiber).values.back? = some v → v.isRequest = false) ∧
    s.Sits m₀ [] m

theorem closeBlocks_returning (hE : Quiet E) (error : Value) (n : Nat) (i : Instruction) :
    Triple (s.Returning m₀ i) (closeBlocks E s.fiber error n) (fun _ => s.Returning m₀ i)
      (s.Fails m₀) := by
  rintro m ⟨hvalue, hm⟩
  have hkept := (keepsValues_closeBlocks s.fiber hE error n m hm.sound hm.busy).2.2
  have hsits := closeBlocks_sits hE error n m hm
  rcases hrun : closeBlocks E s.fiber error n m with ⟨stop | u, m'⟩ <;> rw [hrun] at hsits hkept
  · obtain ⟨own', -, hsits⟩ := hsits
    exact .inl ⟨own', hsits⟩
  · obtain ⟨own', hmap, hsits⟩ := hsits
    rw [List.map_nil, List.map_eq_nil_iff] at hmap
    subst hmap
    refine ⟨fun hone v hv => hvalue hone v ?_, hsits⟩
    rw [← hkept]
    exact hv

theorem leaveGuard_lands (hA : Answers E) (harmed : s.Armed m₀) (fuel ip : Nat)
    (hv : v.isRequest = false) : Triple (s.Sits m₀ []) (do
      let frame ← popFrame s.fiber
      popArguments s.fiber
      let location ← read fun m => m.code.locationAt ip
      push s.fiber v
      if frame.handlers.continuation.isSome then
        let v ← applyContinuation E s.fiber frame.handlers (← pop s.fiber) location
        push s.fiber v
      settle (performCall E s.fiber fuel) s.fiber frame.returnTo frame.isEntry)
      (s.Lands m₀) (fun stop _ => stop.isCatchable = false) := by
  refine .bind (popFrame_past harmed) fun frame => .given fun hlike => ?_
  have hcontinues : frame.handlers.continuation = some s.continuation := by
    rw [hlike.handlers, s.continues]
  refine .bind s.steady_past.popArguments fun _ =>
    .bind (s.steady_past.undisturbed (.read _) (.read _)) fun location =>
      .bind (s.steady_past.push v) fun _ => .ite (fun _ => ?_) fun h => ?_
  · refine .bind s.steady_past.pop_top fun w => .given fun hw => ?_
    subst hw
    have happly : applyContinuation E s.fiber frame.handlers w location =
        E (.invoke s.continuation ⟨s.fiber, location⟩ [w] false) := by
      rw [applyContinuation, hcontinues]
      dsimp only
      rw [hv, if_neg Bool.false_ne_true]
    rw [happly, hlike.returnTo]
    refine .bind ((hA _ _ _ _ s.Past).before fun _ h => ⟨h.armed.continuation, h⟩) fun v => .given
      fun hv => deliver hv _ _
  · rw [hcontinues] at h
    exact absurd rfl h

theorem performReturn_lands (hE : Quiet E) (hA : Answers E) (harmed : s.Armed m₀) (fuel ip : Nat)
    (i : Instruction) :
    Triple (s.Returning m₀ i) (performReturn E s.fiber fuel i ip) (s.Lands m₀) (s.Fails m₀) := by
  have hsteady : Steady s.fiber (s.Sits m₀ []) := steady_sits []
  have hpop : Triple (fun m => i.number = 1 ∧ s.Returning m₀ i m) (pop s.fiber)
      (fun v m => v.isRequest = false ∧ s.Sits m₀ [] m) (s.Fails m₀) := by
    rintro m ⟨hone, hvalue, hm⟩
    cases hback : (m.fiber s.fiber).values.back? with
    | none =>
      have hread : readFiber s.fiber (fun b => b.values.back?) m = (.ok none, m) := by
        rw [readFiber_apply, hback]
      rw [pop, bind_ok hread]
      exact .inr rfl
    | some v =>
      exact Triple.after hsteady.pop_top
        (fun w m h => ⟨h.1 ▸ hvalue hone v hback, h.2⟩) m ⟨hback, hm⟩
  have hleave (v : Value) := s.fails_of_mild m₀
    (Triple.given fun hv : v.isRequest = false => leaveGuard_lands hA harmed fuel ip hv)
  refine .bind (closeBlocks_returning hE _ fuel i) fun _ => ?_
  by_cases hzero : i.number = 0
  · simp only [hzero, if_true]
    exact .bind (.pure fun m hm => ⟨rfl, hm.2⟩) hleave
  · by_cases hone : i.number = 1
    · simp only [if_neg hzero, if_pos hone]
      exact .bind (hpop.before fun _ h => ⟨hone, h⟩) hleave
    · simp only [if_neg hzero, if_neg hone]
      exact .bind (.throw fun _ _ => .inr rfl) hleave

end Guard

section Steps

theorem exits_guard (hE : Quiet E) (fuel : Nat) (hm : s.Sits m₀ [] m)
    (hscript : s.guard.native = none) (hlike : s.guard.Like top) :
    ((s.footing m₀).scene m top s.outer).Exits E fuel (s.Flows m₀) (s.Fails m₀) := by
  have hopen (m' : Machine) (hat : ((s.footing m₀).scene m top s.outer).At 0 m') :
      ∃ own, (s.footing m₀).Open own ∧ s.Sits m₀ own m' :=
    ⟨[], ⟨0, false, rfl, rfl, hscript⟩, sits_of_at hm hlike hat⟩
  refine ⟨hopen, fun _ m' hat => .inl (hopen m' hat), fun _ m' hat => .inl ⟨[], ?_⟩,
    fun argc setup hto hentry => ?_⟩
  · exact sits_of_at hm hlike hat
  · have hroute : (s.footing m₀).Route [] setup.returnTo setup.isEntry := ⟨hto, hentry, hscript⟩
    exact (Footing.performCall_lands hE fuel hroute fun hv => hv.elim).conseq
      (fun m' hat => Sits.of_footing (sits_of_at hm hlike hat)) (fun _ _ h => .of_footing h)
      fun _ _ h => .inl h

/-- An instruction of the function under protection itself. -/
theorem execute_guard (hE : Quiet E) (hA : Answers E) (harmed : s.Armed m₀) (fuel ip : Nat)
    (i : Instruction) (hscript : s.guard.native = none) :
    Triple (fun m => (i.op = .ret → s.Returning m₀ i m) ∧ s.Sits m₀ [] m)
      (execute E s.fiber fuel ip i) (s.Flows m₀) (s.Fails m₀) := by
  by_cases hret : i.op = .ret
  · have hexecute : execute E s.fiber fuel ip i =
        performReturn E s.fiber fuel i ip >>= fun r => pure (.transfer r) := by
      rw [execute, hret]
    rw [hexecute]
    exact .bind ((performReturn_lands hE hA harmed fuel ip i).before fun _ h => h.1 hret)
      fun _ => .pure fun _ h => h
  · rintro m ⟨-, hm⟩
    obtain ⟨top, hlike, hcalls⟩ := calls_of_sits hm
    exact Scene.ends_execute (exits_guard hE fuel hm hscript hlike) hE ip i
      (fun h => absurd h hret) m (hm.at_scene hcalls fun hv => hv.elim)

theorem suspendAt_flows (ip : Nat) :
    Triple (s.Sits m₀ own) (suspendAt s.fiber ip) (s.Flows m₀) (s.Fails m₀) := by
  refine Triple.bind (Q := fun _ => s.Sits m₀ own) (.modifyFiber fun m hm => ?_) fun _ =>
    .bind ((steady_sits own).push _) fun _ => .pure fun _ h => ⟨_, _, h.1⟩
  exact hm.withFiber (.stacks ..) (fun _ h => h) hm.routed fun hv => hv.elim

/-- What an instruction does under protection. -/
theorem step_flows (hE : Quiet E) (hA : Answers E) (harmed : s.Armed m₀) (fuel : Nat)
    (limit : Option Nat) (executed ip : Nat) (hopen : (s.footing m₀).Open own)
    (hm : s.Sits m₀ own m)
    (hreturning : own = [] → ∀ i, m.code.get? ip = some i → i.op = .ret → s.Returning m₀ i m) :
    Triple (· = m) (step E s.fiber fuel limit executed ip) (s.Flows m₀) (s.Fails m₀) := by
  have hstep (Q : Instruction → Machine → Prop) (hQ : ∀ i, m.code.get? ip = some i → Q i m)
      (haside : ∀ i m m', Q i m → Aside m m' → Q i m')
      (hnext : ∀ i, Triple (Q i) (if limit.any (· ≤ executed) then suspendAt s.fiber ip
        else execute E s.fiber fuel ip i) (s.Flows m₀) (s.Fails m₀)) :
      Triple (· = m) (step E s.fiber fuel limit executed ip) (s.Flows m₀) (s.Fails m₀) := by
    refine Triple.bind (Q := fun i? m' => i? = m.code.get? ip ∧ m' = m)
      (.read fun m' h => h ▸ ⟨rfl, rfl⟩) fun i? => .given fun hi => ?_
    cases i? with
    | none => exact .throw fun _ _ => .inr rfl
    | some i =>
      have hlisten : Triple (Q i) (listen s.fiber ip i.location false) (fun _ => Q i)
          (s.Fails m₀) :=
        s.fails_of_mild m₀ (Triple.mild (S := fun _ => Q i)
          (.of_state (fun m hm _ => haside i m _ hm ((observes_listen _ _ _ _).aside m)) fun m hm _ =>
            haside i m _ hm ((observes_listen _ _ _ _).aside m)) (observes_listen _ _ _ _).mild)
      exact Triple.bind (Q := fun _ => Q i) (.read fun m' h => h ▸ hQ i hi.symm) fun _ =>
        .first hlisten fun _ => hnext i
  by_cases hlimit : limit.any (· ≤ executed) = true
  · refine hstep (fun _ => s.Sits m₀ own) (fun _ _ => hm)
      (fun _ _ _ h hm => h.undisturbed hm.undisturbed) fun i => ?_
    rw [if_pos hlimit]
    exact suspendAt_flows ip
  · cases own with
    | cons frame own =>
      exact (Footing.step_catches Footing.catches_lands hE fuel (Bool.not_eq_true _ ▸ hlimit) hm hopen (fun hv => hv.elim)
        fun hv => hv.elim).conseq (fun _ h => h)
          (fun flow _ h => by
            cases flow with
            | next => exact ⟨_ :: _, h.choose_spec.choose_spec⟩
            | transfer r => exact .of_footing h) fun _ _ h => .inl h
    | nil =>
      obtain ⟨-, -, -, -, hscript⟩ := hopen
      refine hstep (fun i m => (i.op = .ret → s.Returning m₀ i m) ∧ s.Sits m₀ [] m)
        (fun i hi => ⟨hreturning rfl i hi, hm⟩) (fun i m m' h haside => ?_) fun i => ?_
      · have hfiber : m'.fiber s.fiber = m.fiber s.fiber := by
          simp only [Machine.fiber, haside.fibers]
        have hsits := h.2.undisturbed haside.undisturbed
        refine ⟨fun hret => ⟨?_, hsits⟩, hsits⟩
        rw [hfiber]
        exact (h.1 hret).1
      · rw [if_neg hlimit]
        exact execute_guard hE hA harmed fuel ip i hscript

end Steps

end Shield

end ScriptMachine
