import ScriptMachine.Proofs.Machine.Balance
import ScriptMachine.Proofs.Machine.Errors
import ScriptMachine.Proofs.Machine.Isolation
import ScriptMachine.Proofs.Machine.TailCalls

namespace ScriptMachine

open Exec Machine

variable {limit : Option Nat} {i : Instruction} {ip : Nat}

/-- Whether a call that goes on at an address is in tail position. On deep stacks it takes the place
of the top frame. -/
def Fiber.isTailCall (b : Fiber) (code : Code) (returnTo : Option Nat) : Bool :=
  (b.frames.back?.any fun frame =>
    !frame.isNative && frame.handlers.isEmpty && !frame.hasClosers) &&
  (returnTo.bind code.get?).any fun i => i.op == .ret && i.number == 1

/-- A flow in the middle of a run that is just as given. -/
structure Stands (f : FiberId) (code : Code) (b : Fiber) (m : Machine) : Prop where
  sound : Sound m
  busy : Busy m f
  code : m.code = code
  fiber : m.fiber f = b

section Standing

variable {f : FiberId} {code : Code} {b : Fiber} {below : Array Value} {callee : Value}
  {arguments : List Value} {m m' : Machine} {S : Stop → Machine → Prop} {u : Fiber → Fiber}

theorem Stands.undisturbed (h : Stands f code b m) (hm : Undisturbed m m') : Stands f code b m' :=
  have halone := Alone.of_undisturbed hm h.sound h.busy
  ⟨halone.sound h.sound, halone.busy h.busy, (hm h.sound).code.trans h.code,
    ((hm h.sound).fiber f trivial h.busy).trans h.fiber⟩

theorem Stands.withFiber (h : Stands f code b m) (hu : SameRole b (u b)) :
    Stands f code (u b) (m.withFiber f u) := by
  have halone := Alone.withFiber (g := u) h.busy.1 (h.fiber.symm ▸ hu)
  refine ⟨halone.sound h.sound, halone.busy h.busy, h.code, ?_⟩
  rw [fiber_withFiber_self h.busy.1, h.fiber]

theorem steady_stands (f : FiberId) (code : Code) (b : Fiber) :
    Steady f fun m => ∃ values, Stands f code { b with values } m where
  busy _ h := h.choose_spec.busy
  quiet _ _ h hm := h.imp fun _ h => h.undisturbed hm
  values _ u := fun ⟨values, h⟩ => ⟨u values, h.withFiber (u := fun b => { b with values := u b.values })
    (.stacks ..)⟩

/-- A flow with a callee and arguments on top of its values. -/
def Fiber.calling (b : Fiber) (below : Array Value) (callee : Value) (arguments : List Value) :
    Fiber :=
  { b with values := below ++ (callee :: arguments).toArray }

theorem size_calling : (b.calling below callee arguments).values.size - arguments.length - 1 =
    below.size := by
  simp only [Fiber.calling, Array.size_append, List.size_toArray, List.length_cons]
  omega

theorem shrink_calling (b : Fiber) (callee : Value) (arguments : List Value) :
    (b.calling below callee arguments).values.shrink below.size = below := by
  simp [Fiber.calling]

theorem insertIdx_calling (handler : Value) :
    (b.calling below callee arguments).values.insertIdxIfInBounds
      ((b.calling below callee arguments).values.size - arguments.length - 1) handler =
      below ++ (handler :: callee :: arguments).toArray := by
  rw [size_calling, Array.insertIdxIfInBounds, dif_pos (by simp [Fiber.calling]), ← Array.toList_inj,
    Array.toList_insertIdx, Fiber.calling, Array.toList_append, Array.toList_append]
  exact List.modifyTailIdx_add _ 0 below.toList _

theorem quiet_stands {α : Type} {x : Exec α} (hx : Preserves Undisturbed x) :
    Triple (Stands f code b) x (fun _ => Stands f code b) (fun _ _ => True) :=
  .of_state (fun m hm _ => hm.undisturbed (hx m)) fun _ _ _ => trivial

theorem modify_stands {b' : Fiber} (hu : u b = b') (hrole : SameRole b b') :
    Triple (Stands f code b) (modifyFiber f u) (fun _ => Stands f code b') S := by
  subst hu
  exact .modifyFiber fun m hm => hm.withFiber hrole

theorem resolveCallee_stands (name : Option String) (chain : Nat) :
    Triple (Stands f code (b.calling below callee arguments))
      (resolveCallee f name chain arguments.length)
      (fun argc m => ∃ callee arguments, argc = arguments.length ∧
        Stands f code (b.calling below callee arguments) m) (fun _ _ => True) := by
  refine Triple.before (.resolveCallee (P := fun argc m => ∃ callee arguments, argc = arguments.length ∧
    Stands f code (b.calling below callee arguments) m) (fun _ => ?_) (fun _ _ _ _ => trivial)
    (fun _ handler => ?_) chain _) fun m hm => ⟨callee, arguments, rfl, hm⟩
  · exact .exists_ fun callee => .exists_ fun arguments => .given fun h =>
      (quiet_stands (aside_peek _ _).undisturbed).after fun _ _ hm => ⟨callee, arguments, h, hm⟩
  · refine .exists_ fun callee => .exists_ fun arguments => .given fun h => ?_
    subst h
    exact (modify_stands (congrArg (fun values => ({ b with values } : Fiber))
      (insertIdx_calling handler)) (.stacks ..)).after fun _ _ hm => ⟨_, _, rfl, hm⟩

theorem pop_stands {v : Value} : Triple (Stands f code { b with values := below.push v }) (pop f)
      (fun _ => Stands f code { b with values := below }) S := by
  refine Triple.bind (Q := fun top m => top = some v ∧ Stands f code { b with values := below.push v } m)
    (.read fun m hm => ⟨?_, hm⟩) fun top => .given fun htop => ?_
  · rw [hm.fiber]
    exact Array.back?_push
  · subst htop
    refine Triple.bind (Q := fun _ => Stands f code { b with values := below })
      (modify_stands ?_ (.stacks ..)) fun _ => .pure fun _ h => h
    rw [Array.pop_push]

theorem popMany_stands : Triple (Stands f code (b.calling below callee arguments))
    (popMany f (arguments.length + 1)) (fun moved m => moved.length = arguments.length + 1 ∧
      Stands f code { b with values := below } m) (fun _ _ => True) := by
  refine Triple.bind (Q := fun size m => size = below.size + (arguments.length + 1) ∧
      Stands f code (b.calling below callee arguments) m) (.read fun m hm => ⟨?_, hm⟩) fun size =>
    .given fun hsize => .ite (fun _ => .throw fun _ _ => trivial) fun _ => ?_
  · rw [hm.fiber]
    simp [Fiber.calling]
  · refine Triple.bind (Q := fun moved m => moved.length = arguments.length + 1 ∧
      Stands f code (b.calling below callee arguments) m) (.read fun m hm => ⟨?_, hm⟩) fun moved =>
      .given fun hmoved => ?_
    · rw [hm.fiber, hsize]
      simp [Fiber.calling]
    · refine Triple.bind (Q := fun _ => Stands f code { b with values := below }) ?_ fun _ =>
        .pure fun _ hm => ⟨hmoved, hm⟩
      refine modify_stands ?_ (.stacks ..)
      rw [hsize, Nat.add_sub_cancel, shrink_calling]
      rfl

theorem popFrame_stands : Triple (Stands f code b) (popFrame f)
    (fun _ m => ∃ values, Stands f code { b with frames := b.frames.pop, values } m)
    (fun _ _ => True) := by
  refine .bind (quiet_stands (aside_topFrame f).undisturbed) fun frame => .bind
    (modify_stands rfl (.stacks ..)) fun _ => .pure fun m hm => ⟨_, hm⟩

theorem replaceFrame_stands (setup : CallSetup) :
    Triple (Stands f code (b.calling below callee arguments)) (replaceFrame f arguments.length setup)
      (fun setup' m => setup' = setup ∧ Stands f code (b.calling below callee arguments) m ∨
        b.isTailCall code setup.returnTo ∧ 0 < b.frames.size ∧ ∃ below callee arguments',
          arguments'.length = arguments.length ∧
          Stands f code ({ b with frames := b.frames.pop }.calling below callee arguments') m)
      (fun _ _ => True) := by
  refine Triple.bind (Q := fun replace m =>
      (replace = true → b.isTailCall code setup.returnTo ∧ 0 < b.frames.size) ∧
        Stands f code (b.calling below callee arguments) m)
    (.read fun m hm => ⟨fun h => ?_, hm⟩) fun replace => .given fun hreplace => .ite (fun h => ?_)
      fun _ => .pure fun _ h => .inl ⟨rfl, h⟩
  · simp only [hm.fiber, hm.code, Bool.and_eq_true] at h
    obtain ⟨⟨⟨-, -⟩, hplain⟩, hreturns⟩ := h
    refine ⟨?_, Nat.pos_of_ne_zero fun hzero => ?_⟩
    · rw [Fiber.isTailCall, Bool.and_eq_true]
      exact ⟨hplain, hreturns⟩
    · simp [Fiber.calling, Array.eq_empty_of_size_eq_zero hzero] at hplain
  · obtain ⟨htail, hpos⟩ := hreplace h
    have hsteady := steady_stands f code { b with frames := b.frames.pop }
    refine .bind popMany_stands fun moved => .given fun hmoved => .bind popFrame_stands fun frame =>
      .bind (hsteady.popArguments.failing fun _ _ _ => trivial) fun _ =>
      .exists_ fun values => ?_
    obtain ⟨callee, arguments', rfl⟩ := List.exists_cons_of_length_eq_add_one hmoved
    refine Triple.bind (Q := fun _ => Stands f code
      ({ b with frames := b.frames.pop }.calling values callee arguments')) (modify_stands ?_
        (.stacks ..)) fun _ => .pure fun m hm =>
          .inr ⟨htail, hpos, values, callee, arguments', Nat.succ.inj hmoved, hm⟩
    exact congrArg (fun values => ({ b with values, frames := b.frames.pop } : Fiber))
      (Array.toList_inj.1 (by simp))

end Standing

/-- How a flow is left by a call that yields. The request is where callee and arguments were; or the
call was in tail position, and there are fewer frames. -/
def Fiber.Yielded (b : Fiber) (below : Array Value) (code : Code) (returnTo : Option Nat)
    (b' : Fiber) : Prop :=
  (∃ items forced, b' = { b with
    values := below.push (.yieldRequest items forced), savedIp := returnTo }) ∨
  b.isTailCall code returnTo ∧ b'.frames.size < b.frames.size

section Yielding

variable {f : FiberId} {code : Code} {b : Fiber} {below : Array Value} {callee : Value}
  {arguments : List Value} {E : Engine} (hE : Quiet E) {n argc : Nat} {m : Machine}

theorem settle_yields {returnTo : Option Nat} (v : Value) (isEntry : Bool)
    (ih : ∀ callee arguments setup, Triple (Stands f code (b.calling below callee arguments))
      (performCall E f n arguments.length setup)
      (fun r m => r = .yielded → b.Yielded below code setup.returnTo (m.fiber f)) (fun _ _ => True)) :
    Triple (Stands f code { b with values := below.push v })
      (settle (performCall E f n) f returnTo isEntry)
      (fun r m => r = .yielded → b.Yielded below code returnTo (m.fiber f)) (fun _ _ => True) := by
  refine Triple.bind (Q := fun w m => w = v ∧ Stands f code { b with values := below.push v } m)
    ((Triple.peek_top fun _ _ => trivial).after fun w m h => ⟨?_, h.2⟩)
    fun w => .given fun hw => ?_
  · have hback := h.1
    rw [h.2.fiber, Array.back?_push] at hback
    exact (Option.some.inj hback).symm
  · subst hw
    split
    · refine Triple.bind (Q := fun _ => Stands f code { b with values := below.push _ })
        (.read fun _ h => h) fun request => Triple.bind (Q := fun _ => Stands f code
          { b with values := below }) ?_ fun _ => Triple.bind (Q := fun _ => Stands f code
            { b with values := below.push request.function }) ?_ fun _ => Triple.bind (Q := fun _ =>
              Stands f code (b.calling below request.function request.arguments)) ?_ fun _ =>
                ih request.function request.arguments _
      · exact .bind pop_stands fun _ => .pure fun _ h => h
      · exact modify_stands rfl (.stacks ..)
      · refine modify_stands ?_ (.stacks ..)
        exact congrArg (fun values => ({ b with values } : Fiber)) (Array.toList_inj.1 (by simp))
    · rename_i items forced
      refine .bind (quiet_stands (.readFiber _ _)) fun _ => .ite (fun _ => .throw fun _ _ => trivial)
        fun _ => .bind (quiet_stands (.readFiber _ _)) fun _ =>
          .ite (fun _ => .throw fun _ _ => trivial) fun _ => ?_
      refine Triple.bind (Q := fun _ => Stands f code
        { b with values := below.push (.yieldRequest items forced), savedIp := returnTo })
        (modify_stands rfl (.stacks ..)) fun _ => .pure fun m hm _ => ?_
      exact .inl ⟨items, forced, hm.fiber⟩
    · refine .pure fun m _ h => ?_
      cases returnTo <;> cases h

include hE in
theorem enterCallee_yields (setup : CallSetup)
    (ih : ∀ callee arguments setup, Triple (Stands f code (b.calling below callee arguments))
      (performCall E f n arguments.length setup)
      (fun r m => r = .yielded → b.Yielded below code setup.returnTo (m.fiber f)) (fun _ _ => True)) :
    Triple (Stands f code (b.calling below callee arguments))
      (enterCallee E f n arguments.length setup)
      (fun r m => r = .yielded → b.Yielded below code setup.returnTo (m.fiber f))
      (fun _ _ => True) := by
  refine .bind (quiet_stands (.read _)) fun calledFrom => .bind (quiet_stands (.read _)) fun deep =>
    .first (.throw fun _ _ => trivial) fun _ => ?_
  refine Triple.bind (Q := fun size m => size - arguments.length - 1 = below.size ∧
    Stands f code (b.calling below callee arguments) m) (.read fun m hm => ⟨?_, hm⟩) fun size =>
      .given fun hsize => .bind (quiet_stands (.readFiber _ _)) fun v => ?_
  · rw [hm.fiber, size_calling]
  · rw [hsize]
    cases v with
    | closure id =>
      have hmodify (u : Fiber → Fiber) : Triple (fun _ => True) (modifyFiber f u) (fun _ _ => True)
        (fun _ _ => True) := .modifyFiber fun _ _ => trivial
      rw [enter]
      exact Triple.bind (Q := fun _ _ => True) (.read fun _ _ => trivial) fun closure =>
        .bind (hmodify _) fun _ => .bind (hmodify _) fun _ => .pure fun _ _ => by simp
    | native id =>
      have hpush (frame : Frame) : Triple (Stands f code (b.calling below callee arguments))
          (pushFrame f frame) (fun _ => Stands f code
            { b.calling below callee arguments with frames := b.frames.push frame }) (fun _ _ => True) :=
        modify_stands rfl (.stacks ..)
      have hleave (frame : Frame) (v : Value) : Triple (Stands f code
            { b.calling below callee arguments with frames := b.frames.push frame })
          (modifyFiber f fun b => { b with
            frames := b.frames.pop, values := (b.values.shrink below.size).push v })
          (fun _ => Stands f code { b with values := below.push v }) (fun _ _ => True) := by
        refine modify_stands ?_ (.stacks ..)
        rw [Array.pop_push, shrink_calling]
        rfl
      rw [enter]
      exact .bind (quiet_stands (.readFiber _ _)) fun values => .bind (hpush _) fun _ =>
        .bind (quiet_stands (hE _)) fun v =>
        .bind (quiet_stands (undisturbed_applyContinuation hE _ _ _ _)) fun v =>
        .bind (hleave _ v) fun _ => settle_yields v _ ih
    | _ => exact .throw fun _ _ => trivial

include hE in
theorem performCall_yields (setup : CallSetup) :
    Triple (Stands f code (b.calling below callee arguments))
      (performCall E f n arguments.length setup)
      (fun r m => r = .yielded → b.Yielded below code setup.returnTo (m.fiber f))
      (fun _ _ => True) := by
  induction n generalizing b below callee arguments setup with
  | zero => exact .throw fun _ _ => trivial
  | succ n ih =>
    rw [performCall_succ]
    refine .bind (resolveCallee_stands _ _) fun argc => .exists_ fun callee => .exists_ fun arguments =>
      .given fun hargc => ?_
    subst hargc
    refine .bind (replaceFrame_stands setup) fun setup' m hm => ?_
    rcases hm with ⟨rfl, hm⟩ | ⟨htail, hpos, below', callee', arguments', hlength, hm⟩
    · exact enterCallee_yields hE setup' (fun _ _ setup => ih setup) m hm
    · have hrun := enterCallee_yields hE setup' (fun _ _ setup => ih setup) m hm
      rw [hlength] at hrun
      rcases henter : enterCallee E f n arguments.length setup' m with ⟨s | r, m'⟩ <;>
        rw [henter] at hrun
      · trivial
      · intro hyield
        -- What was left of the frames has become no more.
        have hfewer : (m'.fiber f).frames.size ≤ b.frames.pop.size := by
          rcases hrun hyield with ⟨items, forced, hfiber⟩ | ⟨-, hlt⟩
          · rw [hfiber]
          · exact hlt.le
        rw [Array.size_pop] at hfewer
        exact .inr ⟨htail, by omega⟩

theorem Machine.exists_calling (h : argc < (m.fiber f).values.size) :
    ∃ callee arguments, arguments.length = argc ∧
      m.fiber f = (m.fiber f).calling (m.below f argc) callee arguments := by
  have hdrop : ((m.fiber f).values.toList.drop ((m.fiber f).values.size - argc - 1)).length =
      argc + 1 := by
    rw [List.length_drop, Array.length_toList]
    omega
  obtain ⟨callee, arguments, htop⟩ := List.exists_cons_of_length_eq_add_one hdrop
  rw [htop] at hdrop
  have hvalues : m.below f argc ++ (callee :: arguments).toArray = (m.fiber f).values := by
    rw [← Array.toList_inj, Array.toList_append, ← htop, below]
    simp
  exact ⟨callee, arguments, Nat.succ.inj hdrop, by rw [Fiber.calling, hvalues]⟩

theorem performCall_of_short (h : (m.fiber f).values.size ≤ argc) (setup : CallSetup) :
    ∃ s m', performCall E f n argc setup m = (.error s, m') := by
  cases n with
  | zero => exact ⟨_, _, rfl⟩
  | succ n =>
    have hresolve : ∃ s, resolveCallee f setup.name maxCallChain argc m = (.error s, m) := by
      unfold resolveCallee
      exact ⟨_, bind_error ((peek_eq f argc m).trans (if_neg (by omega)))⟩
    obtain ⟨s, hresolve⟩ := hresolve
    exact ⟨s, m, by rw [performCall_succ, bind_error hresolve]⟩

include hE in
/-- How a flow is left by an instruction that yields. -/
theorem step_yields {m' : Machine} (hm : Sound m) (hf : Busy m f) {executed : Nat}
    {items : List Value} (hi : m.code.get? ip = some i) (hop : i.op = .call ∨ i.op = .methodCall)
    (hstep : step E f n limit executed ip m = (.ok (.transfer .yielded), m'))
    (hitems : (m'.fiber f).values.back? = some (.yieldRequest items false)) :
    (m.fiber f).Yielded (m.below f i.count) m.code (some (ip + 1)) (m'.fiber f) := by
  have hread : read (fun m => m.code.get? ip) m = (.ok (some i), m) := congrArg (Except.ok ·, m) hi
  obtain ⟨_, debug, events, hlisten, -⟩ := observes_listening f ip i m
  rw [step_eq, bind_ok hread] at hstep
  dsimp only at hstep
  rw [bind_ok hlisten] at hstep
  split at hstep
  · -- A spent budget makes a request of another kind.
    obtain ⟨-, rfl⟩ := Prod.mk.inj hstep
    have hforced : ((((m.withFiber f fun b => { b with savedIp := some ip }).withFiber f fun b =>
        { b with values := b.values.push (.yieldRequest [] true) })).fiber f).values.back? =
          some (.yieldRequest [] true) := by
      rw [fiber_withFiber_self (Array.size_modify.symm ▸ hf.1)]
      exact Array.back?_push
    cases Option.some.inj (hforced.symm.trans hitems)
  · have hexecute : ∃ setup : CallSetup, setup.returnTo = some (ip + 1) ∧
        execute E f n ip i = (return .transfer (← performCall E f n i.count setup)) := by
      unfold execute
      rcases hop with h | h <;> rw [h] <;> exact ⟨_, rfl, rfl⟩
    obtain ⟨setup, hreturn, hexecute⟩ := hexecute
    rw [hexecute] at hstep
    have hstands : Stands f m.code (m.fiber f)
        { m with debug := debug, events := m.events ++ events } := ⟨⟨hm.main, hm.active⟩, hf, rfl, rfl⟩
    rcases hrun : performCall E f n i.count setup
        { m with debug := debug, events := m.events ++ events } with ⟨s | r, m''⟩
    · rw [bind_error hrun] at hstep
      cases hstep
    rw [bind_ok hrun] at hstep
    cases hstep
    obtain hcount | hcount := Nat.lt_or_ge i.count (m.fiber f).values.size
    · obtain ⟨callee, arguments, hargc, hcalling⟩ := exists_calling hcount
      rw [hcalling] at hstands
      have hyields := performCall_yields (n := n) hE setup _ hstands
      rw [hargc, hrun, hreturn] at hyields
      exact hyields rfl
    · obtain ⟨s, m'', herror⟩ := performCall_of_short (E := E) (n := n)
        (m := { m with debug := debug, events := m.events ++ events }) hcount setup
      cases hrun.symm.trans herror

end Yielding

/-- A flow that has yielded and will go on at an address with some values. -/
def Fiber.suspendedAt (b : Fiber) (values : Array Value) (ip : Nat) : Fiber :=
  { b with
    values, savedIp := some ip, status := .suspended, closeError := .nil, nesting := b.nesting - 1 }

/-- The machine when a suspended flow goes on with what it was given. -/
def Machine.continued (m : Machine) (f : FiberId) (arguments : List Value) : Machine :=
  (m.entered f).withFiber f fun b =>
    { b with status := .running, values := b.values.push (.tuple arguments), savedIp := none }

section Resuming

variable {E : Engine} {f : FiberId} {n : Nat} {m m' : Machine} {arguments items : List Value} {t : Turn}

theorem fiber_continued (hf : f.index < m.fibers.size) (arguments : List Value) :
    (m.continued f arguments).fiber f = { m.fiber f with
      status := .running, values := (m.fiber f).values.push (.tuple arguments), savedIp := none
      nesting := (m.fiber f).nesting + 1 } := by
  rw [continued, fiber_withFiber_self ((m.size_entered f).symm ▸ hf),
    fiber_entered, fiber_withFiber_self hf]

/-- A suspended flow goes on where it stopped. -/
theorem turns_of_suspended (E : Engine) (n : Nat) (arguments : List Value)
    (hs : (m.fiber f).status = .suspended) (hsaved : (m.fiber f).savedIp = some ip) :
    turns E n m (.resume f arguments) = trace E f n ((m.continued f arguments).fiber f).limit 0 ip
      (m.continued f arguments) := by
  have hf : f.index < m.fibers.size := lt_size_of_status (by rw [hs]; nofun)
  have hlt : f.index < (m.begun f).fibers.size := by
    rw [begun, withFiber, Array.size_modify, size_entered]
    exact hf
  have hkept : (((m.begun f).withFiber f fun b =>
      { b with values := b.values.push (.tuple arguments) }).fiber f).savedIp = some ip := by
    rw [fiber_withFiber_self hlt, begun,
      fiber_withFiber_self ((m.size_entered f).symm ▸ hf), fiber_entered,
      fiber_withFiber_self hf]
    exact hsaved
  have hbegin : beginResume E f n arguments .suspended (m.begun f) =
      (.ok (.jump ip), m.continued f arguments) := by
    rw [beginResume, push, bind_ok (modifyFiber_apply _ _ _), takeSaved,
      bind_ok (readFiber_apply _ _ _), bind_ok (modifyFiber_apply _ _ _), hkept,
      withFiber_withFiber, begun, withFiber_withFiber]
    rfl
  unfold turns
  dsimp only
  have haccepts : (Status.suspended.isResumable && Status.suspended.accepts arguments) = true := rfl
  rw [hs, if_pos haccepts, hbegin]
  rfl

theorem loop_of_leaves {executed : Nat} (ht : t ∈ trace E f n limit executed ip m)
    (hround : Exec.round E f t.fuel t.limit t.executed t.ip t.machine = (.ok .leave, m')) :
    loop E f n limit executed ip m = pop f m' := by
  rw [loop_of_mem_trace ht, Turn.onward, loop_succ, bind_ok hround]

/-- A resumption ends with the turn that yields. -/
theorem resume_of_yields (ht : t ∈ turns E n m (.resume f arguments))
    (hstep : step E f t.fuel t.limit t.executed t.ip t.machine = (.ok (.transfer .yielded), m'))
    (hitems : (m'.fiber f).values.back? = some (.yieldRequest items false)) :
    Exec.resume E n f arguments m = (.ok (.tuple items), (m'.withFiber f fun b => { b with
      values := b.values.pop, status := .suspended, closeError := .nil }).exited f) := by
  have hpop : pop f m' = (.ok (.yieldRequest items false),
      m'.withFiber f fun b => { b with values := b.values.pop }) := by
    rw [pop, bind_ok (readFiber_apply _ _ _), hitems]
    rfl
  obtain h | ⟨_, _, ⟨⟩⟩ | ⟨_, _, ⟨⟩, hf, haccepts, h⟩ := turns_cases E n m (.resume f arguments) <;>
    rw [h] at ht
  · cases ht
  · have hproceed : proceed E f n arguments (m.fiber f).status (m.begun f) = pop f m' := by
      rw [proceed]
      rcases hrun : beginResume E f n arguments (m.fiber f).status (m.begun f) with ⟨s | r, m''⟩ <;>
        rw [hrun] at ht
      · cases ht
      · cases r with
        | jump ip =>
          rw [bind_ok hrun, drive, runFrom, bind_ok (budget_apply f m'')]
          exact loop_of_leaves ht (round_of_ok hstep)
        | done => cases ht
        | yielded => cases ht
    rw [resume_apply hf _ (runResumed_of_accepts haccepts), hproceed, hpop, concludeResume,
      bind_ok (modifyFiber_apply _ _ _), withFiber_withFiber]
    rfl

theorem mem_active_of_mem_turns (hm : m.Attuned) (ht : t ∈ turns (engine n) n m (.resume f arguments)) :
    f ∈ t.machine.active := by
  obtain h | ⟨_, _, ⟨⟩⟩ | ⟨_, _, ⟨⟩, hf, -, h⟩ := turns_cases (engine n) n m (.resume f arguments) <;>
    rw [h] at ht
  · cases ht
  · have hE := tracking_engine (fun _ _ => True) m ∅ n
    obtain ⟨⟨hactive, -⟩, -⟩ := Likeness.rel_of_mem_drivenTurns hE (good_begun ⟨hm, .refl m⟩ hf)
      (Likeness.alike_beginResume hE (.inl rfl) arguments _) ht
    rw [hactive, active_begun (hm.ne_main_of_resumable hf)]
    exact List.mem_cons_self

theorem Machine.Attuned.sound (hm : m.Attuned) : Sound m :=
  ⟨hm.main, fun f hf => ⟨hm.lt_size hf, (hm.running f).2 hf⟩⟩

/-- A flow that yields by an instruction keeps its frames and all values below the call. -/
theorem fiber_of_yields (hm : m.Attuned) (ht : t ∈ turns (engine n) n m (.resume f arguments))
    (hi : t.machine.code.get? t.ip = some i) (hop : i.op = .call ∨ i.op = .methodCall)
    (hstep : step (watched n) f t.fuel t.limit t.executed t.ip t.machine =
      (.ok (.transfer .yielded), m'))
    (hitems : (m'.fiber f).values.back? = some (.yieldRequest items false))
    (hframes : (t.machine.fiber f).isTailCall t.machine.code (some (t.ip + 1)) →
      (m'.fiber f).frames.size = (t.machine.fiber f).frames.size) :
    engine (n + 1) (.resume f arguments) m = (.ok (.tuple items),
        (engine (n + 1) (.resume f arguments) m).2) ∧
      (engine (n + 1) (.resume f arguments) m).2.fiber f =
        (t.machine.fiber f).suspendedAt (t.machine.below f i.count) (t.ip + 1) := by
  have hattuned := (between_of_mem_turns hm ht).attuned
  have hrunning := mem_active_of_mem_turns hm ht
  have hbusy : Busy t.machine f :=
    ⟨hattuned.lt_size hrunning, .inr ((hattuned.running f).2 hrunning)⟩
  have hyields := step_yields (quiet_watched n) hattuned.sound hbusy hi hop hstep hitems
  have hsame := refines_step (agrees_watched n) (le_refl _) f _ _ _ _ (by rw [hstep]; nofun)
  have hresume : engine (n + 1) (.resume f arguments) m = _ :=
    resume_of_yields ht (hsame.trans hstep) hitems
  have hlt : f.index < m'.fibers.size := by
    by_contra h
    rw [fiber, Array.getD_eq_getD_getElem?, Array.getElem?_eq_none (Nat.le_of_not_lt h)] at hitems
    cases hitems
  rw [hresume]
  refine ⟨rfl, ?_⟩
  rw [fiber_exited, withFiber_withFiber, fiber_withFiber_self hlt]
  rcases hyields with ⟨items', forced, hfiber⟩ | ⟨htail, hfewer⟩
  · rw [hfiber, Function.comp_apply, Array.pop_push]
    rfl
  · exact absurd (hframes htail) hfewer.ne

end Resuming

namespace Session

open Operation

/-- A coroutine that an instruction has suspended keeps its frames, and its values below the call
that yields, unless that call takes the place of a frame. Until something resumes or closes it, it
stays just so, whatever the host, the main flow and other coroutines do meanwhile. It goes on at the
next instruction, with what it was given on top of the same stacks. A host call inside a flow runs
on that flow, and leaves alone every other one that it does not resume or close. -/
theorem suspended_isolated {m m' : Machine} (hm : m.Attuned) {n : Nat} {p : FiberId}
    {arguments items : List Value} {t : Turn} {i : Instruction}
    (ht : t ∈ turns (engine n) n m (.resume p arguments)) (hi : t.machine.code.get? t.ip = some i)
    (hop : i.op = .call ∨ i.op = .methodCall)
    (hstep : step (watched n) p t.fuel t.limit t.executed t.ip t.machine =
      (.ok (.transfer .yielded), m'))
    (hitems : (m'.fiber p).values.back? = some (.yieldRequest items false))
    (hframes : (t.machine.fiber p).isTailCall t.machine.code (some (t.ip + 1)) →
      (m'.fiber p).frames.size = (t.machine.fiber p).frames.size) :
    let b := (t.machine.fiber p).suspendedAt (t.machine.below p i.count) (t.ip + 1)
    let start := (engine (n + 1) (.resume p arguments) m).2
    ((engine (n + 1) (.resume p arguments) m).1 = .ok (.tuple items) ∧ start.Attuned ∧
      start.fiber p = b) ∧
    (∀ k ops, SparesAll p b k ops start → (runAll k ops start).fiber p = b) ∧
    (∀ k request later, later.Attuned → p.index < later.fibers.size →
      request.Spares p b (k + 1) later →
      (later.fiber p = b → (engine (k + 1) request later).2.fiber p = b) ∧
      (turns (engine k) k later request).Pairwise fun t t' =>
        t.machine.fiber p = b → t'.machine.fiber p = b) ∧
    (∀ k arguments later, later.fiber p = b → ∃ limit rest,
      turns (engine (k + 1)) (k + 1) later (.resume p arguments) =
        ⟨k, limit, 0, t.ip + 1, later.continued p arguments⟩ :: rest ∧
      (later.continued p arguments).fiber p = { b with
        status := .running, values := b.values.push (.tuple arguments), savedIp := none
        nesting := b.nesting + 1 }) ∧
    (∀ k function arguments inside, inside.Attuned → inside.currentFiber = p →
      turns (engine k) k inside (.call function arguments) = drivenTurns (engine k) p k
        (beginCall (engine k) p k function arguments (inside.prepared p)) ∧
      ∀ f ≠ p, f.index < inside.fibers.size →
        (Request.call function arguments).Spares f (inside.fiber f) k inside →
        (engine k (.call function arguments) inside).2.fiber f = inside.fiber f) := by
  intro b start
  obtain ⟨hrun, hfiber⟩ := fiber_of_yields hm ht hi hop hstep hitems hframes
  have hattuned : start.Attuned :=
    (engine_lives hm (n + 1) (.resume p arguments)).2.attuned hm
  have hb : b.status.isResumable := rfl
  have hp : p.index < start.fibers.size :=
    Machine.lt_size_of_resumable (congrArg (fun b => b.status.isResumable) hfiber)
  refine ⟨⟨congrArg Prod.fst hrun, hattuned, hfiber⟩,
    fun k ops hspared => fiber_runAll hb hattuned hp hspared hfiber,
    fun k request later hlater hlt hspared => ⟨fun h => ?_, ?_⟩,
    fun k arguments later hlater => ?_, fun k function arguments inside hinside hcurrent => ⟨?_, ?_⟩⟩
  · exact fiber_of_spares (k + 1) (good_isolating hb hlater hlt) hspared h
  · exact pairwise_turns_of_spares hb hlater hlt hspared
  · have hs : (later.fiber p).status = .suspended := congrArg Fiber.status hlater
    have hlt : p.index < later.fibers.size := Machine.lt_size_of_status (by rw [hs]; nofun)
    have hturns := turns_of_suspended (engine (k + 1)) (k + 1) arguments hs
      (congrArg Fiber.savedIp hlater)
    refine ⟨_, _, hturns, ?_⟩
    rw [fiber_continued hlt, hlater]
  · rw [← hcurrent]
    rfl
  · intro f hne hlt hspared
    exact fiber_of_spares k ⟨hinside, hlt, fun h => absurd (h.symm.trans hcurrent) hne⟩ hspared rfl

/-- A machine with a function that yields and returns what it is given, another one that calls it,
and a coroutine of that one. -/
def yieldingInside (threshold : Nat) : Machine :=
  runAll 10 [.create (.closure ⟨1⟩)] {
    code := { instructions := #[{ op := .preamble },
      { op := .literal, value := some (.native ⟨0⟩) },
      { op := .call, number := 0 },
      { op := .ret, number := 1 },
      { op := .preamble },
      { op := .literal, value := some (.closure ⟨0⟩) },
      { op := .call, number := 0 },
      { op := .pop, number := 1 },
      { op := .ret, number := 0 }] }
    heap := {
      closures := #[{ entry := 0 }, { entry := 4 }]
      natives := #[{ name := "yield", behavior := .builtin .yield }]
      coroutines := #[.fiber mainFiber] }
    fibers := #[{ status := .main, owner := ⟨0⟩ }]
    options := { tailCallThreshold := threshold } }

theorem attuned_yieldingInside (threshold : Nat) : (yieldingInside threshold).Attuned :=
  (lives_runAll (attuned_of_main rfl rfl rfl) 10 _).attuned (attuned_of_main rfl rfl rfl)

/-- Whether an instruction yields in a call of the function that was started, whose frame is kept. -/
def Turn.yieldsInside (t : Turn) : Bool :=
  match t.machine.code.get? t.ip, step (watched 10) ⟨1⟩ t.fuel t.limit t.executed t.ip t.machine with
  | some i, (.ok (.transfer .yielded), m') =>
    match (m'.fiber ⟨1⟩).values.back? with
    | some (.yieldRequest _ false) =>
      i.op == .call && (m'.fiber ⟨1⟩).frames.size == 2 && (t.machine.fiber ⟨1⟩).frames.size == 2
    | _ => false
  | _, _ => false

theorem suspended_isolated_inside : ∃ t i,
    t ∈ turns (engine 10) 10 (yieldingInside 100) (.resume ⟨1⟩ []) ∧
    (t.machine.fiber ⟨1⟩).frames.size = 2 ∧
    (engine 11 (.resume ⟨1⟩ []) (yieldingInside 100)).2.fiber ⟨1⟩ =
      (t.machine.fiber ⟨1⟩).suspendedAt (t.machine.below ⟨1⟩ (Instruction.count i)) (t.ip + 1) := by
  have hany : ((turns (engine 10) 10 (yieldingInside 100) (.resume ⟨1⟩ [])).any
      Turn.yieldsInside) = true := by decide +kernel
  obtain ⟨t, ht, h⟩ := List.any_eq_true.1 hany
  unfold Turn.yieldsInside at h
  split at h
  · rename_i i m' hi hstep
    split at h
    · rename_i items hitems
      simp only [Bool.and_eq_true, beq_iff_eq] at h
      obtain ⟨⟨hop, hkept⟩, hframes⟩ := h
      exact ⟨t, i, ht, hframes, (suspended_isolated (attuned_yieldingInside 100) ht hi (.inl hop)
        hstep hitems fun _ => hkept.trans hframes.symm).1.2.2⟩
    · cases h
  · cases h

/-- In tail position on a deep stack the frame of the function that yields is gone. -/
theorem yielding_replaces_frame :
    ((turns (engine 10) 10 (yieldingInside 1) (.resume ⟨1⟩ [])).getLast?.map fun t =>
      (t.ip, (t.machine.fiber ⟨1⟩).frames.size)) = some (2, 2) ∧
    let start := (engine 11 (.resume ⟨1⟩ []) (yieldingInside 1)).2
    (start.fiber ⟨1⟩).status = .suspended ∧ (start.fiber ⟨1⟩).frames.size = 1 := by
  decide +kernel

end Session

end ScriptMachine
