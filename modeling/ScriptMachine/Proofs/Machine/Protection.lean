import ScriptMachine.Proofs.Machine.Balance
import ScriptMachine.Proofs.Machine.Containment

namespace ScriptMachine

open Exec

variable {setup : CallSetup} {P : Machine → Prop} {frame : Frame}

section Poised

variable {α : Type} {calls : List Frame} {Q : α → Machine → Prop} {x : Exec α}

/-- A flow with some calls under way, in a machine that has come from another one. -/
structure Rests (f : FiberId) (start : Machine) (calls : List Frame) (m : Machine) : Prop where
  alone : Alone f start m
  sound : Sound m
  busy : Busy m f
  calls : (m.fiber f).calls = calls

/-- A flow that is about to call a function. -/
structure Poised (f : FiberId) (start : Machine) (calls : List Frame) (callee : Value)
    (arguments : List Value) (m : Machine) : Prop extends Rests f start calls m where
  values : ∃ below, (m.fiber f).values.toList = below ++ callee :: arguments

variable {f : FiberId} {m m' m₀ : Machine} {outer : List Frame} {callee : Value}
  {arguments : List Value} {S : Stop → Machine → Prop}

theorem Rests.trans (h : Rests f m₀ outer m) (hm : Alone f m m')
    (hcalls : (m'.fiber f).calls = calls) : Rests f m₀ calls m' :=
  ⟨h.alone.trans hm, hm.sound h.sound, hm.busy h.busy, hcalls⟩

theorem Rests.undisturbed (h : Rests f m₀ outer m) (hm : Undisturbed m m') :
    Rests f m₀ outer m' ∧ m'.fiber f = m.fiber f := by
  have hsame := (hm h.sound).fiber f trivial h.busy
  exact ⟨h.trans (.of_undisturbed hm h.sound h.busy) (hsame ▸ h.calls), hsame⟩

theorem Rests.withFiber (h : Rests f m₀ outer m) {u : Fiber → Fiber}
    (hrole : SameRole (m.fiber f) (u (m.fiber f))) (hcalls : (u (m.fiber f)).calls = calls) :
    Rests f m₀ calls (m.withFiber f u) := by
  refine h.trans (.withFiber h.busy.1 hrole) ?_
  rw [Machine.fiber_withFiber_self h.busy.1]
  exact hcalls

theorem steady_rests (f : FiberId) (m₀ : Machine) (outer : List Frame) :
    Steady f (Rests f m₀ outer) where
  busy _ h := h.busy
  quiet _ _ h hm := (h.undisturbed hm).1
  values _ _ h := h.withFiber (.stacks ..) h.calls

theorem Poised.undisturbed (h : Poised f m₀ outer callee arguments m) (hm : Undisturbed m m') :
    Poised f m₀ outer callee arguments m' := by
  obtain ⟨hrests, hsame⟩ := h.toRests.undisturbed hm
  exact ⟨hrests, hsame ▸ h.values⟩

theorem Poised.slots (h : Poised f m₀ outer callee arguments m) :
    arguments.length < (m.fiber f).values.size ∧
    (m.fiber f).values.getD ((m.fiber f).values.size - arguments.length - 1) .nil = callee ∧
    ((m.fiber f).values.extract ((m.fiber f).values.size - arguments.length - 1 + 1)
      ((m.fiber f).values.size - arguments.length - 1 + 1 + arguments.length)).toList =
        arguments := by
  obtain ⟨below, hvalues⟩ := h.values
  have hsize : (m.fiber f).values.size = below.length + arguments.length + 1 := by
    rw [← Array.length_toList, hvalues, List.length_append, List.length_cons]
    omega
  have hslot : (m.fiber f).values.size - arguments.length - 1 = below.length := by omega
  rw [hslot]
  refine ⟨by omega, ?_, ?_⟩
  · rw [Array.getD_eq_getD_getElem?, ← Array.getElem?_toList, hvalues]
    simp
  · rw [Array.toList_extract, hvalues]
    simp [List.extract_eq_take_drop]

theorem peek_callee : Triple (Poised f m₀ outer callee arguments) (peek f arguments.length)
    (fun v m => v = callee ∧ Poised f m₀ outer callee arguments m) S := by
  intro m hm
  obtain ⟨hsize, hcallee, -⟩ := hm.slots
  rw [peek_eq, if_pos hsize]
  refine ⟨?_, hm⟩
  rw [← hcallee, Nat.sub_right_comm]

theorem resolveCallee_poised (hcallee : callee.toScalar.isCallable) (name : Option String)
    (chain : Nat) : Triple (Poised f m₀ outer callee arguments)
      (resolveCallee f name chain arguments.length)
      (fun argc m => argc = arguments.length ∧ Poised f m₀ outer callee arguments m) S := by
  cases chain
  all_goals
    unfold resolveCallee
    refine .bind peek_callee fun v => .given fun hv => ?_
    subst hv
    exact .ite (fun _ => .pure fun _ h => ⟨rfl, h⟩) fun h => absurd hcallee h

theorem popMany_poised : Triple (Poised f m₀ outer callee arguments)
    (popMany f (arguments.length + 1))
    (fun moved m => moved = callee :: arguments ∧ Rests f m₀ outer m) S := by
  intro m hm
  obtain ⟨below, hvalues⟩ := hm.values
  have hsize : (m.fiber f).values.size = below.length + (arguments.length + 1) := by
    rw [← Array.length_toList, hvalues, List.length_append, List.length_cons]
  rw [popMany_eq, if_neg (by omega)]
  refine ⟨?_, (steady_rests f m₀ outer).values m (fun vs => vs.shrink _) hm.toRests⟩
  rw [Array.toList_extract, hvalues, hsize]
  simp [List.extract_eq_take_drop]

theorem popFrame_rests : Triple (Rests f m₀ (frame :: outer)) (popFrame f)
    (fun popped m => popped = frame ∧ Rests f m₀ outer m) S := by
  intro m hm
  rw [popFrame, bind_ok (topFrame_apply hm.calls), bind_ok (modifyFiber_apply _ _ _)]
  refine ⟨rfl, hm.withFiber (.stacks ..) ?_⟩
  have hpop := Fiber.calls_pop (m.fiber f)
  rw [hm.calls] at hpop
  exact hpop

theorem pushAll_poised : Triple (Rests f m₀ outer) (pushAll f (callee :: arguments))
    (fun _ => Poised f m₀ outer callee arguments) S := by
  refine .modifyFiber fun m hm =>
    ⟨(steady_rests f m₀ outer).values m (fun vs => vs.appendList (callee :: arguments)) hm,
      (m.fiber f).values.toList, ?_⟩
  rw [Machine.fiber_withFiber_self hm.busy.1]
  exact Array.toList_appendList

theorem replaceFrame_poised (setup : CallSetup) : Triple (Poised f m₀ outer callee arguments)
    (replaceFrame f arguments.length setup)
    (fun setup' m => setup' = setup ∧ Poised f m₀ outer callee arguments m ∨
      ∃ frame rest, outer = frame :: rest ∧ setup.handlers.isEmpty ∧
        setup' = { setup with returnTo := frame.returnTo, isEntry := frame.isEntry } ∧
        setup.returnTo.isSome ∧ Poised f m₀ rest callee arguments m)
    (fun stop _ => stop.isCatchable = false) := by
  refine Triple.bind (Q := fun replace m => (replace = true → setup.handlers.isEmpty ∧
      setup.returnTo.isSome ∧ outer ≠ []) ∧ Poised f m₀ outer callee arguments m)
    (.read fun m hm => ⟨fun h => ?_, hm⟩) fun replace => .given fun hreplace => .ite (fun h => ?_)
      fun _ => .pure fun _ h => .inl ⟨rfl, h⟩
  · simp only [Bool.and_eq_true, Fiber.back?_frames, hm.calls] at h
    obtain ⟨⟨⟨-, hempty⟩, hplain⟩, hreturns⟩ := h
    refine ⟨hempty, ?_, ?_⟩
    · cases hto : setup.returnTo with
      | none => simp [hto] at hreturns
      | some ip => rfl
    · rintro rfl
      simp at hplain
  · obtain ⟨hempty, hsome, hne⟩ := hreplace h
    obtain ⟨frame, rest, rfl⟩ := List.exists_cons_of_ne_nil hne
    refine .bind popMany_poised fun moved => .given fun hmoved => .bind popFrame_rests fun popped =>
      .given fun hpopped => ?_
    subst hmoved hpopped
    exact .bind (steady_rests f m₀ rest).popArguments fun _ => .bind pushAll_poised fun _ =>
      .pure fun m hm => .inr ⟨popped, rest, rfl, hempty, rfl, hsome, hm⟩

/-- Machines that differ in their flows and in what a debugger has seen only. -/
def SameWorld (m m' : Machine) : Prop :=
  m' = { m with fibers := m'.fibers, debug := m'.debug, events := m'.events }

instance : Std.Refl SameWorld := ⟨fun _ => rfl⟩

instance : IsTrans Machine SameWorld where
  trans m m' m'' h h' := by
    rw [SameWorld] at h h' ⊢
    rw [h', h]

theorem Exec.Triple.world (hx : Triple P x Q S) (hworld : Preserves SameWorld x) :
    Triple (fun m => SameWorld m₀ m ∧ P m) x (fun a m => SameWorld m₀ m ∧ Q a m) S := by
  rintro m ⟨hm, hP⟩
  have hrun := hx m hP
  have hkept := hworld m
  rcases h : x m with ⟨stop | a, m'⟩ <;> rw [h] at hrun hkept
  · exact hrun
  · exact ⟨IsTrans.trans _ _ _ hm hkept, hrun⟩

theorem sameWorld_modifyFiber (f : FiberId) (u : Fiber → Fiber) :
    Preserves SameWorld (modifyFiber f u) := fun _ => rfl

theorem sameWorld_listen (f : FiberId) (ip : Nat) (l : Option Location) (force : Bool) :
    Preserves SameWorld (listen f ip l force) :=
  (observes_listen f ip l force).preserves fun _ _ _ _ => rfl

theorem sameWorld_pop (f : FiberId) : Preserves SameWorld (pop f) := by
  refine .bind (.readFiber _ _) fun v? => ?_
  cases v? with
  | none => exact .internal _
  | some v => exact .bind (sameWorld_modifyFiber f _) fun _ => .pure _

theorem sameWorld_popArguments (f : FiberId) : Preserves SameWorld (popArguments f) := by
  refine .bind (sameWorld_pop f) fun v => ?_
  cases v with
  | number x =>
    exact .ite (.ite (.bind (.readFiber _ _) fun _ => .ite (.internal _) (sameWorld_modifyFiber f _))
      (.throw _)) (.internal _)
  | _ => exact .internal _

theorem sameWorld_popFrame (f : FiberId) : Preserves SameWorld (popFrame f) := by
  refine .bind (.bind (.readFiber _ _) fun frame? => ?_) fun _ =>
    .bind (sameWorld_modifyFiber f _) fun _ => .pure _
  cases frame? with
  | none => exact .internal _
  | some frame => exact .pure _

theorem sameWorld_peek (f : FiberId) (depth : Nat) : Preserves SameWorld (peek f depth) :=
  .bind (.readFiber _ _) fun _ => .ite (.readFiber _ _) (.internal _)

theorem sameWorld_resolveCallee (f : FiberId) (name : Option String) (chain argc : Nat) :
    Preserves SameWorld (resolveCallee f name chain argc) :=
  .resolveCallee (sameWorld_peek f) (fun _ => sameWorld_modifyFiber f _) chain argc

theorem sameWorld_replaceFrame (f : FiberId) (argc : Nat) (setup : CallSetup) :
    Preserves SameWorld (replaceFrame f argc setup) := by
  refine .bind (.read _) fun _ => .ite ?_ (.pure _)
  exact .bind (.bind (.readFiber _ _) fun _ => .ite (.internal _)
      (.bind (.readFiber _ _) fun _ => .bind (sameWorld_modifyFiber f _) fun _ => .pure _)) fun _ =>
    .bind (sameWorld_popFrame f) fun _ => .bind (sameWorld_popArguments f) fun _ =>
      .bind (sameWorld_modifyFiber f _) fun _ => .pure _

theorem push_poised (callee : Value) (arguments : List Value)
    (hx : Triple (fun m => SameWorld m₀ m ∧ Poised f m₀ outer callee arguments m) x Q S) :
    Triple (fun m => SameWorld m₀ m ∧ Rests f m₀ outer m)
      (do push f callee; pushAll f arguments; x) Q S := by
  have hpush : Triple (Rests f m₀ outer) (push f callee) (fun _ => Poised f m₀ outer callee []) S := by
    refine .modifyFiber fun m hm =>
      ⟨(steady_rests f m₀ outer).values m (fun vs => vs.push callee) hm,
        (m.fiber f).values.toList, ?_⟩
    rw [Machine.fiber_withFiber_self hm.busy.1]
    exact Array.toList_push
  have hpushAll : Triple (Poised f m₀ outer callee []) (pushAll f arguments)
      (fun _ => Poised f m₀ outer callee arguments) S := by
    refine .modifyFiber fun m hm => ?_
    obtain ⟨below, hvalues⟩ := hm.values
    refine ⟨(steady_rests f m₀ outer).values m (fun vs => vs.appendList arguments) hm.toRests,
      below, ?_⟩
    rw [Machine.fiber_withFiber_self hm.busy.1]
    dsimp only
    rw [Array.appendList_eq_append, Array.toList_appendList, hvalues, List.append_assoc]
    rfl
  exact .bind (hpush.world (sameWorld_modifyFiber f _)) fun _ =>
    .bind (hpushAll.world (sameWorld_modifyFiber f _)) fun _ => hx

/-- Where a call returns to, unless it is made in place of the top frame. -/
def Replaces (setup : CallSetup) (outer : List Frame) (setup' : CallSetup) (outer' : List Frame) :
    Prop :=
  setup' = setup ∧ outer' = outer ∨ ∃ frame, outer = frame :: outer' ∧ setup.handlers.isEmpty ∧
    setup' = { setup with returnTo := frame.returnTo, isEntry := frame.isEntry } ∧
    setup.returnTo.isSome

/-- A call of a function is set up, if the stack is not too deep. -/
theorem performCall_poised {E : Engine} {n : Nat} {Q : Resumption → Machine → Prop}
    (hcallee : callee.toScalar.isCallable) (hdepth : outer.length < m₀.options.maxCallDepth)
    (hS : ∀ stop m, stop.isCatchable = false → S stop m)
    (henter : ∀ setup' outer' calledFrom slot, Replaces setup outer setup' outer' →
      Triple (fun m => slot = (m.fiber f).values.size - arguments.length - 1 ∧ SameWorld m₀ m ∧
          Poised f m₀ outer' callee arguments m)
        (enter E f n arguments.length setup' calledFrom slot callee.toScalar) Q S) :
    Triple (fun m => SameWorld m₀ m ∧ Poised f m₀ outer callee arguments m)
      (performCall E f (n + 1) arguments.length setup) Q S := by
  rw [performCall_succ]
  refine .bind ((resolveCallee_poised hcallee _ _).world (sameWorld_resolveCallee _ _ _ _))
    fun argc => Triple.conseq (P := fun m => argc = arguments.length ∧ SameWorld m₀ m ∧
      Poised f m₀ outer callee arguments m) (.given fun hargc => ?_)
      (fun _ h => ⟨h.2.1, h.1, h.2.2⟩) (fun _ _ h => h) fun _ _ h => h
  subst hargc
  refine .bind (((replaceFrame_poised setup).world (sameWorld_replaceFrame _ _ _)).failing hS)
    fun setup' => ?_
  refine Triple.conseq (P := fun m => ∃ outer', Replaces setup outer setup' outer' ∧
      outer'.length < m₀.options.maxCallDepth ∧ SameWorld m₀ m ∧
        Poised f m₀ outer' callee arguments m)
    (.exists_ fun outer' => .given fun hreplaces => .given fun hdepth => ?_) (fun m h => ?_)
    (fun _ _ h => h) fun _ _ h => h
  · refine Triple.bind (Q := fun _ m => SameWorld m₀ m ∧ Poised f m₀ outer' callee arguments m)
      (.read fun _ h => h) fun calledFrom =>
      Triple.bind (Q := fun deep m => deep = false ∧ SameWorld m₀ m ∧
        Poised f m₀ outer' callee arguments m)
        (.read fun m hm => ⟨?_, hm⟩) fun deep => .given fun hdeep => ?_
    · rw [Fiber.size_frames, hm.2.calls, hm.2.alone.keeps.options]
      simpa using hdepth
    · subst hdeep
      rw [if_neg Bool.false_ne_true]
      refine Triple.bind (Q := fun size m => size = (m.fiber f).values.size ∧ SameWorld m₀ m ∧
        Poised f m₀ outer' callee arguments m) (.read fun _ h => ⟨rfl, h⟩) fun size => ?_
      refine Triple.bind (Q := fun v m => v = callee.toScalar ∧
        size - arguments.length - 1 = (m.fiber f).values.size - arguments.length - 1 ∧
        SameWorld m₀ m ∧ Poised f m₀ outer' callee arguments m) (.read fun m hm => ?_)
        fun v => .given fun hv => ?_
      · obtain ⟨rfl, hworld, hm⟩ := hm
        exact ⟨congrArg Value.toScalar hm.slots.2.1, rfl, hworld, hm⟩
      · subst hv
        exact henter setup' outer' calledFrom _ hreplaces
  · rcases h with ⟨hworld, ⟨rfl, hm⟩ | ⟨frame, rest, rfl, hempty, rfl, hsome, hm⟩⟩
    · exact ⟨outer, .inl ⟨rfl, rfl⟩, hdepth, hworld, hm⟩
    · refine ⟨rest, .inr ⟨frame, rfl, hempty, rfl, hsome⟩, ?_, hworld, hm⟩
      rw [List.length_cons] at hdepth
      omega

end Poised

namespace Shield

variable {s : Shield} {m m₀ : Machine} {E : Engine} {S : Stop → Machine → Prop}

theorem pushFrame_sits : Triple (Rests s.fiber m₀ s.outer) (pushFrame s.fiber s.guard)
    (fun _ => s.Sits m₀ []) S := by
  refine .modifyFiber fun m hm => ?_
  have hrests := hm.withFiber (u := fun b => { b with frames := b.frames.push s.guard })
    (.stacks ..) ((Fiber.calls_push _ _).trans (congrArg _ hm.calls))
  exact ⟨hrests.alone, hrests.sound, hrests.busy, ⟨_, ⟨s.guard, .refl _, rfl⟩, hrests.calls⟩, trivial,
    fun hv => hv.elim⟩

theorem leaveNative_past (harmed : s.Armed m₀) (slot : Nat) (v : Value) :
    Triple (s.Sits m₀ []) (modifyFiber s.fiber fun b =>
      { b with frames := b.frames.pop, values := (b.values.shrink slot).push v })
      (fun _ m => (m.fiber s.fiber).values.back? = some v ∧ s.Past m) S := by
  refine .modifyFiber fun m hm => ?_
  obtain ⟨top, -, hcalls⟩ := calls_of_sits hm
  have hf : s.fiber.index < m.fibers.size := hm.busy.1
  have halone := Alone.withFiber (f := s.fiber) (g := fun b =>
    { b with frames := b.frames.pop, values := (b.values.shrink slot).push v }) hf
    (.stacks ..)
  refine ⟨?_, halone.sound hm.sound, halone.busy hm.busy, ?_, harmed.alone (hm.alone.trans halone)⟩
  · rw [Machine.fiber_withFiber_self hf]
    exact Array.back?_push
  · rw [Machine.fiber_withFiber_self hf]
    have hpop := Fiber.calls_pop (m.fiber s.fiber)
    rw [hcalls] at hpop
    exact hpop

theorem applyContinuation_status (hA : Answers E) (harmed : s.Armed m₀) (v : Value)
    (location : Option Location) :
    Triple (s.Sits m₀ []) (applyContinuation E s.fiber s.guard.handlers v location)
      (fun v m => v.isStatus ∧ s.Sits m₀ [] m) (s.Fails m₀) := by
  rw [applyContinuation, s.continues]
  refine .ite (fun _ => ?_) fun _ => s.fails_of_mild m₀
    ((hA _ _ _ _ (s.Sits m₀ [])).before fun _ h => ⟨(harmed.alone h.alone).continuation, h⟩)
  exact Triple.bind (Q := fun _ => s.Sits m₀ []) (.read fun _ h => h) fun _ =>
    .throw fun _ h => .inl ⟨[], h⟩

theorem enterNative_lands (hE : Quiet E) (hA : Answers E) (harmed : s.Armed m₀) (slot : Nat)
    (request : Request) (location : Option Location)
    (call : Nat → CallSetup → Exec Resumption) : Triple (Rests s.fiber m₀ s.outer) (do
      pushFrame s.fiber s.guard
      let v ← E request
      let v ← applyContinuation E s.fiber s.guard.handlers v location
      modifyFiber s.fiber fun b =>
        { b with frames := b.frames.pop, values := (b.values.shrink slot).push v }
      settle call s.fiber s.guard.returnTo s.guard.isEntry) (s.Lands m₀) (s.Fails m₀) := by
  refine .bind pushFrame_sits fun _ => Triple.bind (Q := fun _ => s.Sits m₀ [])
    (.of_state (fun m hm _ => hm.undisturbed (hE _ m)) fun m hm _ =>
      .inl ⟨[], hm.undisturbed (hE _ m)⟩) fun v => .bind (applyContinuation_status hA harmed v _)
        fun v => .given fun hv => .bind (leaveNative_past harmed slot v) fun _ =>
          s.fails_of_mild m₀ ((settle_status hv call _ _).after ?_)
  rintro _ m ⟨rfl, htop, hpast⟩
  exact .of_delivered ⟨⟨v, htop, hv⟩, hpast⟩

end Shield

section Calls

/-- A call under protection is under way or has brought its status to the frames below. -/
def Exec.Protected (f : FiberId) (returnTo : Option Nat) (outer : List Frame) (r : Resumption)
    (m : Machine) : Prop :=
  r = .after returnTo ∧ Reported f outer m ∨ ∃ (s : Shield) (m₀ : Machine), s.fiber = f ∧
    s.guard.returnTo = returnTo ∧ s.outer = outer ∧ s.Armed m₀ ∧ s.Lands m₀ r m

/-- A call under protection fails: with an error that scripts cannot catch, or in a native function
whose frame is on the stack. -/
def Exec.Breaks (f : FiberId) (returnTo : Option Nat) (outer : List Frame) (native : Prop)
    (stop : Stop) (m : Machine) : Prop :=
  stop.isCatchable = false ∨ native ∧ ∃ (s : Shield) (own : List Frame), s.fiber = f ∧
    s.guard.returnTo = returnTo ∧ s.outer = outer ∧ s.Stands own m

variable {f : FiberId} {m m₀ : Machine} {outer : List Frame} {callee : Value}
  {arguments : List Value} {E : Engine}

/-- A function is called under protection. -/
theorem performCall_protected (hE : Quiet E) (hA : Answers E) {c e : NativeId}
    (hc : setup.handlers.continuation = some c) (he : setup.handlers.onError = some e)
    (harmed : m₀.heap.answersStatus c ∧ m₀.heap.answersStatus e)
    (hcallee : callee.toScalar.isCallable) (hdepth : outer.length < m₀.options.maxCallDepth)
    (n : Nat) : Triple (fun m => SameWorld m₀ m ∧ Poised f m₀ outer callee arguments m)
      (performCall E f n arguments.length setup) (Protected f setup.returnTo outer)
      (Breaks f setup.returnTo outer (∃ id, callee.toScalar = .native id)) := by
  cases n with
  | zero => exact .throw fun _ _ => .inl rfl
  | succ n =>
    refine performCall_poised hcallee hdepth (fun _ _ h => .inl h)
      fun setup' outer' location slot hreplaces => ?_
    obtain ⟨rfl, rfl⟩ : setup' = setup ∧ outer' = outer := by
      rcases hreplaces with h | ⟨frame, -, hempty, -⟩
      · exact h
      · simp [Handlers.isEmpty, hc] at hempty
    have hrests : ∀ m, slot = (m.fiber f).values.size - arguments.length - 1 ∧ SameWorld m₀ m ∧
        Poised f m₀ outer' callee arguments m → Rests f m₀ outer' m := fun m h => h.2.2.toRests
    cases hscalar : callee.toScalar with
    | closure id =>
      refine Triple.bind (Q := fun _ => Rests f m₀ outer') (.read hrests) fun closure =>
        Triple.bind (Q := fun _ => Rests f m₀ outer')
          (.modifyFiber fun m hm => (steady_rests f m₀ outer').values m (fun vs => vs.push _) hm)
          fun _ => ?_
      let s : Shield := ⟨f, {
        entry := closure.entry, base := slot + arguments.length + 2, returnTo := setup'.returnTo,
        names := closure.names, upvalues := closure.cells, handlers := setup'.handlers,
        isEntry := setup'.isEntry, calledFrom := location }, outer', c, e, hc, he⟩
      have hpush : Triple (Rests f m₀ outer') (pushFrame f s.guard) (fun _ => s.Sits m₀ [])
          (Breaks f setup'.returnTo outer' (∃ id', Value.closure id = .native id')) :=
        Shield.pushFrame_sits (s := s)
      exact .bind hpush fun _ => .pure fun m hm => .inr ⟨s, m₀, rfl, rfl, rfl, ⟨harmed.1, harmed.2⟩,
        .inl ⟨[], ⟨0, false, rfl, rfl, rfl⟩, hm⟩⟩
    | native id =>
      refine Triple.bind (Q := fun _ => Rests f m₀ outer') (.read hrests) fun arguments' => ?_
      let s : Shield := ⟨f, {
        base := slot, returnTo := setup'.returnTo, native := some id, handlers := setup'.handlers,
        isEntry := setup'.isEntry, calledFrom := location }, outer', c, e, hc, he⟩
      have hguard : s.Armed m₀ := ⟨harmed.1, harmed.2⟩
      refine (Shield.enterNative_lands (s := s) hE hA hguard slot _ location _).conseq
        (fun _ h => h) (fun r m h => .inr ⟨s, m₀, rfl, rfl, rfl, hguard, h⟩) fun stop m h => ?_
      rcases h with ⟨own, hsits⟩ | h
      · exact .inr ⟨⟨id, rfl⟩, s, own, rfl, rfl, rfl, Shield.Sits.stands hsits hguard⟩
      · exact .inl h
    | _ => rw [hscalar] at hcallee; cases hcallee

end Calls

section Answers

open Library

variable {p : Value → Prop} {E : Engine} {S : Stop → Machine → Prop} {site : CallSite}

/-- What a protected call answers with: a status, or a request for a call under protection. -/
def Library.Guarded (p : Value → Prop) (v : Value) (m : Machine) : Prop :=
  v.isStatus ∨ ∃ r c e, v = .tailCall r ∧ (m.heap.tailCall r).handlers.continuation = some c ∧
    (m.heap.tailCall r).handlers.onError = some e ∧ m.heap.answersStatus c ∧
    m.heap.answersStatus e ∧ p (m.heap.tailCall r).function.toScalar

theorem Value.isStatus_pack (ok : Bool) (v : Value) : (pack [.bool ok, v]).isStatus := by
  have hjoin : join [.bool ok, v] = .bool ok :: v.toList := rfl
  rw [pack, hjoin]
  cases v.toList <;> rfl

theorem guardedCall_guarded (name : String) {function : Value} (hp : p function.toScalar)
    (arguments : List Value) (handler : Option Value) :
    Triple (fun _ => True) (guardedCall name function arguments handler) (Guarded p) S := by
  intro m _
  refine .inr ⟨⟨m.heap.tailCalls.size⟩, ⟨m.heap.natives.size⟩, ⟨m.heap.natives.size + 1⟩, rfl,
    ?_, ?_, ?_, ?_, ?_⟩
  · simp [Heap.tailCall]
  · simp [Heap.tailCall]
  · simp [Heap.answersStatus, Heap.native, Array.getElem_push]
  · simp [Heap.answersStatus, Heap.native, Array.getElem_push]
  · simpa [Heap.tailCall] using hp

theorem protectNative_guarded {g : NativeId} {arguments : List Value} (hoffers : ∀ m r m', P m →
      E (.invoke g site arguments false) m = (.ok (.tailCall r), m') →
        p (m'.heap.tailCall r).function.toScalar) (name : String) (handler : Option Value) :
    Triple P (protectNative E site name g arguments handler) (Guarded p) (fun _ _ => True) := by
  intro m hm
  rcases hrun : E (.invoke g site arguments false) m with ⟨stop | v, m'⟩
  · rw [protectNative, bind_error hrun]
    trivial
  · rw [protectNative, bind_ok hrun]
    cases v with
    | tailCall r =>
      have happly : (do
          let request ← Exec.read fun m => m.heap.tailCall r
          if request.handlers.continuation.isSome || request.handlers.onError.isSome then
            complain (.notCallableDirectly name)
          else guardedCall name request.function request.arguments handler : Exec Value) m' =
        (if (m'.heap.tailCall r).handlers.continuation.isSome ||
            (m'.heap.tailCall r).handlers.onError.isSome then complain (.notCallableDirectly name)
          else guardedCall name (m'.heap.tailCall r).function (m'.heap.tailCall r).arguments
            handler) m' := rfl
      dsimp only
      rw [happly]
      by_cases hhandled : (m'.heap.tailCall r).handlers.continuation.isSome ||
          (m'.heap.tailCall r).handlers.onError.isSome
      · rw [if_pos hhandled]
        trivial
      · rw [if_neg hhandled]
        exact guardedCall_guarded (S := fun _ _ => True) name (hoffers m r m' hm hrun) _ handler m'
          trivial
    | yieldRequest items forced => trivial
    | _ => exact .inl (Value.isStatus_pack true _)

/-- A protected call answers with a status or with a request for a call under protection, and it
raises no error that scripts can catch. -/
theorem pcall_guarded {a : Arguments} (hscript : ∀ c, p (.closure c))
    (hoffers : ∀ g, a.get 0 = .native g → ∀ m r m', P m →
      E (.invoke g site (a.skip 1) false) m = (.ok (.tailCall r), m') →
        p (m'.heap.tailCall r).function.toScalar) :
    Triple P (Library.pcall E site a) (Guarded p) (fun stop _ => stop.isCatchable = false) := by
  unfold Library.pcall protectedCall
  cases htarget : a.get 0 with
  | native g =>
    have hnative : Triple P (attempt (protectNative E site "pcall" g (a.skip 1) none))
        (fun r m => ∀ v, r = .ok v → Guarded p v m) (fun stop _ => stop.isCatchable = false) :=
      .attempt ((protectNative_guarded (hoffers g htarget) "pcall" none).conseq (fun _ h => h)
        (fun v m h w hw => Except.ok.inj hw ▸ h) fun _ _ _ => nofun)
    refine .bind hnative fun r => ?_
    rcases r with ((e | _) | _) | v
    case error.fault.runtime => exact .pure fun _ _ => .inl rfl
    case ok => exact .pure fun _ h => h v rfl
    all_goals exact .throw fun _ _ => rfl
  | closure c =>
    exact (guardedCall_guarded "pcall" (show p (Value.closure c).toScalar from hscript c) _
      none).before fun _ _ => trivial
  | _ => exact .pure fun _ _ => .inl rfl

end Answers

section Calling

open Library

variable {f : FiberId} {m m₀ : Machine} {outer : List Frame} {arguments : List Value}
  {E E' : Engine} {p : Value → Prop} {id : NativeId}

/-- Whether a native function calls functions under protection. -/
def Heap.isPcall (h : Heap) (id : NativeId) : Prop :=
  id.index < h.natives.size ∧ (h.native id).behavior = .builtin .pcall

/-- The functions that the target of a protected call asks for, if it is a native one. -/
def Engine.Offers (E : Engine) (f : FiberId) (start : Machine) (p : Value → Prop) (a : Arguments) :
    Prop :=
  ∀ g, a.get 0 = .native g → ∀ site m r m', SameWorld start m → Alone f start m →
    E (.invoke g site (a.skip 1) false) m = (.ok (.tailCall r), m') →
      p (m'.heap.tailCall r).function.toScalar

/-- An engine that has native functions run by another one. -/
structure Serves (E E' : Engine) : Prop where
  quiet : Quiet E
  answers : Answers E
  invoke : ∀ id site arguments method,
    E (.invoke id site arguments method) = Exec.invoke E' id site (.ofStacked arguments method)

/-- A protected call is served by a run of its own. -/
theorem invoke_guarded (hE : Serves E E') (hpcall : m₀.heap.isPcall id) (hscript : ∀ c, p (.closure c)) {method : Bool}
    (hoffers : E'.Offers f m₀ p (.ofStacked arguments method)) (site : CallSite) :
    Triple (fun m => SameWorld m₀ m ∧ Rests f m₀ outer m) (E (.invoke id site arguments method))
      (fun v m => Guarded p v m ∧ Rests f m₀ outer m) (fun stop _ => stop.isCatchable = false) := by
  rintro m ⟨hworld, hm⟩
  have hquiet := (hm.undisturbed (hE.quiet (.invoke id site arguments method) m)).1
  have hbehavior : (m.heap.native id).behavior = .builtin .pcall := by
    rw [(hm.alone.keeps.natives id hpcall.1).2]
    exact hpcall.2
  have happly : E (.invoke id site arguments method) m =
      Library.pcall E' site (.ofStacked arguments method) m := by
    rw [hE.invoke, invoke_builtin E' site _ hbehavior]
    rfl
  have hguarded : Triple (fun m => SameWorld m₀ m ∧ Alone f m₀ m)
      (Library.pcall E' site (.ofStacked arguments method)) (Guarded p)
      (fun stop _ => stop.isCatchable = false) :=
    pcall_guarded hscript fun g hg m r m' h hrun => hoffers g hg site m r m' h.1 h.2 hrun
  have hguarded := hguarded m ⟨hworld, hm.alone⟩
  rw [← happly] at hguarded
  rcases hrun : E (.invoke id site arguments method) m with ⟨stop | v, m'⟩ <;>
    rw [hrun] at hguarded hquiet
  · exact hguarded
  · exact ⟨hguarded, hquiet⟩

theorem Exec.Breaks.mono {returnTo : Option Nat} {native native' : Prop} {stop : Stop}
    (h : Breaks f returnTo outer native stop m) (hnative : native → native') :
    Breaks f returnTo outer native' stop m := h.imp_right fun h => ⟨hnative h.1, h.2⟩

/-- The answer of a protected call: a request for a call under protection is served. -/
theorem settle_guarded (hE : Quiet E) (hA : Answers E) (hp : ∀ v, p v → v.isCallable)
    (hdepth : outer.length < m₀.options.maxCallDepth) (n : Nat) (returnTo : Option Nat)
    (isEntry : Bool) (v : Value) :
    Triple (fun m => (m.fiber f).values.back? = some v ∧ Guarded p v m ∧ Rests f m₀ outer m)
      (settle (performCall E f n) f returnTo isEntry) (Protected f returnTo outer)
      (Breaks f returnTo outer (∃ id, p (.native id))) := by
  rintro m ⟨htop, hguarded, hm⟩
  rcases hguarded with hstatus | ⟨r, c, e, rfl, hc, he, hcstatus, hestatus, hfunction⟩
  · refine Triple.conseq (settle_status (Q := Rests f m₀ outer) hstatus _ returnTo isEntry)
      (fun _ h => h) ?_ (fun _ _ h => .inl h) m ⟨htop, hm⟩
    rintro _ m ⟨rfl, htop, hm⟩
    exact .inl ⟨rfl, hm.calls, v, htop, hstatus⟩
  · -- The handlers have only just been made: what follows is relative to this machine.
    have hrests : Rests f m outer m := ⟨.refl _ _, hm.sound, hm.busy, hm.calls⟩
    have hdepth : outer.length < m.options.maxCallDepth := by
      rw [hm.alone.keeps.options]
      exact hdepth
    have hcall : Triple (fun m' => SameWorld m m' ∧
        Poised f m outer (m.heap.tailCall r).function (m.heap.tailCall r).arguments m')
        (performCall E f n (m.heap.tailCall r).arguments.length
          { returnTo, isEntry, handlers := (m.heap.tailCall r).handlers })
        (Protected f returnTo outer) (Breaks f returnTo outer (∃ id, p (.native id))) :=
      (performCall_protected hE hA hc he ⟨hcstatus, hestatus⟩ (hp _ hfunction) hdepth n).failing
        fun _ _ h => h.mono fun ⟨id, hid⟩ => ⟨id, hid ▸ hfunction⟩
    have hserve : Triple (fun m' => SameWorld m m' ∧
        (m'.fiber f).values.back? = some (.tailCall r) ∧ Rests f m outer m')
        (settle (performCall E f n) f returnTo isEntry) (Protected f returnTo outer)
        (Breaks f returnTo outer (∃ id, p (.native id))) := by
      refine Triple.bind (Q := fun w m' => w = .tailCall r ∧ SameWorld m m' ∧
          (m'.fiber f).values.back? = some (.tailCall r) ∧ Rests f m outer m')
        ((Triple.peek_top fun _ _ => .inl rfl).after fun w m' h => ?_) fun w => .given fun hw => ?_
      · exact ⟨Option.some.inj (h.1.symm.trans h.2.2.1), h.2⟩
      · subst hw
        refine Triple.bind (Q := fun request m' => request = m.heap.tailCall r ∧ SameWorld m m' ∧
          (m'.fiber f).values.back? = some (.tailCall r) ∧ Rests f m outer m')
          (.read fun m' h => ⟨?_, h⟩) fun request => .given fun hrequest => ?_
        · rw [h.1]
        · subst hrequest
          exact .bind (.bind ((steady_rests f m outer).pop_top.world (sameWorld_pop f)) fun _ =>
            .pure fun _ h => ⟨h.1, h.2.2⟩) fun _ => push_poised _ _ hcall
    exact hserve m ⟨rfl, htop, hrests⟩

theorem Replaces.handlers {setup' : CallSetup} {outer' : List Frame}
    (h : Replaces setup outer setup' outer') : setup'.handlers = setup.handlers := by
  rcases h with ⟨rfl, -⟩ | ⟨frame, -, -, rfl, -⟩ <;> rfl

theorem leaveNative_rests (slot : Nat) (v : Value) {S : Stop → Machine → Prop} :
    Triple (fun m => Guarded p v m ∧ Rests f m₀ (frame :: outer) m)
      (modifyFiber f fun b =>
        { b with frames := b.frames.pop, values := (b.values.shrink slot).push v })
      (fun _ m => (m.fiber f).values.back? = some v ∧ Guarded p v m ∧ Rests f m₀ outer m) S := by
  refine .modifyFiber fun m hm => ⟨?_, hm.1, hm.2.withFiber (.stacks ..) ?_⟩
  · rw [Machine.fiber_withFiber_self hm.2.busy.1]
    exact Array.back?_push
  · have hpop := Fiber.calls_pop (m.fiber f)
    rw [hm.2.calls] at hpop
    exact hpop

/-- The call of a protected call, in place of the top frame or on top of it. -/
theorem performCall_contained {callee : Value} (hE : Serves E E')
    (hcallee : callee.toScalar = .native id) (hpcall : m₀.heap.isPcall id)
    (hscript : ∀ c, p (.closure c)) (hp : ∀ v, p v → v.isCallable)
    (hoffers : E'.Offers f m₀ p (.ofStacked arguments setup.method))
    (hdepth : outer.length < m₀.options.maxCallDepth) (hplain : setup.handlers = {}) (n : Nat) :
    Triple (fun m => SameWorld m₀ m ∧ Poised f m₀ outer callee arguments m)
      (performCall E f n arguments.length setup)
      (fun r m => ∃ setup' outer', Replaces setup outer setup' outer' ∧
        Protected f setup'.returnTo outer' r m)
      (fun stop m => ∃ setup' outer', Replaces setup outer setup' outer' ∧
        Breaks f setup'.returnTo outer' (∃ id, p (.native id)) stop m) := by
  have hmild : ∀ stop (m : Machine), stop.isCatchable = false → ∃ setup' outer',
      Replaces setup outer setup' outer' ∧
        Breaks f setup'.returnTo outer' (∃ id, p (.native id)) stop m :=
    fun _ _ h => ⟨setup, outer, .inl ⟨rfl, rfl⟩, .inl h⟩
  cases n with
  | zero => exact .throw fun m _ => hmild _ m rfl
  | succ n =>
    refine performCall_poised (by rw [hcallee]; rfl) hdepth hmild
      fun setup' outer' location slot hreplaces => ?_
    have hmethod : setup'.method = setup.method := by
      rcases hreplaces with ⟨rfl, -⟩ | ⟨frame, -, -, rfl, -⟩ <;> rfl
    have hdepth' : outer'.length < m₀.options.maxCallDepth := by
      rcases hreplaces with ⟨-, rfl⟩ | ⟨frame, rfl, -⟩
      · exact hdepth
      · rw [List.length_cons] at hdepth
        omega
    rw [hcallee, enter]
    refine Triple.bind (Q := fun arguments' m => arguments' = arguments ∧ SameWorld m₀ m ∧
      Rests f m₀ outer' m) (.read fun m hm => ?_) fun arguments' => .given fun harguments => ?_
    · obtain ⟨rfl, hworld, hm⟩ := hm
      exact ⟨hm.slots.2.2, hworld, hm.toRests⟩
    · subst harguments
      let frame : Frame := {
        base := slot, returnTo := setup'.returnTo, native := some id, handlers := setup'.handlers,
        isEntry := setup'.isEntry, calledFrom := location }
      have hpush : Triple (Rests f m₀ outer') (pushFrame f frame)
          (fun _ => Rests f m₀ (frame :: outer'))
          (fun stop _ => stop.isCatchable = false) :=
        .modifyFiber fun m hm => hm.withFiber
          (u := fun b => { b with frames := b.frames.push frame }) (.stacks ..)
          ((Fiber.calls_push _ _).trans (congrArg _ hm.calls))
      rw [← hmethod] at hoffers
      have hinvoked : Triple (fun m => SameWorld m₀ m ∧ Rests f m₀ (frame :: outer') m)
          (E (.invoke id ⟨f, location⟩ arguments' setup'.method))
          (fun v m => Guarded p v m ∧ Rests f m₀ (frame :: outer') m)
          (fun stop _ => stop.isCatchable = false) :=
        invoke_guarded hE hpcall hscript hoffers _
      refine .bind ((hpush.world (sameWorld_modifyFiber f _)).failing hmild) fun _ =>
        .bind (hinvoked.failing hmild) fun v => ?_
      rw [applyContinuation, hreplaces.handlers, hplain]
      refine .bind (.pure fun _ h => h) fun v => .bind (leaveNative_rests slot v) fun _ => ?_
      exact (settle_guarded hE.quiet hE.answers hp hdepth' n setup'.returnTo setup'.isEntry v).conseq
        (fun _ h => h) (fun r m h => ⟨setup', outer', hreplaces, h⟩)
        fun stop m h => ⟨setup', outer', hreplaces, h⟩

end Calling

end ScriptMachine
