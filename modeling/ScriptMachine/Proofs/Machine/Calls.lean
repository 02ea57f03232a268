import ScriptMachine.Proofs.Machine.Footing

namespace ScriptMachine

namespace Exec

/-- What is left of a call once its callee is known. -/
def enter (E : Engine) (f : FiberId) (n argc : Nat) (setup : CallSetup)
    (calledFrom : Option Location) (slot : Nat) : Value → Exec Resumption
  | .closure id => do
    let closure ← read fun m => m.heap.closure id
    push f (.ofNat argc)
    pushFrame f {
      entry := closure.entry, base := slot + argc + 2, returnTo := setup.returnTo,
      names := closure.names, upvalues := closure.cells, handlers := setup.handlers,
      isEntry := setup.isEntry, calledFrom }
    return .jump closure.entry
  | .native id => do
    let arguments ← readFiber f fun b => (b.values.extract (slot + 1) (slot + 1 + argc)).toList
    pushFrame f {
      base := slot, returnTo := setup.returnTo, native := some id, handlers := setup.handlers,
      isEntry := setup.isEntry, calledFrom }
    let v ← E (.invoke id ⟨f, calledFrom⟩ arguments setup.method)
    let v ← applyContinuation E f setup.handlers v calledFrom
    modifyFiber f fun b =>
      { b with frames := b.frames.pop, values := (b.values.shrink slot).push v }
    settle (performCall E f n) f setup.returnTo setup.isEntry
  | _ => internal "callee changed while setting up a call"

/-- What a call does once callee and arguments are in place. -/
def enterCallee (E : Engine) (f : FiberId) (n argc : Nat) (setup : CallSetup) : Exec Resumption := do
  let calledFrom ← read fun m => setup.calledBy.bind m.code.locationAt
  if ← read fun m => decide (m.options.maxCallDepth ≤ (m.fiber f).frames.size) then
    complain .stackOverflow
  let slot := (← height f) - argc - 1
  enter E f n argc setup calledFrom slot (← readFiber f fun b => (b.values.getD slot .nil).toScalar)

theorem performCall_succ (E : Engine) (f : FiberId) (n argc : Nat) (setup : CallSetup) :
    performCall E f (n + 1) argc setup = (do
      let argc ← resolveCallee f setup.name maxCallChain argc
      let setup ← replaceFrame f argc setup
      enterCallee E f n argc setup) := by
  rw [performCall]
  congr

end Exec

namespace Footing

open Exec

variable {g : Footing} {own : List Frame} {P : Array Value → Prop} {m m' : Machine} {argc : Nat}
  {E : Engine} {frame : Frame} {setup : CallSetup}

section Setup

theorem insert_ready (handler : Value) : Triple (g.Ready own argc)
    (modifyFiber g.fiber fun b =>
      { b with values := b.values.insertIdxIfInBounds (b.values.size - argc - 1) handler })
    (fun _ => g.Ready own (argc + 1)) (fun _ => g.Holds) := by
  refine Triple.modifyFiber fun m hm => hm.withValues
    (u := fun vs => vs.insertIdxIfInBounds (vs.size - argc - 1) handler) fun vs _ hlevel hP => ?_
  obtain ⟨hsize, hground⟩ := hP
  have hle := hground.level_le
  have hidx : vs.insertIdxIfInBounds (vs.size - argc - 1) handler =
      vs.insertIdx (vs.size - argc - 1) handler (by omega) := by
    rw [Array.insertIdxIfInBounds, dif_pos]
  rw [hidx]
  refine ⟨fun i hi => ?_, ?_, ?_⟩
  · rw [Array.getElem?_insertIdx, if_pos (by omega)]
  · rw [Array.size_insertIdx]
    omega
  · rw [Stacked, Array.size_insertIdx,
      show vs.size + 1 - (argc + 1) - 1 = vs.size - argc - 1 by omega]
    exact ⟨by omega, hground⟩

theorem resolveCallee_ready (name : Option String) (chain : Nat) :
    Triple (g.Ready own argc) (resolveCallee g.fiber name chain argc)
      (fun argc => g.Ready own argc) (fun _ => g.Holds) :=
  .resolveCallee (P := g.Ready own) (fun _ => quiet (aside_peek _ _).undisturbed)
    (fun _ _ _ h => h.holds) (fun _ handler => insert_ready handler) chain argc

theorem popMany_ready : Triple (g.Ready own argc) (popMany g.fiber (argc + 1))
    (fun moved m => moved.length = argc + 1 ∧ g.Sits own (fun vs => g.Ground own vs.size) m)
    (fun _ => g.Holds) := by
  intro m hm
  by_cases hsize : (m.fiber g.fiber).values.size < argc + 1
  · rw [popMany_eq, if_pos hsize]
    exact hm.holds
  · rw [popMany_eq, if_neg hsize]
    refine ⟨?_, hm.withFiber (.stacks ..) (fun _ h => h) hm.routed
      fun _ hp hP => ?_⟩
    · rw [Array.length_toList, Array.size_extract]
      omega
    · have hground := hP.2
      have hle := hground.level_le
      have hshrink : ((m.fiber g.fiber).values.shrink
          ((m.fiber g.fiber).values.size - (argc + 1))).size =
          (m.fiber g.fiber).values.size - argc - 1 := by
        rw [Array.size_shrink]
        omega
      refine ⟨hp.congr (fun i hi => ?_) (hle.trans hshrink.ge) rfl, hshrink.symm ▸ hground⟩
      rw [getElem?_shrink, if_pos (by omega)]

theorem pushAll_grounded {vs : List Value} (hvs : vs.length = argc + 1) :
    Triple (g.Sits own fun vs => g.Ground own vs.size) (pushAll g.fiber vs)
      (fun _ => g.Ready own argc) (fun _ => g.Holds) := by
  refine Triple.modifyFiber fun m hm =>
    hm.withValues (u := fun ws => ws.appendList vs) fun ws _ hlevel hground => ?_
  refine ⟨fun i hi => ?_, ?_, ?_⟩
  · rw [getElem?_appendList, if_pos (by omega)]
  · rw [size_appendList]
    omega
  · rw [Stacked, size_appendList, hvs,
      show ws.size + (argc + 1) - argc - 1 = ws.size by omega]
    exact ⟨by omega, hground⟩

/-- A frame that is replaced is one of its own, and a script runs in it. -/
theorem own_of_canReplace (hm : g.Sits own P m) (hroute : g.Route own setup.returnTo setup.isEntry)
    (hreplace : (canReplaceFrame g.fiber setup m).1 = .ok true) :
    ∃ frame rest, own = frame :: rest ∧ frame.native = none := by
  obtain ⟨bottom, hbottom, hcalls⟩ := hm.calls
  have hback : (m.fiber g.fiber).frames.back? = (own ++ bottom).head? := by
    rw [Fiber.back?_frames, hcalls]
  have hcond := Except.ok.inj hreplace
  simp only [hback, Bool.and_eq_true] at hcond
  obtain ⟨⟨-, hplain⟩, hreturns⟩ := hcond
  cases own with
  | nil =>
    cases hto : setup.returnTo with
    | none => simp [hto] at hreturns
    | some ip =>
      rw [hto] at hroute
      rcases g.solid bottom ip _ hbottom hroute with hsolid | hsolid
      · cases bottom with
        | nil => simp at hplain
        | cons guard bottom => simp_all
      · rw [hto, Option.bind_some, hm.alone.keeps.code] at hreturns
        obtain ⟨i, hi, hret⟩ := Option.any_eq_true .. |>.1 hreturns
        simp_all
  | cons frame rest =>
    have hnative : frame.isNative = false := by simp_all
    exact ⟨frame, rest, rfl, by simpa [Frame.isNative] using hnative⟩

theorem Low.tail (h : g.Low (frame :: own)) : g.Low own :=
  fun hv top htop => h hv top (List.mem_cons_of_mem _ htop)

theorem Low.head (h : g.Low (frame :: own)) : g.Low [frame] :=
  fun hv top htop => h hv top (List.mem_singleton.1 htop ▸ List.mem_cons_self)

theorem replaceFrame_ready (hroute : g.Route own setup.returnTo setup.isEntry) (hlow : g.Low own) :
    Triple (g.Ready own argc) (replaceFrame g.fiber argc setup)
      (fun setup' m => ∃ own', g.Route own' setup'.returnTo setup'.isEntry ∧ g.Low own' ∧
        (setup'.handlers = setup.handlers ∧ (own'.length < own.length ∨ own' = own ∧
          ∃ m, g.Ready own argc m ∧ (canReplaceFrame g.fiber setup m).1 = .ok false)) ∧
        g.Ready own' argc m) (fun _ => g.Holds) := by
  refine Triple.bind (Q := fun replace m => ((replace = true →
      ∃ frame rest, own = frame :: rest ∧ frame.native = none) ∧ (replace = false →
        ∃ m, g.Ready own argc m ∧ (canReplaceFrame g.fiber setup m).1 = .ok false)) ∧
      g.Ready own argc m)
    (.read fun m hm => ⟨⟨fun h => own_of_canReplace hm hroute (congrArg Except.ok h),
      fun h => ⟨m, hm, congrArg Except.ok h⟩⟩, hm⟩)
    fun replace => .given fun hreplace => .ite (fun h => ?_) fun h => ?_
  · obtain ⟨frame, rest, rfl, hscript⟩ := hreplace.1 h
    refine .bind popMany_ready fun moved => .given fun hmoved => ?_
    refine .bind popFrame_left fun popped => .given fun hpopped => ?_
    obtain ⟨rfl, hrouted⟩ := hpopped
    refine .bind (popArguments_left hscript hlow.head) fun _ =>
      .bind (pushAll_grounded hmoved) fun _ => .pure fun m hm => ?_
    exact ⟨rest, hrouted, hlow.tail, ⟨rfl, .inl (Nat.lt_succ_self _)⟩, hm⟩
  · exact .pure fun m hm =>
      ⟨own, hroute, hlow, ⟨rfl, .inr ⟨rfl, hreplace.2 (eq_false_of_ne_true h)⟩⟩, hm⟩

end Setup

/-- What may be said where calls, returns and unwinding end. -/
structure Catches (g : Footing) (Q : Resumption → Machine → Prop) : Prop where
  jump : ∀ ip frame own m, frame.native = none → g.Sits (frame :: own) (fun _ => True) m → Q (.jump ip) m
  back : ∀ ip isEntry m, g.Returns (some ip) isEntry → g.Ready [] 0 m → Q (.jump ip) m
  done : ∀ isEntry m, g.Returns none isEntry → g.Ready [] 0 m →
    (∀ items forced, (m.fiber g.fiber).values.back? ≠ some (.yieldRequest items forced)) → Q .done m
  yielded : ∀ own returnTo isEntry items forced m, g.Route own returnTo isEntry → g.Ready own 0 m →
    (m.fiber g.fiber).canYield = true →
    (m.fiber g.fiber).values.back? = some (.yieldRequest items forced) →
    Q .yielded (m.withFiber g.fiber fun b => { b with savedIp := returnTo })

theorem catches_lands : g.Catches g.Lands where
  jump _ frame own _ hscript hm := ⟨frame :: own, hscript, hm⟩
  back ip isEntry _ hreturns hm := ⟨[], ⟨ip, isEntry, hreturns⟩, hm.mono fun _ _ => trivial⟩
  done isEntry _ hreturns hm _ := ⟨⟨isEntry, hreturns⟩, hm⟩
  yielded _ returnTo _ items forced m _ hm hyield htop := by
    have halone := Alone.withFiber (g := fun b => { b with savedIp := returnTo }) hm.busy.1
      (.stacks ..)
    refine ⟨halone.role.canYield.trans hyield, hm.alone.trans halone, items, forced, ?_⟩
    rw [Machine.fiber_withFiber_self hm.busy.1]
    exact htop

section Calling

variable {Q : Resumption → Machine → Prop} (hQ : g.Catches Q)
  {call : Nat → CallSetup → Exec Resumption} {returnTo : Option Nat} {isEntry : Bool} {size : Nat}

theorem lands_after (hroute : g.Route own returnTo isEntry) (hm : g.Ready own 0 m) :
    g.Lands (.after returnTo) m := by
  have hsits := hm.mono fun _ _ => trivial
  cases own with
  | nil =>
    cases returnTo with
    | none => exact ⟨⟨isEntry, hroute⟩, hm⟩
    | some ip => exact ⟨[], ⟨ip, isEntry, hroute⟩, hsits⟩
  | cons caller own =>
    obtain ⟨hsome, -, hscript⟩ := hroute
    obtain ⟨ip, rfl⟩ := Option.isSome_iff_exists.1 hsome
    exact ⟨caller :: own, hscript, hsits⟩

include hQ in
theorem Catches.after (hroute : g.Route own returnTo isEntry) (hm : g.Ready own 0 m)
    (hv : ∀ items forced, (m.fiber g.fiber).values.back? ≠ some (.yieldRequest items forced)) :
    Q (.after returnTo) m := by
  cases own with
  | nil =>
    cases returnTo with
    | none => exact hQ.done isEntry m hroute hm hv
    | some ip => exact hQ.back ip isEntry m hroute hm
  | cons caller own =>
    obtain ⟨hsome, -, hscript⟩ := hroute
    obtain ⟨ip, rfl⟩ := Option.isSome_iff_exists.1 hsome
    exact hQ.jump ip caller own m hscript (hm.mono fun _ _ => trivial)

include hQ in
theorem settle_catches (hcall : ∀ argc setup, g.Route own setup.returnTo setup.isEntry →
      Triple (g.Ready own argc) (call argc setup) Q (fun _ => g.Holds))
    (hroute : g.Route own returnTo isEntry) :
    Triple (g.Ready own 0) (settle call g.fiber returnTo isEntry) Q (fun _ => g.Holds) := by
  refine .bind (.peek_top fun _ hm => hm.holds) fun v => ?_
  split
  · refine Triple.bind (Q := fun _ => g.Ready own 0) (.read fun _ hm => hm.2) fun request =>
      .bind (.bind pop_ready fun _ => .pure fun _ h => h) fun _ => .bind (push_grounded _) fun _ =>
        .bind (pushAll_ready _) fun _ => ?_
    rw [Nat.zero_add]
    exact hcall _ _ hroute
  · rename_i items forced
    refine Triple.bind (Q := fun _ m =>
        (m.fiber g.fiber).values.back? = some (.yieldRequest items forced) ∧ g.Ready own 0 m)
      (.read fun _ hm => hm) fun _ => .ite (fun _ => .throw fun _ hm => hm.2.holds) fun _ => ?_
    refine Triple.bind (Q := fun blocked m => blocked = (!(m.fiber g.fiber).canYield) ∧
        (m.fiber g.fiber).values.back? = some (.yieldRequest items forced) ∧ g.Ready own 0 m)
      (.read fun m hm => ⟨rfl, hm⟩) fun blocked => .ite (fun _ => .throw fun _ hm => hm.2.2.holds)
        fun hfree => .bind (Triple.modifyFiber fun m hm => ?_) fun _ => .pure fun _ h => h
    obtain ⟨hblocked, htop, hm⟩ := hm
    exact hQ.yielded own returnTo isEntry items forced m hroute hm (by simpa [hblocked] using hfree) htop
  · rename_i hyield
    refine .pure fun m hm => hQ.after hroute hm.2 fun items forced htop => ?_
    exact hyield items forced (Option.some.inj (hm.1.symm.trans htop))

theorem pushFrame_sits (hroute : g.Route own frame.returnTo frame.isEntry)
    (hP : ∀ vs, P vs → frame.base ≤ vs.size ∧ ∃ floor, g.Ground own floor ∧ frame.Floor vs floor) :
    Triple (g.Sits own P) (pushFrame g.fiber frame) (fun _ => g.Sits (frame :: own) P)
      (fun _ => g.Holds) := by
  refine Triple.modifyFiber fun m hm => hm.withFiber (.stacks ..)
    (fun bottom hb => ?_) ⟨hroute, hm.routed⟩ fun _ hp hvs => ?_
  · rw [Fiber.calls_push, hb]
    rfl
  · obtain ⟨hbase, hfloor⟩ := hP _ hvs
    exact ⟨⟨⟨hfloor, hp.layered⟩, hbase, hp.kept, hp.savedIp⟩, hvs⟩

theorem leaveNative_ready {slot : Nat} {v : Value}
    (hP : ∀ vs, P vs → slot ≤ vs.size ∧ g.Ground own slot) : Triple (g.Sits (frame :: own) P)
      (modifyFiber g.fiber fun b =>
        { b with frames := b.frames.pop, values := (b.values.shrink slot).push v })
      (fun _ => g.Ready own 0) (fun _ => g.Holds) := by
  refine Triple.modifyFiber fun m hm => hm.withFiber (.stacks ..)
    (fun bottom hb => ?_) hm.routed.2 fun _ hp hvs => ?_
  · have hpop := Fiber.calls_pop (m.fiber g.fiber)
    rw [hb] at hpop
    exact hpop
  · obtain ⟨hslot, hground⟩ := hP _ hvs
    have hle := hground.level_le
    have hsize : (((m.fiber g.fiber).values.shrink slot).push v).size = slot + 1 := by
      rw [Array.size_push, Array.size_shrink]
      omega
    refine ⟨hp.tail.congr (fun i hi => ?_) (hle.trans ((Nat.le_succ slot).trans hsize.ge)) rfl, ?_⟩
    · rw [Array.getElem?_push, if_neg (by rw [Array.size_shrink]; omega), getElem?_shrink,
        if_pos (by omega)]
    · rw [Stacked, hsize]
      exact ⟨by omega, hground⟩

/-- The values when callee and arguments are known to be in place. -/
def Placed (g : Footing) (own : List Frame) (argc size : Nat) (values : Array Value) : Prop :=
  values.size = size ∧ g.Stacked own argc values

include hQ in
theorem enterScript_catches (hscript : frame.native = none)
    (hbase : frame.base = size - argc - 1 + argc + 2)
    (hroute : g.Route own frame.returnTo frame.isEntry) (ip : Nat) :
    Triple (g.Sits own (g.Placed own argc size)) (do
      push g.fiber (.ofNat argc)
      pushFrame g.fiber frame
      return .jump ip) Q (fun _ => g.Holds) := by
  refine Triple.bind (Q := fun _ => g.Sits own fun vs => vs.size = size + 1 ∧ argc + 1 ≤ size ∧
      g.Ground own (size - argc - 1) ∧ vs[size]? = some (.ofNat argc))
    (Triple.modifyFiber fun m hm =>
      hm.withValues (u := fun vs => vs.push (.ofNat argc)) fun vs _ hlevel hP => ?_) fun _ =>
    .bind (pushFrame_sits hroute fun vs hvs => ?_) fun _ => .pure fun m hm => ?_
  · obtain ⟨rfl, hsize, hground⟩ := hP
    refine ⟨fun i hi => ?_, ?_, ?_, hsize, hground, ?_⟩
    · rw [Array.getElem?_push, if_neg (by omega)]
    · rw [Array.size_push]
      omega
    · rw [Array.size_push]
    · rw [Array.getElem?_push_size]
  · obtain ⟨hsize, hargc, hground, hcount⟩ := hvs
    refine ⟨by omega, size - argc - 1, hground, ?_⟩
    rw [Frame.Floor, Frame.isNative, hscript, if_neg (by decide)]
    refine ⟨argc, hbase, ?_⟩
    rw [show size - argc - 1 + argc + 1 = size by omega]
    exact hcount
  · exact hQ.jump ip frame own m hscript (hm.mono fun _ _ => trivial)

include hQ in
theorem enterNative_catches (hE : Quiet E) {id : NativeId} (hnative : frame.native = some id)
    (hbase : frame.base = size - argc - 1) (hroute : g.Route own frame.returnTo frame.isEntry)
    (hcall : ∀ argc setup, g.Route own setup.returnTo setup.isEntry →
      Triple (g.Ready own argc) (call argc setup) Q (fun _ => g.Holds)) (request : Request)
    (handlers : Handlers) (location : Option Location) :
    Triple (g.Sits own (g.Placed own argc size)) (do
      pushFrame g.fiber frame
      let v ← E request
      let v ← applyContinuation E g.fiber handlers v location
      modifyFiber g.fiber fun b => { b with
        frames := b.frames.pop, values := (b.values.shrink (size - argc - 1)).push v }
      settle call g.fiber frame.returnTo frame.isEntry) Q (fun _ => g.Holds) := by
  have hplaced (vs : Array Value) (hvs : g.Placed own argc size vs) :
      size - argc - 1 ≤ vs.size ∧ g.Ground own (size - argc - 1) := by
    obtain ⟨rfl, hsize, hground⟩ := hvs
    exact ⟨by omega, hground⟩
  refine .bind (pushFrame_sits hroute fun vs hvs => ?_) fun _ => .bind (quiet (hE _)) fun v =>
    .bind (quiet (undisturbed_applyContinuation hE _ _ _ _)) fun v =>
    .bind (leaveNative_ready hplaced) fun _ => settle_catches hQ hcall hroute
  obtain ⟨hsize, hground⟩ := hplaced vs hvs
  refine ⟨hbase ▸ hsize, _, hground, ?_⟩
  rw [Frame.Floor, Frame.isNative, hnative]
  exact hbase

include hQ in
theorem performCall_catches (hE : Quiet E) (n : Nat)
    (hroute : g.Route own setup.returnTo setup.isEntry) (hlow : g.Low own) :
    Triple (g.Ready own argc) (performCall E g.fiber n argc setup) Q (fun _ => g.Holds) := by
  induction n generalizing own argc setup with
  | zero => exact stop
  | succ n ih =>
    refine .bind (resolveCallee_ready _ _) fun argc => .bind (replaceFrame_ready hroute hlow)
      fun setup => .exists_ fun own => .given fun hroute => .given fun hlow => .given fun _ => ?_
    refine .bind (quiet (.read _)) fun calledFrom => .bind (quiet (.read _)) fun _ =>
      .first stop fun _ => ?_
    refine Triple.bind (Q := fun size => g.Sits own (g.Placed own argc size))
      (.read fun m hm => { hm with piled := fun hv => ⟨(hm.piled hv).1, rfl, (hm.piled hv).2⟩ })
      fun size => .bind (quiet (.readFiber _ _)) fun callee => ?_
    split
    · exact .bind (quiet (.read _)) fun _ => enterScript_catches hQ rfl rfl hroute _
    · exact .bind (quiet (.readFiber _ _)) fun _ => enterNative_catches hQ hE rfl rfl hroute
        (fun _ _ hroute => ih hroute hlow) _ _ _
    · exact stop

theorem performCall_lands (hE : Quiet E) (n : Nat)
    (hroute : g.Route own setup.returnTo setup.isEntry) (hlow : g.Low own) :
    Triple (g.Ready own argc) (performCall E g.fiber n argc setup) g.Lands (fun _ => g.Holds) :=
  performCall_catches catches_lands hE n hroute hlow

end Calling

section Scenes

variable {frame : Frame} {bottom : List Frame} {k : Nat}

/-- An instruction on top of some frames. -/
def scene (g : Footing) (m : Machine) (frame : Frame) (outer : List Frame) : Scene :=
  ⟨g.fiber, m, frame, outer, True, g.valued⟩

theorem Sits.at_scene (h : g.Sits own P m) {outer : List Frame}
    (hcalls : (m.fiber g.fiber).calls = frame :: outer)
    (hk : g.valued → frame.base + k ≤ (m.fiber g.fiber).values.size) :
    (g.scene m frame outer).At k m where
  alone := .refl _ _
  sound := h.sound
  busy := h.busy
  calls _ := ⟨frame, hcalls, .refl frame⟩
  stands hv := ⟨fun _ _ => rfl, hk hv, rfl⟩

/-- In the middle of an instruction the pile is as before, up to the inside of the top frame. -/
theorem Sits.of_at (h : g.Sits (frame :: own) P m) (hbottom : g.Bottom bottom)
    (hat : (g.scene m frame (own ++ bottom)).At k m') :
    ∃ top, frame.Like top ∧ g.Sits (top :: own) (fun vs => top.base + k ≤ vs.size) m' := by
  obtain ⟨top, hcalls, hlike⟩ := hat.calls trivial
  change frame.Like top at hlike
  refine ⟨top, hlike, h.alone.trans hat.alone, hat.sound, hat.busy, ⟨bottom, hbottom, hcalls⟩, ?_,
    fun hv => ?_⟩
  · have hrouted := h.routed
    rw [Routed, ← hlike.returnTo, ← hlike.isEntry] at hrouted
    exact hrouted
  · have hp := (h.piled hv).1
    have hstands := hat.stands hv
    have hbase := hlike.base
    obtain ⟨floor, hground, hfloor⟩ := hp.layered.1
    have hle : g.level own ≤ frame.base := hground.level_le.trans (Floor.le_base hfloor)
    have hheight : frame.base + k ≤ (m'.fiber g.fiber).values.size := hstands.height
    refine ⟨⟨⟨⟨floor, hground, Floor.like (Floor.congr hfloor hstands.below) hlike⟩,
      hp.layered.2.congr fun i hi => hstands.below i (hi.trans_le hle)⟩, ?_, fun i hi => ?_,
      hstands.savedIp.trans hp.savedIp⟩, ?_⟩
    · change top.base ≤ _
      omega
    · exact (hstands.below i (hi.trans_le (hp.tail.layered.height_le.trans hle))).trans (hp.kept i hi)
    · rw [hbase]
      exact hheight

theorem Low.like {top : Frame} (h : g.Low (frame :: own)) (hlike : frame.Like top) :
    g.Low (top :: own) := by
  intro hv fr hfr
  rcases List.mem_cons.1 hfr with rfl | hmem
  · rw [hlike.base]
    exact h hv frame List.mem_cons_self
  · exact h hv fr (List.mem_cons_of_mem _ hmem)

/-- How instructions end, by how calls and returns do. -/
def FlowsTo (g : Footing) (Q : Resumption → Machine → Prop) : Flow → Machine → Prop
  | .next, m => ∃ frame own, frame.native = none ∧ g.Sits (frame :: own) (fun _ => True) m
  | .transfer r, m => Q r m

abbrev Flows (g : Footing) : Flow → Machine → Prop := g.FlowsTo g.Lands

variable {Q : Resumption → Machine → Prop} (hQ : g.Catches Q)
include hQ

theorem exits_scene (hE : Quiet E) (fuel : Nat) (h : g.Sits (frame :: own) P m)
    (hbottom : g.Bottom bottom) (hscript : frame.native = none) (hlow : g.Low (frame :: own)) :
    (g.scene m frame (own ++ bottom)).Exits E fuel (g.FlowsTo Q) (fun _ => g.Holds) := by
  have hopen (m' : Machine) (hat : (g.scene m frame (own ++ bottom)).At 0 m') :
      ∃ frame own, frame.native = none ∧ g.Sits (frame :: own) (fun _ => True) m' := by
    obtain ⟨top, hlike, hsits⟩ := h.of_at hbottom hat
    exact ⟨top, own, hlike.native.trans hscript, hsits.mono fun _ _ => trivial⟩
  refine ⟨hopen, fun ip m' hat => ?_, fun _ m' hat => ?_, fun argc setup hto hentry => ?_⟩
  · obtain ⟨top, own, hscript, hsits⟩ := hopen m' hat
    exact hQ.jump ip top own m' hscript hsits
  · obtain ⟨_, _, -, hsits⟩ := hopen m' hat
    exact hsits.holds
  · intro m' hat
    obtain ⟨top, hlike, hsits⟩ := h.of_at hbottom hat
    have hroute : g.Route (top :: own) setup.returnTo setup.isEntry :=
      ⟨hto, hentry, hlike.native.trans hscript⟩
    refine performCall_catches hQ hE fuel hroute (hlow.like hlike) m'
      (hsits.mono fun vs hvs => ⟨by omega, ?_⟩)
    change top.base ≤ _
    omega

theorem leaveFrame_catches (hE : Quiet E) (fuel ip : Nat) (v : Value) (hscript : frame.native = none)
    (hlow : g.Low (frame :: own)) :
    Triple (g.Sits (frame :: own) P) (do
      let frame ← popFrame g.fiber
      popArguments g.fiber
      let location ← read fun m => m.code.locationAt ip
      push g.fiber v
      if frame.handlers.continuation.isSome then
        let v ← applyContinuation E g.fiber frame.handlers (← pop g.fiber) location
        push g.fiber v
      settle (performCall E g.fiber fuel) g.fiber frame.returnTo frame.isEntry)
      Q (fun _ => g.Holds) := by
  refine .bind popFrame_left fun popped => .given fun hpopped => ?_
  obtain ⟨rfl, hroute⟩ := hpopped
  have hsettle := settle_catches hQ
    (fun _ _ hroute => performCall_catches hQ hE fuel hroute hlow.tail) hroute
  refine .bind (popArguments_left hscript hlow.head) fun _ => .bind (quiet (.read _)) fun _ =>
    .bind (push_grounded v) fun _ => .ite (fun _ => ?_) fun _ => hsettle
  exact .bind pop_ready fun _ => .bind (quiet (undisturbed_applyContinuation hE _ _ _ _)) fun _ =>
    .bind (push_grounded _) fun _ => hsettle

theorem performReturn_catches (hE : Quiet E) (fuel ip : Nat) (i : Instruction)
    (h : g.Sits (frame :: own) P m) (hbottom : g.Bottom bottom) (hscript : frame.native = none)
    (hlow : g.Low (frame :: own)) :
    Triple ((g.scene m frame (own ++ bottom)).At (if i.number = 1 then 1 else 0))
      (performReturn E g.fiber fuel i ip) Q (fun _ => g.Holds) := by
  have hx := exits_scene hQ hE fuel h hbottom hscript hlow
  have hleave (v : Value) := fun m' (hat : (g.scene m frame (own ++ bottom)).At 0 m') =>
    have ⟨top, hlike, hsits⟩ := h.of_at hbottom hat
    leaveFrame_catches hQ hE fuel ip v (hlike.native.trans hscript) (hlow.like hlike) m' hsits
  refine hx.bind (Scene.uses_closeBlocks hE _ _) fun _ => ?_
  by_cases hzero : i.number = 0
  · simp only [hzero, if_true]
    exact .bind (.pure fun m hm => hm) hleave
  · by_cases hone : i.number = 1
    · simp only [if_neg hzero, if_pos hone]
      exact hx.bind Scene.uses_pop hleave
    · simp only [if_neg hzero, if_neg hone]
      exact hx.bind (.internal _) hleave

end Scenes

end Footing

end ScriptMachine
