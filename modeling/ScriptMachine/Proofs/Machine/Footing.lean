import ScriptMachine.Proofs.Machine.Instructions
import ScriptMachine.Proofs.Number.Integers

namespace ScriptMachine

theorem Exec.countOf_ofNat {n : Nat} (h : n < 2 ^ 53) : countOf (.ofNat n) = n := by
  have hint := Number.toInt?_ofNat h.le
  unfold Number.toInt? at hint
  unfold countOf
  cases hb : (Number.ofNat n).binary? with
  | none => simp [hb] at hint
  | some b =>
    simp only [hb, Option.bind_some, Number.Binary.toInt?, Option.ite_none_right_eq_some,
      Option.some.injEq, Number.Binary.signed] at hint
    obtain ⟨-, hsigned⟩ := hint
    dsimp only
    split at hsigned <;> simp_all

/-- Where a frame and what was put on the stack for it begin. -/
def Frame.Floor (frame : Frame) (values : Array Value) (floor : Nat) : Prop :=
  if frame.isNative then frame.base = floor
  else ∃ argc, frame.base = floor + argc + 2 ∧ values[floor + argc + 1]? = some (.ofNat argc)

/-- The ground that a part of a run stands on: frames and values of a flow that were there before
it. Frames of its own pile up on them; the values are only looked at if they are told to be. -/
structure Footing where
  fiber : FiberId
  start : Machine
  /-- What the frames below may look like. -/
  Bottom : List Frame → Prop
  /-- Where the lowest frame of its own returns to, and whether that leaves the loop. -/
  Returns : Option Nat → Bool → Prop
  /-- Frames below are not replaced by calls that they make. -/
  solid : ∀ bottom ip isEntry, Bottom bottom → Returns (some ip) isEntry →
    (bottom.head?.all fun frame => !frame.handlers.isEmpty) ∨
      (start.code.get? ip).all fun i => !(i.op == .ret && i.number == 1)
  height : Nat
  valued : Prop

namespace Footing

variable (g : Footing)

/-- Where a call on top of some frames returns to: to the topmost one, if there is any. -/
def Route : List Frame → Option Nat → Bool → Prop
  | [], returnTo, isEntry => g.Returns returnTo isEntry
  | caller :: _, returnTo, isEntry => returnTo.isSome ∧ isEntry = false ∧ caller.native = none

def Routed : List Frame → Prop
  | [] => True
  | frame :: own => g.Route own frame.returnTo frame.isEntry ∧ Routed own

/-- Whether instructions run on top of some frames. -/
def Open : List Frame → Prop
  | [] => ∃ ip isEntry, g.Returns (some ip) isEntry
  | frame :: _ => frame.native = none

/-- Where values may go on top of some frames. -/
def level : List Frame → Nat
  | [] => g.height
  | frame :: _ => frame.base

/-- Whether a call on top of some frames may begin at a height. On the bare ground there is only
one place. -/
def Ground : List Frame → Nat → Prop
  | [], h => h = g.height
  | frame :: _, h => frame.base ≤ h

/-- Each frame begins where the frame below allows it. -/
def Layered (values : Array Value) : List Frame → Prop
  | [] => True
  | frame :: own => (∃ floor, g.Ground own floor ∧ frame.Floor values floor) ∧ Layered values own

/-- The values of a flow under a pile of frames. -/
structure Piled (own : List Frame) (b : Fiber) : Prop where
  layered : g.Layered b.values own
  level : g.level own ≤ b.values.size
  kept : ∀ i < g.height, b.values[i]? = (g.start.fiber g.fiber).values[i]?
  savedIp : b.savedIp = (g.start.fiber g.fiber).savedIp

/-- A flow with a pile of frames on its footing. -/
structure Sits (own : List Frame) (P : Array Value → Prop) (m : Machine) : Prop where
  alone : Alone g.fiber g.start m
  sound : Sound m
  busy : Busy m g.fiber
  calls : ∃ bottom, g.Bottom bottom ∧ (m.fiber g.fiber).calls = own ++ bottom
  routed : g.Routed own
  piled : g.valued → g.Piled own (m.fiber g.fiber) ∧ P (m.fiber g.fiber).values

/-- Callee and arguments of a call on top of some frames. -/
def Stacked (own : List Frame) (argc : Nat) (values : Array Value) : Prop :=
  argc + 1 ≤ values.size ∧ g.Ground own (values.size - argc - 1)

/-- A flow that is ready for a call. If there are no arguments, it may also be that the value on
top is the result of one. -/
abbrev Ready (own : List Frame) (argc : Nat) : Machine → Prop := g.Sits own (g.Stacked own argc)

def Lands : Resumption → Machine → Prop
  | .jump _, m => ∃ own, g.Open own ∧ g.Sits own (fun _ => True) m
  | .done, m => (∃ isEntry, g.Returns none isEntry) ∧ g.Ready [] 0 m
  | .yielded, m => (m.fiber g.fiber).canYield = true ∧ Alone g.fiber g.start m ∧
    ∃ items forced, (m.fiber g.fiber).values.back? = some (.yieldRequest items forced)

def Holds (m : Machine) : Prop := ∃ own, g.Sits own (fun _ => True) m

/-- Frames that are low enough for the counts below them to be exact. -/
def Low (own : List Frame) : Prop := g.valued → ∀ frame ∈ own, frame.base < 2 ^ 53

section Layers

variable {g} {own : List Frame} {frame top : Frame} {values values' : Array Value} {h floor : Nat}

theorem Ground.level_le (hg : g.Ground own h) : g.level own ≤ h := by
  cases own with
  | nil => exact hg.ge
  | cons caller own => exact hg

theorem Floor.le_base (hf : frame.Floor values floor) : floor ≤ frame.base := by
  unfold Frame.Floor at hf
  split at hf
  · exact hf.ge
  · obtain ⟨argc, hbase, -⟩ := hf
    omega

theorem Floor.congr (hf : frame.Floor values floor)
    (hv : ∀ i < frame.base, values'[i]? = values[i]?) : frame.Floor values' floor := by
  unfold Frame.Floor at hf ⊢
  split at hf
  · rw [if_pos ‹_›]
    exact hf
  · obtain ⟨argc, hbase, hcount⟩ := hf
    rw [if_neg ‹_›]
    exact ⟨argc, hbase, (hv _ (by omega)).trans hcount⟩

theorem Floor.like (hf : frame.Floor values floor) (hlike : frame.Like top) :
    top.Floor values floor := by
  have hnative : top.isNative = frame.isNative := by simp only [Frame.isNative, hlike.native]
  rw [Frame.Floor, hnative, hlike.base]
  exact hf

theorem Layered.height_le (hl : g.Layered values own) : g.height ≤ g.level own := by
  induction own with
  | nil => exact le_rfl
  | cons frame own ih =>
    obtain ⟨⟨floor, hground, hfloor⟩, hrest⟩ := hl
    exact (ih hrest).trans (hground.level_le.trans (Floor.le_base hfloor))

theorem Layered.base_le (hl : g.Layered values own) : ∀ frame ∈ own, frame.base ≤ g.level own := by
  induction own with
  | nil => simp
  | cons top own ih =>
    obtain ⟨⟨floor, hground, hfloor⟩, hrest⟩ := hl
    intro frame hframe
    rcases List.mem_cons.1 hframe with rfl | hmem
    · exact le_rfl
    · exact (ih hrest frame hmem).trans (hground.level_le.trans (Floor.le_base hfloor))

theorem Layered.congr (hl : g.Layered values own)
    (hv : ∀ i < g.level own, values'[i]? = values[i]?) : g.Layered values' own := by
  induction own with
  | nil => trivial
  | cons frame own ih =>
    obtain ⟨⟨floor, hground, hfloor⟩, hrest⟩ := hl
    have hle : g.level own ≤ frame.base := hground.level_le.trans (Floor.le_base hfloor)
    exact ⟨⟨floor, hground, Floor.congr hfloor hv⟩, ih hrest fun i hi => hv i (hi.trans_le hle)⟩

theorem Piled.congr {b b' : Fiber} (hp : g.Piled own b)
    (hv : ∀ i < g.level own, b'.values[i]? = b.values[i]?)
    (hsize : g.level own ≤ b'.values.size) (hs : b'.savedIp = b.savedIp) : g.Piled own b' where
  layered := hp.layered.congr hv
  level := hsize
  kept i hi := (hv i (hi.trans_le hp.layered.height_le)).trans (hp.kept i hi)
  savedIp := hs.trans hp.savedIp

theorem Piled.tail {b : Fiber} (hp : g.Piled (frame :: own) b) : g.Piled own b := by
  obtain ⟨⟨floor, hground, hfloor⟩, hrest⟩ := hp.layered
  exact ⟨hrest, (hground.level_le.trans (Floor.le_base hfloor)).trans hp.level, hp.kept,
    hp.savedIp⟩

end Layers

section Sitting

open Exec

variable {g} {own own' : List Frame} {P P' : Array Value → Prop} {m m' : Machine} {α : Type}
  {argc : Nat}

theorem Sits.mono (h : g.Sits own P m) (hP : ∀ values, P values → P' values) : g.Sits own P' m :=
  { h with piled := fun hv => ⟨(h.piled hv).1, hP _ (h.piled hv).2⟩ }

theorem Sits.holds (h : g.Sits own P m) : g.Holds m := ⟨own, h.mono fun _ _ => trivial⟩

theorem Sits.undisturbed (h : g.Sits own P m) (hm : Undisturbed m m') : g.Sits own P m' := by
  have halone := Alone.of_undisturbed hm h.sound h.busy
  have hsame := (hm h.sound).fiber _ trivial h.busy
  exact ⟨h.alone.trans halone, halone.sound h.sound, halone.busy h.busy, hsame ▸ h.calls,
    h.routed, hsame ▸ h.piled⟩

theorem quiet {x : Exec α} (hx : Preserves Undisturbed x) :
    Triple (g.Sits own P) x (fun _ => g.Sits own P) (fun _ => g.Holds) :=
  .of_state (fun m hm _ => hm.undisturbed (hx m)) fun m hm _ => (hm.undisturbed (hx m)).holds

theorem stop {s : Stop} {Q : α → Machine → Prop} :
    Triple (g.Sits own P) (throw s : Exec α) Q (fun _ => g.Holds) :=
  .throw fun _ hm => hm.holds

theorem Sits.withFiber (h : g.Sits own P m) {u : Fiber → Fiber}
    (role : SameRole (m.fiber g.fiber) (u (m.fiber g.fiber)))
    (calls : ∀ bottom, (m.fiber g.fiber).calls = own ++ bottom →
      (u (m.fiber g.fiber)).calls = own' ++ bottom)
    (routed : g.Routed own')
    (piled : g.valued → g.Piled own (m.fiber g.fiber) → P (m.fiber g.fiber).values →
      g.Piled own' (u (m.fiber g.fiber)) ∧ P' (u (m.fiber g.fiber)).values) :
    g.Sits own' P' (m.withFiber g.fiber u) := by
  have halone := Alone.withFiber h.busy.1 role
  have hself := Machine.fiber_withFiber_self (g := u) h.busy.1
  obtain ⟨bottom, hbottom, hcalls⟩ := h.calls
  refine ⟨h.alone.trans halone, halone.sound h.sound, halone.busy h.busy, ?_, routed, ?_⟩
  · rw [hself]
    exact ⟨bottom, hbottom, calls bottom hcalls⟩
  · rw [hself]
    exact fun hv => piled hv (h.piled hv).1 (h.piled hv).2

theorem Sits.withValues (h : g.Sits own P m) {u : Array Value → Array Value}
    (hu : ∀ vs, g.valued → g.level own ≤ vs.size → P vs →
      (∀ i < g.level own, (u vs)[i]? = vs[i]?) ∧ g.level own ≤ (u vs).size ∧ P' (u vs)) :
    g.Sits own P' (m.withFiber g.fiber fun b => { b with values := u b.values }) := by
  refine h.withFiber (.stacks ..) (fun _ h => h) h.routed fun hv hp hP => ?_
  obtain ⟨hbelow, hsize, hP'⟩ := hu _ hv hp.level hP
  exact ⟨hp.congr hbelow hsize rfl, hP'⟩

theorem pushAll_ready (arguments : List Value) : Triple (g.Ready own argc)
    (pushAll g.fiber arguments) (fun _ => g.Ready own (argc + arguments.length))
    (fun _ => g.Holds) := by
  refine Triple.modifyFiber fun m hm =>
    hm.withValues (u := fun vs => vs.appendList arguments) fun vs _ hlevel hP => ?_
  obtain ⟨hsize, hground⟩ := hP
  refine ⟨fun i hi => ?_, ?_, ?_⟩
  · rw [getElem?_appendList, if_pos (by omega)]
  · rw [size_appendList]
    omega
  · rw [Stacked, size_appendList,
      show vs.size + arguments.length - (argc + arguments.length) - 1 = vs.size - argc - 1 by omega]
    exact ⟨by omega, hground⟩

theorem push_grounded (v : Value) : Triple (g.Sits own fun vs => g.Ground own vs.size)
    (push g.fiber v) (fun _ => g.Ready own 0) (fun _ => g.Holds) := by
  refine Triple.modifyFiber fun m hm =>
    hm.withValues (u := fun vs => vs.push v) fun vs _ hlevel hground => ?_
  refine ⟨fun i hi => ?_, ?_, ?_⟩
  · rw [Array.getElem?_push, if_neg (by omega)]
  · rw [Array.size_push]
    omega
  · rw [Stacked, Array.size_push]
    exact ⟨by omega, hground⟩

theorem pop_ready : Triple (g.Ready own 0) (pop g.fiber)
    (fun _ => g.Sits own fun vs => g.Ground own vs.size) (fun _ => g.Holds) := by
  refine .bind (quiet (.readFiber _ _)) fun v? => ?_
  cases v? with
  | none => exact stop
  | some v =>
    refine .bind (Triple.modifyFiber fun m hm =>
      hm.withValues (u := Array.pop) fun vs _ hlevel hP => ?_) fun _ => .pure fun _ h => h
    obtain ⟨hsize, hground⟩ := hP
    have hle := hground.level_le
    refine ⟨fun i hi => ?_, ?_, ?_⟩
    · rw [Array.getElem?_pop, if_pos (by omega)]
    · rw [Array.size_pop]
      omega
    · rw [Array.size_pop]
      exact hground

/-- The values under a frame that has just been left. -/
def Left (g : Footing) (own : List Frame) (frame : Frame) (values : Array Value) : Prop :=
  values.size = frame.base ∧ ∃ floor, g.Ground own floor ∧ frame.Floor values floor

theorem popFrame_left {frame : Frame} : Triple (g.Sits (frame :: own) P) (popFrame g.fiber)
    (fun popped m => (popped = frame ∧ g.Route own frame.returnTo frame.isEntry) ∧
      g.Sits own (g.Left own frame) m) (fun _ => g.Holds) := by
  intro m hm
  obtain ⟨bottom, hbottom, hcalls⟩ := hm.calls
  rw [popFrame, bind_ok (topFrame_apply hcalls), bind_ok (modifyFiber_apply _ _ _)]
  refine ⟨⟨rfl, hm.routed.1⟩, hm.withFiber (.stacks ..) (fun bottom hb => ?_)
    hm.routed.2 fun _ hp _ => ?_⟩
  · have hpop := Fiber.calls_pop (m.fiber g.fiber)
    rw [hb] at hpop
    exact hpop
  · obtain ⟨floor, hground, hfloor⟩ := hp.layered.1
    have hlevel : frame.base ≤ (m.fiber g.fiber).values.size := hp.level
    have hle : g.level own ≤ frame.base := hground.level_le.trans (Floor.le_base hfloor)
    have hsize : ((m.fiber g.fiber).values.shrink frame.base).size = frame.base := by
      rw [Array.size_shrink]
      omega
    have hsame (i : Nat) (hi : i < frame.base) :
        ((m.fiber g.fiber).values.shrink frame.base)[i]? = (m.fiber g.fiber).values[i]? := by
      rw [getElem?_shrink, if_pos hi]
    exact ⟨hp.tail.congr (fun i hi => hsame i (hi.trans_le hle)) (hle.trans hsize.ge) rfl,
      hsize, floor, hground, Floor.congr hfloor hsame⟩

/-- The argument count of a frame that has just been left, once it is off the stack. -/
def Counted (g : Footing) (own : List Frame) (count : Value) (values : Array Value) : Prop :=
  ∃ argc floor, count = .ofNat argc ∧ argc < 2 ^ 53 ∧ g.Ground own floor ∧
    values.size = floor + argc + 1

theorem pop_left {frame : Frame} (hscript : frame.native = none) (hlow : g.Low [frame]) :
    Triple (g.Sits own (g.Left own frame)) (pop g.fiber)
      (fun v => g.Sits own (g.Counted own v)) (fun _ => g.Holds) := by
  refine Triple.bind (Q := fun v? => g.Sits own fun vs => g.Left own frame vs ∧ vs.back? = v?)
    (.read fun m hm => { hm with piled := fun hv => ⟨(hm.piled hv).1, (hm.piled hv).2, rfl⟩ })
    fun v? => ?_
  cases v? with
  | none => exact stop
  | some v =>
    refine .bind (Triple.modifyFiber (Q := fun _ => g.Sits own (g.Counted own v)) fun m hm =>
      hm.withValues (u := Array.pop) fun vs hv hlevel hP => ?_) fun _ => .pure fun _ h => h
    obtain ⟨⟨hsize, floor, hground, hfloor⟩, hback⟩ := hP
    rw [Frame.Floor, Frame.isNative, hscript, if_neg (by decide)] at hfloor
    obtain ⟨argc, hbase, hcount⟩ := hfloor
    have hsmall := hlow hv frame List.mem_cons_self
    have hle := hground.level_le
    have hv : v = .ofNat argc := by
      rw [Array.back?_eq_getElem?, show vs.size - 1 = floor + argc + 1 by omega, hcount] at hback
      exact (Option.some.inj hback).symm
    refine ⟨fun i hi => ?_, ?_, argc, floor, hv, by omega, hground, ?_⟩
    · rw [Array.getElem?_pop, if_pos (by omega)]
    · rw [Array.size_pop]
      omega
    · rw [Array.size_pop]
      omega

theorem drop_counted (x : Number) :
    Triple (g.Sits own (g.Counted own (.number x))) (drop g.fiber (countOf x + 1))
      (fun _ => g.Sits own fun vs => g.Ground own vs.size) (fun _ => g.Holds) := by
  intro m hm
  by_cases hsize : (m.fiber g.fiber).values.size < countOf x + 1
  · rw [drop_eq, if_pos hsize]
    exact hm.holds
  · rw [drop_eq, if_neg hsize]
    refine hm.withFiber (.stacks ..) (fun _ h => h) hm.routed fun _ hp hP => ?_
    obtain ⟨argc, floor, hx, hargc, hground, hvalues⟩ := hP
    have hcount : countOf x = argc := by rw [Value.number.inj hx, countOf_ofNat hargc]
    have hle := hground.level_le
    have hshrink : ((m.fiber g.fiber).values.shrink
        ((m.fiber g.fiber).values.size - (countOf x + 1))).size = floor := by
      rw [Array.size_shrink]
      omega
    refine ⟨hp.congr (fun i hi => ?_) (hle.trans hshrink.ge) rfl, hshrink.symm ▸ hground⟩
    rw [getElem?_shrink, if_pos (by omega)]

theorem popArguments_left {frame : Frame} (hscript : frame.native = none) (hlow : g.Low [frame]) :
    Triple (g.Sits own (g.Left own frame)) (popArguments g.fiber)
      (fun _ => g.Sits own fun vs => g.Ground own vs.size) (fun _ => g.Holds) := by
  refine .bind (pop_left hscript hlow) fun v => ?_
  cases v with
  | number x => exact .ite (fun _ => .ite (fun _ => drop_counted x) fun _ => stop) fun _ => stop
  | _ => exact stop

end Sitting

end Footing

end ScriptMachine
