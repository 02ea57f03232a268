import ScriptMachine.Proofs.Machine.Catching
import ScriptMachine.Proofs.Machine.Depth
import ScriptMachine.Proofs.Machine.ProtectedCalls
import ScriptMachine.Proofs.Machine.TailCalls
import ScriptMachine.Proofs.Machine.Uncaught

namespace ScriptMachine

open Exec Machine Footing

def Frame.isPlain (frame : Frame) : Bool := frame.handlers.isEmpty && !frame.hasClosers

def Fiber.isPlain (b : Fiber) : Bool := b.calls.all Frame.isPlain

section Unwinding

variable {f : FiberId} {m : Machine} {frame : Frame} {outer : List Frame}

theorem Fiber.isPlain_cons {b : Fiber} (h : b.calls = frame :: outer) :
    b.isPlain ↔ frame.isPlain ∧ outer.all Frame.isPlain := by
  rw [isPlain, h, List.all_cons, Bool.and_eq_true]

theorem isPlain_withTop (h : (m.fiber f).calls = frame :: outer) (hm : (m.fiber f).isPlain)
    {g : Frame → Frame} (hg : (g frame).isPlain) :
    ((modifyFrame f g m).2.fiber f).isPlain := by
  have hcalls : ((modifyFrame f g m).2.fiber f).calls = g frame :: outer := by
    have hself : (modifyFrame f g m).2.fiber f = { m.fiber f with
        frames := (m.fiber f).frames.modify ((m.fiber f).frames.size - 1) g } :=
      fiber_withFiber_self (index_lt_of_calls h)
    rw [hself, Fiber.calls_modify h]
  exact (Fiber.isPlain_cons hcalls).2 ⟨hg, ((Fiber.isPlain_cons h).1 hm).2⟩

variable (E E' : Engine)

theorem closeBlock_plain (hm : (m.fiber f).isPlain) (error : Value) (n : Nat) :
    closeBlock E' f error n m = closeBlock E f error n m ∧
      ((closeBlock E f error n m).2.fiber f).isPlain := by
  cases n with
  | zero => exact ⟨rfl, hm⟩
  | succ n =>
    unfold closeBlock
    cases hcalls : (m.fiber f).calls with
    | nil =>
      obtain ⟨message, htop⟩ := topFrame_nil hcalls
      rw [bind_error htop, bind_error htop]
      exact ⟨rfl, hm⟩
    | cons frame outer =>
      have hframe := ((Fiber.isPlain_cons hcalls).1 hm).1
      rw [bind_ok (topFrame_apply hcalls), bind_ok (topFrame_apply hcalls)]
      rcases hblocks : frame.blocks with _ | ⟨_ | ⟨s, rest⟩, blocks⟩
      · exact ⟨rfl, hm⟩
      · refine ⟨rfl, isPlain_withTop hcalls hm ?_⟩
        simpa [Frame.isPlain, Frame.hasClosers, hblocks] using hframe
      · simp [Frame.isPlain, Frame.hasClosers, hblocks] at hframe

theorem closeBlocks_plain (hm : (m.fiber f).isPlain) (error : Value) (n : Nat) :
    closeBlocks E' f error n m = closeBlocks E f error n m ∧
      ((closeBlocks E f error n m).2.fiber f).isPlain := by
  induction n generalizing m with
  | zero => exact ⟨rfl, hm⟩
  | succ n ih =>
    unfold closeBlocks
    cases hcalls : (m.fiber f).calls with
    | nil =>
      obtain ⟨message, htop⟩ := topFrame_nil hcalls
      rw [bind_error htop, bind_error htop]
      exact ⟨rfl, hm⟩
    | cons frame outer =>
      rw [bind_ok (topFrame_apply hcalls), bind_ok (topFrame_apply hcalls)]
      split
      · exact ⟨rfl, hm⟩
      · obtain ⟨hsame, hplain⟩ := closeBlock_plain E E' hm error n
        rw [bind_apply, bind_apply, hsame]
        rcases hclose : closeBlock E f error n m with ⟨s | _, m'⟩ <;> rw [hclose] at hplain
        · exact ⟨rfl, hplain⟩
        · exact ih hplain

theorem afterClosing_uncaught {n : Nat} (hm : (m.fiber f).isPlain) (e : RuntimeError)
    (hrest : ∀ {m : Machine}, (m.fiber f).isPlain → ∀ e, unwindFrames E' f n e m =
      unwindFrames E f n e m ∧ ∃ s, (unwindFrames E f n e m).1 = .error s) (r : Except Stop Unit) :
    afterClosing E' f 0 n e r m = afterClosing E f 0 n e r m ∧
      ∃ s, (afterClosing E f 0 n e r m).1 = .error s := by
  rcases r with ((raised | _) | _) | _
  case error.fault.runtime =>
    have hreplace (E : Engine) : replaceError E f 0 (some e) raised m = (.ok (raised.decorate none),
        (replaceError E f 0 (some e) raised m).2) := rfl
    have hsame : (replaceError E' f 0 (some e) raised m).2 = (replaceError E f 0 (some e) raised m).2 :=
      rfl
    rw [afterClosing, afterClosing, bind_ok (hreplace E'), bind_ok (hreplace E), hsame]
    exact hrest (m := (replaceError E f 0 (some e) raised m).2) hm _
  case ok =>
    change leaveFrame E' f n e m = leaveFrame E f n e m ∧ ∃ s, (leaveFrame E f n e m).1 = .error s
    cases hcalls : (m.fiber f).calls with
    | nil =>
      obtain ⟨message, htop⟩ := topFrame_nil hcalls
      have hpop : popFrame f m = (.error (.fault (.internal message)), m) := by
        rw [popFrame, bind_error htop]
      rw [leaveFrame, leaveFrame, bind_error hpop, bind_error hpop]
      exact ⟨rfl, _, rfl⟩
    | cons frame outer =>
      obtain ⟨hframe, houter⟩ := (Fiber.isPlain_cons hcalls).1 hm
      have hnone : frame.handlers.onError = none := by
        simp only [Frame.isPlain, Handlers.isEmpty, Bool.and_eq_true, Option.isNone_iff_eq_none]
          at hframe
        exact hframe.1.1.2
      have hpopped : ((m.dropFrame f frame).fiber f).calls = outer := by
        have hself : (m.dropFrame f frame).fiber f = { m.fiber f with
            frames := (m.fiber f).frames.pop, values := (m.fiber f).values.shrink frame.base } :=
          fiber_withFiber_self (index_lt_of_calls hcalls)
        rw [hself]
        exact (Fiber.calls_pop _).trans (congrArg List.tail hcalls)
      rw [leaveFrame_plain hcalls hnone, leaveFrame_plain hcalls hnone]
      split
      · exact ⟨rfl, _, rfl⟩
      · refine hrest ?_ e
        rw [Fiber.isPlain, hpopped]
        exact houter
  all_goals exact ⟨rfl, _, rfl⟩

/-- An error that no call under way can catch ends them all, without asking for anything. -/
theorem unwindFrames_uncaught (hm : (m.fiber f).isPlain) (n : Nat) (e : RuntimeError) :
    unwindFrames E' f n e m = unwindFrames E f n e m ∧ ∃ s, (unwindFrames E f n e m).1 = .error s := by
  induction n generalizing m e with
  | zero => exact ⟨rfl, _, rfl⟩
  | succ n ih =>
    cases hcalls : (m.fiber f).calls with
    | nil =>
      have hfail (E : Engine) : unwindFrames E f (n + 1) e m = (.error (.fault (.runtime e)), m) := by
        have hempty : (m.fiber f).frames.isEmpty = true := by simpa [Fiber.calls] using hcalls
        have hread : readFiber f (fun b => b.frames.isEmpty) m = (.ok true, m) := by
          rw [readFiber_apply, hempty]
        have hthrow : (fail (.runtime e) : Exec PUnit) m = (.error (.fault (.runtime e)), m) := rfl
        rw [unwindFrames, bind_ok hread, if_pos rfl, bind_error hthrow]
      rw [hfail, hfail]
      exact ⟨rfl, _, rfl⟩
    | cons frame outer =>
      obtain ⟨hsame, hplain⟩ := closeBlocks_plain E E' hm e.toValue n
      rcases hclose : closeBlocks E f e.toValue n m with ⟨r, m'⟩
      rw [hclose] at hsame hplain
      rw [unwindFrames_apply hcalls 0, unwindFrames_apply hcalls 0, bind_ok (attempt_apply hclose),
        bind_ok (attempt_apply hsame)]
      exact afterClosing_uncaught E E' hplain e ih r

theorem messageHandlers_plain {b : Fiber} (hb : b.isPlain) : messageHandlers b = [] := by
  rw [messageHandlers, List.filterMap_eq_nil_iff]
  intro frame hframe
  have hplain := List.all_eq_true.1 hb frame hframe
  simp only [Frame.isPlain, Handlers.isEmpty, Bool.and_eq_true, Option.isNone_iff_eq_none] at hplain
  exact hplain.1.2

theorem recover_plain (hm : (m.fiber f).isPlain) (n : Nat) (e : RuntimeError) (ip : Nat) :
    recover E' f n e ip m = recover E f n e ip m ∧ ∃ s, (recover E f n e ip m).1 = .error s := by
  have hunwind : unwind E' f n e ip m = unwind E f n e ip m ∧ ∃ s, (unwind E f n e ip m).1 = .error s := by
    have hread : read (fun m => m.code.locationAt ip) m = (.ok (m.code.locationAt ip), m) := rfl
    obtain ⟨_, debug, events, hreport, -⟩ :=
      observes_reportError f (e.decorate (m.code.locationAt ip)) ip m
    unfold unwind
    rw [bind_ok hread, bind_ok hread, bind_ok hreport, bind_ok hreport, bind_ok (readFiber_apply _ _ _),
      bind_ok (readFiber_apply _ _ _)]
    have hnone : messageHandlers (({ m with debug, events := m.events ++ events } : Machine).fiber f) = [] :=
      messageHandlers_plain hm
    rw [hnone]
    exact unwindFrames_uncaught E E' (m := { m with debug, events := m.events ++ events }) hm n _
  obtain ⟨hsame, s, hs⟩ := hunwind
  have hrun : unwind E f n e ip m = (.error s, (unwind E f n e ip m).2) := Prod.ext hs rfl
  unfold recover
  rw [bind_error (hsame.trans hrun), bind_error hrun]
  exact ⟨rfl, s, rfl⟩

end Unwinding

/-- Engines that give the same answers as long as a flow has at most so many calls under way. -/
def SameUpTo (f : FiberId) (depth : Nat) (E E' : Engine) : Prop :=
  ∀ request m, (m.fiber f).calls.length ≤ depth → E' request m = E request m

/-- No request is answered with a request. -/
def Unasking (E : Engine) : Prop :=
  ∀ request m v m', E request m = (.ok v, m') → v.isRequest = false

/-- What a call does before it looks at how deep the stack is. -/
def Exec.approach (f : FiberId) (argc : Nat) (setup : CallSetup) : Exec (Nat × CallSetup) := do
  let argc ← resolveCallee f setup.name maxCallChain argc
  let setup ← replaceFrame f argc setup
  return (argc, setup)

theorem performCall_approach (E : Engine) (f : FiberId) (n argc : Nat) (setup : CallSetup) :
    performCall E f (n + 1) argc setup = (do
      let (argc, setup) ← approach f argc setup
      enterCallee E f n argc setup) := by
  simp only [performCall_succ, approach, bind_assoc, pure_bind]

section Calling

variable {E E' : Engine} {f : FiberId} {depth : Nat} {m m' : Machine} {setup : CallSetup}
  (hE : Quiet E) (hplain : Unasking E) (hsame : SameUpTo f depth E E')
include hE hplain hsame

theorem enter_native_within (hm : Sound m) (hf : Busy m f) (hroom : (m.fiber f).calls.length < depth)
    (hhandlers : setup.handlers.continuation = none) (n argc slot : Nat) (location : Option Location)
    (id : NativeId) :
    enter E' f n argc setup location slot (.native id) m =
        enter E f n argc setup location slot (.native id) m ∧
      ∀ r m', enter E f n argc setup location slot (.native id) m = (.ok r, m') →
        (m'.fiber f).calls.length ≤ depth := by
  let m₁ := m.withFiber f fun b =>
    { b with frames := b.frames.push (setup.nativeFrame id slot location) }
  have hself : m₁.fiber f = { m.fiber f with
      frames := (m.fiber f).frames.push (setup.nativeFrame id slot location) } :=
    fiber_withFiber_self hf.1
  have hcalls : (m₁.fiber f).calls = setup.nativeFrame id slot location :: (m.fiber f).calls := by
    rw [hself, Fiber.calls_push]
  have halone : Alone f m m₁ := .withFiber hf.1 (.stacks ..)
  let request : Request := .invoke id ⟨f, location⟩
    ((m.fiber f).values.extract (slot + 1) (slot + 1 + argc)).toList setup.method
  have hanswer : E' request m₁ = E request m₁ := hsame _ _ (by rw [hcalls]; exact hroom)
  have hquiet := hE request m₁ (halone.sound hm)
  rcases hrun : E request m₁ with ⟨s | v, m₂⟩ <;> rw [hrun] at hquiet hanswer
  · have hstop {E : Engine} (h : E request m₁ = (.error s, m₂)) :
        enter E f n argc setup location slot (.native id) m = (.error s, m₂) := by
      rw [enter, bind_ok (readFiber_apply _ _ _), pushFrame, bind_ok (modifyFiber_apply _ _ _)]
      exact bind_error h
    rw [hstop hrun, hstop hanswer]
    exact ⟨rfl, fun _ _ h => by cases (Prod.mk.inj h).1⟩
  · have hv := hplain _ _ _ _ hrun
    have hf₂ : f.index < m₂.fibers.size := (halone.busy hf).1.trans_le hquiet.size
    rw [enter_native_apply hf₂ hanswer hhandlers hv, enter_native_apply hf₂ hrun hhandlers hv]
    refine ⟨rfl, fun r m' h => ?_⟩
    obtain ⟨-, rfl⟩ := Prod.mk.inj h
    have hpop : (((m₂.withFiber f fun b => { b with
        frames := b.frames.pop, values := (b.values.shrink slot).push v })).fiber f).calls =
          (m.fiber f).calls := by
      rw [fiber_withFiber_self hf₂, hquiet.fiber f trivial (halone.busy hf)]
      exact (Fiber.calls_pop _).trans (congrArg List.tail hcalls)
    rw [hpop]
    exact hroom.le

theorem enterCallee_within (hm : Sound m) (hf : Busy m f) (hroom : (m.fiber f).calls.length < depth)
    (hhandlers : setup.handlers.continuation = none) (n argc : Nat) :
    enterCallee E' f n argc setup m = enterCallee E f n argc setup m ∧
      ∀ r m', enterCallee E f n argc setup m = (.ok r, m') → (m'.fiber f).calls.length ≤ depth := by
  rw [enterCallee_apply, enterCallee_apply]
  split
  · exact ⟨rfl, fun _ _ h => nomatch (Prod.mk.inj h).1⟩
  · cases hcallee : m.callee f argc with
    | closure id =>
      refine ⟨rfl, fun r m' h => ?_⟩
      obtain ⟨-, rfl⟩ := Prod.mk.inj h
      let m₁ := m.withFiber f fun b => { b with values := b.values.push (.ofNat argc) }
      have hf₁ : f.index < m₁.fibers.size := Array.size_modify.symm ▸ hf.1
      have hcalls (frame : Frame) : ((m₁.withFiber f fun b =>
          { b with frames := b.frames.push frame }).fiber f).calls = frame :: (m.fiber f).calls := by
        rw [fiber_withFiber_self hf₁, Fiber.calls_push, fiber_withFiber_self hf.1]
        rfl
      exact (congrArg List.length (hcalls _)).trans_le hroom
    | native id => exact enter_native_within hE hplain hsame hm hf hroom hhandlers n argc _ _ id
    | _ => exact ⟨rfl, fun _ _ h => nomatch (Prod.mk.inj h).1⟩

/-- A call that finds room once it has come to the depth of the stack. -/
theorem performCall_within {argc : Nat} (hhandlers : setup.handlers.continuation = none)
    (hroom : ∀ argc' setup' m', approach f argc setup m = (.ok (argc', setup'), m') →
      Sound m' ∧ Busy m' f ∧ (m'.fiber f).calls.length < depth ∧ setup'.handlers = setup.handlers)
    (n : Nat) : performCall E' f n argc setup m = performCall E f n argc setup m ∧
      ∀ r m', performCall E f n argc setup m = (.ok r, m') → (m'.fiber f).calls.length ≤ depth := by
  cases n with
  | zero =>
    have hzero (E : Engine) : performCall E f 0 argc setup m = (.error .exhausted, m) := rfl
    rw [hzero, hzero]
    exact ⟨rfl, fun _ _ h => nomatch (Prod.mk.inj h).1⟩
  | succ n =>
    rw [performCall_approach, performCall_approach]
    rcases happroach : approach f argc setup m with ⟨s | ⟨argc', setup'⟩, m'⟩
    · rw [bind_error happroach, bind_error happroach]
      exact ⟨rfl, fun _ _ h => nomatch (Prod.mk.inj h).1⟩
    · obtain ⟨hsound, hbusy, hlen, hkept⟩ := hroom _ _ _ happroach
      rw [bind_ok happroach, bind_ok happroach]
      exact enterCallee_within hE hplain hsame hsound hbusy hlen (hkept ▸ hhandlers) n argc'

end Calling

/-- The footing of a host call on a flow that has no calls under way. -/
def Machine.bare (m : Machine) (f : FiberId) : Footing where
  fiber := f
  start := m.prepared f
  Bottom bottom := bottom = []
  Returns returnTo isEntry := returnTo = none ∧ isEntry = true
  solid _ _ _ _ h := by cases h.1
  height := 0
  valued := False

namespace Footing

variable {g : Footing} {own : List Frame} {argc limit : Nat} {setup : CallSetup}

/-- A frame is replaced where the stack would become too deep. -/
theorem replaceFrame_within (hroute : g.Route own setup.returnTo setup.isEntry) (hlow : g.Low own)
    (hlen : own.length ≤ limit + 1) (hcan : own.length = limit + 1 → ∀ m, g.Ready own argc m →
      (canReplaceFrame g.fiber setup m).1 = .ok true) :
    Triple (g.Ready own argc) (replaceFrame g.fiber argc setup)
      (fun setup' m => setup'.handlers = setup.handlers ∧ ∃ own', own'.length ≤ limit ∧
        g.Ready own' argc m) (fun _ => g.Holds) := by
  refine Triple.after (replaceFrame_ready hroute hlow) ?_
  rintro setup' m ⟨own', -, -, ⟨hhandlers, hshorter | ⟨rfl, m', hm', hcannot⟩⟩, hm⟩
  · exact ⟨hhandlers, own', by omega, hm⟩
  · refine ⟨hhandlers, own', Nat.le_of_lt_succ (hlen.lt_of_ne fun hfull => ?_), hm⟩
    cases hcannot.symm.trans (hcan hfull m' hm')

theorem approach_within (hroute : g.Route own setup.returnTo setup.isEntry) (hlow : g.Low own)
    (hlen : own.length ≤ limit + 1) (hcan : own.length = limit + 1 → ∀ argc m, g.Ready own argc m →
      (canReplaceFrame g.fiber setup m).1 = .ok true) :
    Triple (g.Ready own argc) (approach g.fiber argc setup)
      (fun p m => p.2.handlers = setup.handlers ∧ ∃ own', own'.length ≤ limit ∧
        g.Ready own' p.1 m) (fun _ => g.Holds) :=
  .bind (resolveCallee_ready _ _) fun _ =>
    .bind (replaceFrame_within hroute hlow hlen fun h m => hcan h _ m) fun _ => .pure fun _ h => h

end Footing

def Instruction.isCall (i : Instruction) : Bool := i.op == .call || i.op == .methodCall

def Instruction.callSetup (i : Instruction) (ip : Nat) : CallSetup :=
  { CallSetup.byInstruction ip with method := i.op == .methodCall, name := i.name }

def Instruction.returnsOne (i : Instruction) : Bool := i.op == .ret && i.number == 1

namespace Turn

/-- The instruction of a turn makes no call: it does not matter what would serve its requests, and
it leaves no further frame. -/
def MakesNoCall (t : Turn) (E : Engine) (f : FiberId) : Prop :=
  (∀ E', t.ends E' f = t.ends E f) ∧
    ((t.ends E f).2.fiber f).calls.length ≤ (t.machine.fiber f).calls.length

/-- If the instruction of a turn makes a call, then it is a call instruction and the next one
returns the result. No frame has handlers or anything to close. -/
structure Flat (t : Turn) (E : Engine) (f : FiberId) : Prop where
  plain : (t.machine.fiber f).isPlain ∧ ((t.ends E f).2.fiber f).isPlain
  tail : ∀ i, t.machine.code.get? t.ip = some i →
    if i.isCall then (t.machine.code.get? (t.ip + 1)).any Instruction.returnsOne
    else t.MakesNoCall E f

end Turn

namespace Footing

variable {m₀ m m' : Machine} {f : FiberId} {own : List Frame} {P : Array Value → Prop} {E E' : Engine}

theorem calls_bare (hm : (m₀.bare f).Sits own P m) : (m.fiber f).calls = own := by
  obtain ⟨_, rfl, hcalls⟩ := hm.calls
  exact hcalls.trans (List.append_nil own)

theorem canReplace_bare {frame : Frame} {rest : List Frame} {setup : CallSetup}
    (hm : (m₀.bare f).Sits (frame :: rest) P m) (hscript : frame.native = none)
    (hplain : frame.isPlain) (hdeep : m.options.tailCallThreshold < rest.length + 1)
    (hpos : 0 < rest.length) (hhandlers : setup.handlers.isEmpty)
    (hreturns : (setup.returnTo.bind m.code.get?).any Instruction.returnsOne) :
    (canReplaceFrame f setup m).1 = .ok true := by
  have hcalls := calls_bare hm
  have hsize : (m.fiber f).frames.size = rest.length + 1 := by
    rw [Fiber.size_frames, hcalls, List.length_cons]
  have hback : (m.fiber f).frames.back? = some frame := by
    rw [Fiber.back?_frames, hcalls]
    rfl
  simp only [Frame.isPlain, Bool.and_eq_true, Bool.not_eq_true'] at hplain
  have hreturn : ((setup.returnTo.bind m.code.get?).any fun i => i.op == .ret && i.number == 1) :=
    hreturns
  refine congrArg Except.ok ?_
  simp [hsize, hback, hhandlers, hplain.1, hplain.2, hreturn, hscript, Frame.isNative, hdeep, hpos]

end Footing

/-- A turn of a host call on a flow that was idle, with few frames. -/
def Turn.Within (m₀ : Machine) (f : FiberId) (depth : Nat) (t : Turn) : Prop :=
  t.limit = none ∧ ∃ own, (m₀.bare f).Open own ∧ own.length ≤ depth + 1 ∧
    (m₀.bare f).Sits own (fun _ => True) t.machine

section Turns

variable {m₀ m : Machine} {f : FiberId} {own : List Frame} {E E' : Engine} {depth n executed ip : Nat}
  (hE : Quiet E) (hplain : Unasking E) (hsame : SameUpTo f (depth + 1) E E')
  (hm : (m₀.bare f).Sits own (fun _ => True) m) (hopen : (m₀.bare f).Open own)
  (hlen : own.length ≤ depth + 1) (hpos : 0 < depth) (hdepth : m₀.options.tailCallThreshold = depth)
  (hturn : Turn.Flat ⟨n, none, executed, ip, m⟩ E f)

theorem Machine.options_prepared (m : Machine) (f : FiberId) : (m.prepared f).options = m.options := by
  unfold prepared entered
  dsimp only
  split <;> rfl

theorem open_bare (hopen : (m₀.bare f).Open own) :
    ∃ frame rest, own = frame :: rest ∧ frame.native = none := by
  cases own with
  | nil =>
    obtain ⟨_, _, hnone, -⟩ := hopen
    cases hnone
  | cons frame rest => exact ⟨frame, rest, rfl, hopen⟩

include hm hopen hlen hpos hdepth hturn in
/-- A call in tail position finds room when it comes to the depth of the stack. -/
theorem approach_tail {i : Instruction} (hi : m.code.get? ip = some i) (hcall : i.isCall)
    {m₁ : Machine} (hm₁ : Undisturbed m m₁) {argc' : Nat} {setup' : CallSetup} {m' : Machine}
    (hrun : approach f i.count (i.callSetup ip) m₁ = (.ok (argc', setup'), m')) :
    setup'.handlers = {} ∧ ∃ own', own'.length ≤ depth ∧
      (m₀.bare f).Ready own' argc' m' := by
  obtain ⟨frame, rest, rfl, hscript⟩ := open_bare hopen
  have hlow : (m₀.bare f).Low (frame :: rest) := False.elim
  have hroute : (m₀.bare f).Route (frame :: rest) (some (ip + 1)) false := ⟨rfl, rfl, hscript⟩
  have hready {argc : Nat} {m' : Machine} {P : Array Value → Prop}
      (h : (m₀.bare f).Sits (frame :: rest) P m') : (m₀.bare f).Ready (frame :: rest) argc m' :=
    { h with piled := False.elim }
  have hframe : frame.isPlain :=
    ((Fiber.isPlain_cons (calls_bare hm)).1 hturn.plain.1).1
  have hnext : (m.code.get? (ip + 1)).any Instruction.returnsOne := by
    have htail := hturn.tail i hi
    rw [if_pos hcall] at htail
    exact htail
  have hends : Exec.Triple _ (approach f i.count (i.callSetup ip)) _ _ :=
    approach_within (g := m₀.bare f) hroute hlow hlen fun hfull argc m' hm' => ?_
  · have hends := hends m₁ (hready (hm.undisturbed hm₁))
    rw [hrun] at hends
    exact hends
  · have hoptions : m'.options.tailCallThreshold = depth := by
      rw [hm'.alone.keeps.options, ← hdepth]
      exact congrArg Options.tailCallThreshold (options_prepared m₀ f)
    have hcode : m'.code = m.code := hm'.alone.keeps.code.trans hm.alone.keeps.code.symm
    rw [List.length_cons] at hfull
    exact canReplace_bare hm' hscript hframe (by omega) (by omega) rfl (hcode ▸ hnext)

include hE hplain hsame hm hopen hlen hpos hdepth hturn in
theorem step_within : step E' f n none executed ip m = step E f n none executed ip m ∧
    ∀ flow m', step E f n none executed ip m = (.ok flow, m') →
      (m'.fiber f).calls.length ≤ depth + 1 := by
  have hread : read (fun m => m.code.get? ip) m = (.ok (m.code.get? ip), m) := rfl
  cases hi : m.code.get? ip with
  | none =>
    rw [hi] at hread
    have hstop (E : Engine) : step E f n none executed ip m = (.error (.fault (.internal
        ("instruction pointer " ++ toString ip ++ " out of range"))), m) := by
      rw [step_eq, bind_ok hread]
      rfl
    rw [hstop, hstop]
    exact ⟨rfl, fun _ _ h => nomatch (Prod.mk.inj h).1⟩
  | some i =>
    have htail := hturn.tail i hi
    by_cases hcall : i.isCall
    · obtain ⟨_, debug, events, hlisten, -⟩ := observes_listening f ip i m
      have hm₁ := (observes_listening f ip i).aside.undisturbed m
      rw [hlisten] at hm₁
      have hop : i.op = .call ∨ i.op = .methodCall := by simpa [Instruction.isCall] using hcall
      have hstep (E : Engine) : step E f n none executed ip m = (do
          return Flow.transfer (← performCall E f n i.count (i.callSetup ip)))
            { m with debug, events := m.events ++ events } := by
        rw [step_eq, bind_ok (hread.trans (congrArg (Except.ok ·, m) hi))]
        dsimp only
        rw [bind_ok hlisten, execute_call E f n ip hop]
        rfl
      let m₁ := { m with debug, events := m.events ++ events }
      have hcalled : performCall E' f n i.count (i.callSetup ip) m₁ =
          performCall E f n i.count (i.callSetup ip) m₁ ∧ ∀ r m',
            performCall E f n i.count (i.callSetup ip) m₁ = (.ok r, m') →
              (m'.fiber f).calls.length ≤ depth + 1 :=
        performCall_within hE hplain hsame rfl (fun argc' setup' m' hrun => ?_) n
      · rw [hstep, hstep]
        rcases hrun : performCall E f n i.count (i.callSetup ip) m₁ with ⟨s | r, m'⟩ <;>
          rw [hrun] at hcalled
        · rw [bind_error hrun, bind_error hcalled.1]
          exact ⟨rfl, fun _ _ h => nomatch (Prod.mk.inj h).1⟩
        · rw [bind_ok hrun, bind_ok hcalled.1]
          refine ⟨rfl, fun flow m'' h => ?_⟩
          obtain ⟨-, rfl⟩ := Prod.mk.inj h
          exact hcalled.2 r _ rfl
      · obtain ⟨hhandlers, own', hlen', hready⟩ := approach_tail hm hopen hlen hpos hdepth hturn hi
          hcall hm₁ hrun
        refine ⟨hready.sound, hready.busy, ?_, hhandlers⟩
        have hcalls : (m'.fiber f).calls = own' := calls_bare hready
        rw [hcalls]
        omega
    · rw [if_neg hcall] at htail
      refine ⟨htail.1 E', fun flow m' hrun => ?_⟩
      have hshrinks := htail.2
      have hends : Turn.ends ⟨n, none, executed, ip, m⟩ E f = (.ok flow, m') := hrun
      rw [hends] at hshrinks
      refine hshrinks.trans ?_
      have hcalls := calls_bare hm
      exact (congrArg List.length hcalls).trans_le hlen

include hE hplain hsame hm hopen hlen hpos hdepth hturn in
/-- A turn leads to another one only with as few frames as before, and without a limit. -/
theorem round_within : Exec.round E' f n none executed ip m = Exec.round E f n none executed ip m ∧
    ∀ limit ip' m', Exec.round E f n none executed ip m = (.ok (.again limit ip'), m') →
      limit = none ∧ ∃ own, (m₀.bare f).Open own ∧ (m₀.bare f).Sits own (fun _ => True) m' ∧
        own.length ≤ depth + 1 := by
  obtain ⟨hstep, hwithin⟩ := step_within hE hplain hsame hm hopen hlen hpos hdepth hturn
  have hafter := hturn.plain.2
  have hends : Turn.ends ⟨n, none, executed, ip, m⟩ E f = step E f n none executed ip m := rfl
  obtain ⟨frame, rest, rfl, hscript⟩ := open_bare hopen
  have hflows : Exec.Triple (· = m) (step E f n none executed ip) (m₀.bare f).Flows
      (fun _ => (m₀.bare f).Holds) :=
    step_catches (g := m₀.bare f) catches_lands hE n rfl hm hscript False.elim False.elim
  have hflows := hflows m rfl
  rw [hends] at hafter
  rcases hrun : step E f n none executed ip m with ⟨s | flow, m'⟩ <;>
    rw [hrun] at hstep hafter hflows
  · by_cases hs : s.isCatchable
    · obtain ⟨e, rfl⟩ := Stop.eq_runtime hs
      obtain ⟨hrecover, stop, hstop⟩ := recover_plain (m := m') E E' hafter n e ip
      rw [round_of_runtime hrun, round_of_runtime hstep]
      refine ⟨hrecover, fun limit ip' m'' h => ?_⟩
      rw [h] at hstop
      cases hstop
    · rw [round_of_error hrun (by simpa using hs), round_of_error hstep (by simpa using hs)]
      exact ⟨rfl, fun _ _ _ h => nomatch (Prod.mk.inj h).1⟩
  · rw [round_of_ok hrun, round_of_ok hstep]
    refine ⟨rfl, fun limit ip' m'' h => ?_⟩
    obtain ⟨hround, rfl⟩ := Prod.mk.inj h
    have hlen' := hwithin _ _ hrun
    have hfinish {own : List Frame} (hsits : (m₀.bare f).Sits own (fun _ => True) m') :
        own.length ≤ depth + 1 := (congrArg List.length (calls_bare hsits)).symm.trans_le hlen'
    have hround := Except.ok.inj hround
    rcases flow with _ | _ | _ | _
    · obtain ⟨top, own, hopen', hsits⟩ := hflows
      exact ⟨(Round.again.inj hround).1.symm, top :: own, hopen', hsits, hfinish hsits⟩
    · obtain ⟨own, hopen', hsits⟩ := hflows
      exact ⟨(Round.again.inj hround).1.symm, own, hopen', hsits, hfinish hsits⟩
    · cases hround
    · cases hround

include hE hplain hsame hm hopen hlen hpos hdepth in
/-- A loop whose calls are all in tail position has few frames at each turn. -/
theorem loop_within (hturns : ∀ t ∈ trace E f n none executed ip m, t.Flat E f) :
    loop E' f n none executed ip m = loop E f n none executed ip m ∧
      ∀ t ∈ trace E f n none executed ip m, t.Within m₀ f depth := by
  induction n generalizing executed ip m own with
  | zero => exact ⟨rfl, List.forall_mem_nil _⟩
  | succ n ih =>
    rw [trace] at hturns ⊢
    rw [List.forall_mem_cons] at hturns ⊢
    obtain ⟨hround, hagain⟩ := round_within hE hplain hsame hm hopen hlen hpos hdepth hturns.1
    have hfirst : Turn.Within m₀ f depth ⟨n, none, executed, ip, m⟩ := ⟨rfl, own, hopen, hlen, hm⟩
    rw [loop_succ, loop_succ, bind_apply, bind_apply, hround]
    rcases hrun : Exec.round E f n none executed ip m with ⟨s | r, m'⟩ <;> rw [hrun] at hturns
    · exact ⟨rfl, hfirst, List.forall_mem_nil _⟩
    · cases r with
      | again limit ip' =>
        obtain ⟨rfl, own', hopen', hm', hlen'⟩ := hagain _ _ _ hrun
        obtain ⟨hloop, hrest⟩ := ih hm' hopen' hlen' hturns.2
        exact ⟨hloop, hfirst, hrest⟩
      | leave => exact ⟨rfl, hfirst, List.forall_mem_nil _⟩

end Turns

section HostCalls

variable {m : Machine} {E E' : Engine} {depth n : Nat} (hE : Quiet E) (hplain : Unasking E)
  (hsame : SameUpTo m.currentFiber (depth + 1) E E') (hm : Sound m)
  (hidle : (m.fiber m.currentFiber).frames = #[]) (hpos : 0 < depth)
  (hdepth : m.options.tailCallThreshold = depth) (function : Value) (arguments : List Value)

def Machine.called (m : Machine) (function : Value) (arguments : List Value) : Machine :=
  ((m.prepared m.currentFiber).withFiber m.currentFiber fun b =>
    { b with values := b.values.push function }).withFiber m.currentFiber fun b =>
      { b with values := b.values.appendList arguments }

theorem beginCall_called (E : Engine) (n : Nat) (function : Value) (arguments : List Value)
    (m : Machine) : beginCall E m.currentFiber n function arguments (m.prepared m.currentFiber) =
      performCall E m.currentFiber n arguments.length { isEntry := true }
        (m.called function arguments) := rfl

include hm hidle in
theorem sits_called (P : Array Value → Prop) :
    (m.bare m.currentFiber).Sits [] P (m.called function arguments) := by
  have hf := hm.busy_current
  obtain ⟨hsound, hbusy⟩ := hm.prepared hf hm.running_current
  have hcalls : ((m.prepared m.currentFiber).fiber m.currentFiber).calls = [] := by
    rw [fiber_prepared hf.1]
    simp [Fiber.calls, hidle]
  have hprepared : (m.bare m.currentFiber).Sits [] (fun _ => True) (m.prepared m.currentFiber) :=
    ⟨.refl _ _, hsound, hbusy, ⟨[], rfl, hcalls⟩, trivial, False.elim⟩
  have hvalues {m' : Machine} (u : Array Value → Array Value)
      (h : (m.bare m.currentFiber).Sits [] (fun _ => True) m') (Q : Array Value → Prop) :
      (m.bare m.currentFiber).Sits [] Q
        (m'.withFiber m.currentFiber fun b => { b with values := u b.values }) :=
    h.withValues fun _ hv => hv.elim
  exact hvalues (fun vs => vs.appendList arguments)
    (hvalues (fun vs => vs.push function) hprepared _) P

include hm hidle in
theorem approach_called {p : Nat × CallSetup} {m' : Machine}
    (hrun : approach m.currentFiber arguments.length { isEntry := true }
      (m.called function arguments) = (.ok p, m')) :
    p.2.handlers = {} ∧ ∃ own, own.length ≤ 0 ∧ (m.bare m.currentFiber).Ready own p.1 m' := by
  have hends : Exec.Triple ((m.bare m.currentFiber).Ready [] arguments.length)
      (approach m.currentFiber arguments.length { isEntry := true })
      (fun p m' => p.2.handlers = {} ∧ ∃ own : List Frame, own.length ≤ 0 ∧
        (m.bare m.currentFiber).Ready own p.1 m') (fun _ => (m.bare m.currentFiber).Holds) :=
    approach_within (g := m.bare m.currentFiber) ⟨rfl, rfl⟩ False.elim (Nat.zero_le _)
      fun h => by cases h
  have hready : (m.bare m.currentFiber).Ready [] arguments.length (m.called function arguments) :=
    sits_called hm hidle function arguments _
  generalize m.called function arguments = m₁ at hrun hready
  have hends := hends m₁ hready
  rw [hrun] at hends
  exact hends

include hE hplain hsame hm hidle hpos hdepth in
/-- A host call on an idle flow whose calls are all in tail position has few frames at each turn. -/
theorem hostCall_within (hturns : ∀ t ∈ turns E n m (.call function arguments), t.Flat E m.currentFiber) :
    hostCall E' m.currentFiber n function arguments (m.prepared m.currentFiber) =
        hostCall E m.currentFiber n function arguments (m.prepared m.currentFiber) ∧
      ∀ t ∈ turns E n m (.call function arguments), t.Within m m.currentFiber depth := by
  have hcalled : performCall E' m.currentFiber n arguments.length { isEntry := true }
      (m.called function arguments) = performCall E m.currentFiber n arguments.length
        { isEntry := true } (m.called function arguments) ∧ ∀ r m', performCall E m.currentFiber n
          arguments.length { isEntry := true } (m.called function arguments) = (.ok r, m') →
            (m'.fiber m.currentFiber).calls.length ≤ depth + 1 := by
    refine performCall_within hE hplain hsame rfl (fun argc' setup' m' hrun => ?_) n
    obtain ⟨hhandlers, own, hlen, hready⟩ := approach_called hm hidle function arguments hrun
    refine ⟨hready.sound, hready.busy, ?_, hhandlers⟩
    have hcalls : (m'.fiber m.currentFiber).calls = own := calls_bare hready
    rw [hcalls]
    omega
  have hlands : Exec.Triple ((m.bare m.currentFiber).Ready [] arguments.length)
      (performCall E m.currentFiber n arguments.length { isEntry := true })
      (m.bare m.currentFiber).Lands (fun _ => (m.bare m.currentFiber).Holds) :=
    performCall_lands (g := m.bare m.currentFiber) hE n ⟨rfl, rfl⟩ False.elim
  have hlands := hlands _ (sits_called hm hidle function arguments _)
  have hturned : turns E n m (.call function arguments) = drivenTurns E m.currentFiber n
      (performCall E m.currentFiber n arguments.length { isEntry := true }
        (m.called function arguments)) := rfl
  rw [hturned] at hturns ⊢
  rw [hostCall, hostCall, bind_apply, bind_apply, beginCall_called, beginCall_called, hcalled.1]
  rcases hrun : performCall E m.currentFiber n arguments.length { isEntry := true }
    (m.called function arguments) with ⟨s | r, m'⟩ <;> rw [hrun] at hlands hturns
  · exact ⟨rfl, List.forall_mem_nil _⟩
  · cases r with
    | jump ip =>
      obtain ⟨own, hopen, hsits⟩ := hlands
      have hlen := (congrArg List.length (calls_bare hsits)).symm.trans_le
        (hcalled.2 _ _ hrun)
      have hyield : (m'.fiber m.currentFiber).canYield = false := by
        have hrole : SameRole ((m.prepared m.currentFiber).fiber m.currentFiber)
          (m'.fiber m.currentFiber) := hsits.alone.role
        rw [hrole.canYield, fiber_prepared hm.busy_current.1]
      have hlimit : (m'.fiber m.currentFiber).limit = none := by simp [Fiber.limit, hyield]
      have hdriven : drivenTurns E m.currentFiber n (.ok (.jump ip), m') =
          trace E m.currentFiber n none 0 ip m' := by rw [drivenTurns, hlimit]
      rw [hdriven] at hturns ⊢
      have hloop := loop_within hE hplain hsame hsits hopen hlen hpos hdepth hturns
      simp only [drive, runFrom]
      rw [bind_ok (budget_apply _ _), bind_ok (budget_apply _ _), hlimit]
      exact hloop
    | done => exact ⟨rfl, List.forall_mem_nil _⟩
    | yielded => exact ⟨rfl, List.forall_mem_nil _⟩

end HostCalls

end ScriptMachine
