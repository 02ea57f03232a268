import ScriptMachine.Proofs.Machine.Leaving

namespace ScriptMachine

open Exec Machine

def Machine.isDeep (m : Machine) (f : FiberId) : Bool :=
  (m.options.tailCallThreshold < (m.fiber f).frames.size && 1 < (m.fiber f).frames.size) ||
    (m.options.tailCallThreshold < (m.fiber f).values.size && 1 < (m.fiber f).values.size)

theorem Exec.canReplaceFrame_eq (f : FiberId) (setup : CallSetup) (m : Machine) :
    canReplaceFrame f setup m = (.ok (m.isDeep f && setup.handlers.isEmpty &&
      ((m.fiber f).frames.back?.any fun frame =>
        !frame.isNative && frame.handlers.isEmpty && !frame.hasClosers) &&
      ((setup.returnTo.bind m.code.get?).any fun i => i.op == .ret && i.number == 1)), m) := rfl

def Machine.callee (m : Machine) (f : FiberId) (argc : Nat) : Value :=
  ((m.fiber f).values.getD ((m.fiber f).values.size - argc - 1) .nil).toScalar

def Machine.arguments (m : Machine) (f : FiberId) (argc : Nat) : List Value :=
  let slot := (m.fiber f).values.size - argc - 1
  ((m.fiber f).values.extract (slot + 1) (slot + 1 + argc)).toList

def Machine.below (m : Machine) (f : FiberId) (argc : Nat) : Array Value :=
  (m.fiber f).values.shrink ((m.fiber f).values.size - argc - 1)

def Machine.moved (m : Machine) (f : FiberId) (lower : Array Value) (argc : Nat) : Machine :=
  m.withFiber f fun b => { b with
    frames := b.frames.pop
    values := lower.appendList (b.values.extract (b.values.size - (argc + 1)) b.values.size).toList }

def CallSetup.inPlaceOf (setup : CallSetup) (frame : Frame) : CallSetup :=
  { setup with returnTo := frame.returnTo, isEntry := frame.isEntry }

def CallSetup.nativeFrame (setup : CallSetup) (id : NativeId) (slot : Nat)
    (calledFrom : Option Location) : Frame where
  base := slot
  returnTo := setup.returnTo
  native := some id
  handlers := setup.handlers
  isEntry := setup.isEntry
  calledFrom := calledFrom

namespace Exec

/-- A call that is made in a machine comes back with a value. -/
inductive ComesBack (E : Engine) (f : FiberId) (argc : Nat) (setup : CallSetup) (m : Machine)
    (v : Value) : Resumption → Machine → Prop
  /-- A native function answers with the value, and leaves the stacks of the flow alone. -/
  | native {n : Nat} {id : NativeId} {m₁ m' : Machine} {r : Resumption}
      (hcallee : m.callee f argc = .native id)
      (hanswer : E (.invoke id ⟨f, setup.calledBy.bind m.code.locationAt⟩ (m.arguments f argc)
        setup.method) (m.withFiber f fun b => { b with
          frames := b.frames.push (setup.nativeFrame id ((m.fiber f).values.size - argc - 1)
            (setup.calledBy.bind m.code.locationAt)) }) = (.ok v, m₁))
      (hcalls : (m₁.fiber f).calls = setup.nativeFrame id ((m.fiber f).values.size - argc - 1)
        (setup.calledBy.bind m.code.locationAt) :: (m.fiber f).calls)
      (hvalues : (m₁.fiber f).values = (m.fiber f).values)
      (hrun : enterCallee E f n argc setup m = (.ok r, m')) : ComesBack E f argc setup m v r m'
  /-- A script function is entered. In a later machine its frame, or that of a call which has taken
  its place, is on top of the same frames and values. Its variables are closed, and it returns the
  value. -/
  | script {n k entry ip : Nat} {m₁ m₂ m₃ m' : Machine} {frame : Frame} {i : Instruction}
      {r : Resumption} (hcallee : ∃ id, m.callee f argc = .closure id)
      (hentry : enterCallee E f n argc setup m = (.ok (.jump entry), m₁))
      (hclosed : closeBlocks E f .nil k m₂ = (.ok (), m₃))
      (hruns : (m₃.fiber f).Runs frame (m.fiber f).calls (m.below f argc))
      (hscript : frame.native = none) (hlow : frame.base < 2 ^ 53)
      (hcontinuation : frame.handlers.continuation = none)
      (hreturnTo : frame.returnTo = setup.returnTo)
      (hresult : i.Returns frame v (m₃.fiber f).values)
      (hrun : performReturn E f k i ip m₂ = (.ok r, m')) : ComesBack E f argc setup m v r m'

end Exec

/-- A script frame without handlers and without anything to close makes a call whose result it is
about to return. -/
structure TailPosition (f : FiberId) (frame : Frame) (outer : List Frame) (lower : Array Value)
    (setup : CallSetup) (ip : Nat) (i : Instruction) (argc : Nat) (m : Machine) : Prop where
  runs : (m.fiber f).Runs frame outer lower
  script : frame.native = none
  low : frame.base < 2 ^ 53
  handlers : frame.handlers.isEmpty
  closers : frame.hasClosers = false
  stacked : frame.base + argc + 1 ≤ (m.fiber f).values.size
  plain : setup.handlers.isEmpty
  returnTo : setup.returnTo = some ip
  instruction : m.code.get? ip = some i
  returns : i.op = .ret ∧ i.number = 1

section Coming

variable {E : Engine} {f : FiberId} {argc n : Nat} {setup : CallSetup} {m m' : Machine} {v : Value}
  {r : Resumption}

theorem enterCallee_apply (E : Engine) (f : FiberId) (n argc : Nat) (setup : CallSetup) (m : Machine) :
    enterCallee E f n argc setup m =
      if m.options.maxCallDepth ≤ (m.fiber f).frames.size then
        (.error (.fault (.complain .stackOverflow)), m)
      else
        enter E f n argc setup (setup.calledBy.bind m.code.locationAt)
          ((m.fiber f).values.size - argc - 1) (m.callee f argc) m := by
  have hfrom : read (fun m => setup.calledBy.bind m.code.locationAt) m =
      (.ok (setup.calledBy.bind m.code.locationAt), m) := rfl
  have hread : readFiber f (fun b => (b.values.getD ((m.fiber f).values.size - argc - 1)
      .nil).toScalar) m = (.ok (m.callee f argc), m) := rfl
  have hheight : height f m = (.ok (m.fiber f).values.size, m) := rfl
  rw [enterCallee, bind_ok hfrom]
  split_ifs with hdepth
  · have hroom : read (fun m => decide (m.options.maxCallDepth ≤ (m.fiber f).frames.size)) m =
        (.ok true, m) := by
      rw [← decide_eq_true hdepth]
      rfl
    rw [bind_ok hroom]
    rfl
  · have hroom : read (fun m => decide (m.options.maxCallDepth ≤ (m.fiber f).frames.size)) m =
        (.ok false, m) := by
      rw [← decide_eq_false hdepth]
      rfl
    rw [bind_ok hroom]
    dsimp only
    rw [if_neg Bool.false_ne_true, bind_ok hheight, bind_ok hread]

theorem enter_native_apply {slot : Nat} {id : NativeId} {calledFrom : Option Location} {m₁ : Machine}
    (hf : f.index < m₁.fibers.size)
    (hanswer : E (.invoke id ⟨f, calledFrom⟩
      ((m.fiber f).values.extract (slot + 1) (slot + 1 + argc)).toList setup.method)
      (m.withFiber f fun b => { b with
        frames := b.frames.push (setup.nativeFrame id slot calledFrom) }) = (.ok v, m₁))
    (hplain : setup.handlers.continuation = none) (hv : v.isRequest = false) :
    enter E f n argc setup calledFrom slot (.native id) m = (.ok (.after setup.returnTo),
      m₁.withFiber f fun b =>
        { b with frames := b.frames.pop, values := (b.values.shrink slot).push v }) := by
  have hcontinue (location : Option Location) (m : Machine) :
      applyContinuation E f setup.handlers v location m = (.ok v, m) := by
    rw [applyContinuation, hplain]
    rfl
  rw [enter, bind_ok (readFiber_apply _ _ _), pushFrame, bind_ok (modifyFiber_apply _ _ _)]
  refine (bind_ok hanswer).trans ?_
  rw [bind_ok (hcontinue _ _), bind_ok (modifyFiber_apply _ _ _), settle_of_value ?_ hv]
  rw [fiber_withFiber_self hf]
  exact Array.back?_push

/-- What a call leaves on the stacks when it comes back. -/
theorem Exec.ComesBack.stacks (h : ComesBack E f argc setup m v r m')
    (hplain : setup.handlers.continuation = none) (hv : v.isRequest = false) :
    r = .after setup.returnTo ∧ (m'.fiber f).calls = (m.fiber f).calls ∧
      (m'.fiber f).values = (m.below f argc).push v := by
  cases h with
  | native hcallee hanswer hcalls hvalues hrun =>
    have hf := index_lt_of_calls hcalls
    rw [enterCallee_apply, hcallee] at hrun
    split at hrun
    · cases hrun
    obtain ⟨hr, rfl⟩ := Prod.mk.inj ((enter_native_apply hf hanswer hplain hv).symm.trans hrun)
    refine ⟨(Except.ok.inj hr).symm, ?_, ?_⟩
    · rw [fiber_withFiber_self hf]
      exact (Fiber.calls_pop _).trans (congrArg List.tail hcalls)
    · rw [fiber_withFiber_self hf, hvalues, below]
  | @script n k entry ip m₁ m₂ m₃ _ frame i _ hcallee hentry hclosed hruns hscript hlow hcontinuation
      hreturnTo hresult hrun =>
    have hperform : performReturn E f k i ip m₂ = finishReturn E f k i ip m₃ := bind_ok hclosed
    rw [hperform, hruns.finishReturn hscript hlow hcontinuation hresult hv] at hrun
    obtain ⟨hr, rfl⟩ := Prod.mk.inj hrun
    exact ⟨hreturnTo ▸ (Except.ok.inj hr).symm, hruns.calls_backTo _, hruns.values_backTo _⟩

end Coming

section Position

variable {f : FiberId} {frame : Frame} {outer : List Frame} {lower : Array Value}
  {setup : CallSetup} {ip argc argc' chain : Nat} {i : Instruction} {m m' : Machine}
  {name : Option String}

theorem Fiber.frames_eq {b b' : Fiber} (h : b.calls = b'.calls) : b.frames = b'.frames :=
  Array.toList_inj.1 (List.reverse_injective h)

theorem closeBlocks_of_empty (E : Engine) (error : Value) {n : Nat}
    (hcalls : (m.fiber f).calls = frame :: outer) (hclosers : frame.hasClosers = false)
    (hn : frame.blocks.length + 1 < n) : ∃ m', closeBlocks E f error n m = (.ok (), m') ∧
      (m'.fiber f).calls = { frame with blocks := [] } :: outer ∧
      (m'.fiber f).values = (m.fiber f).values := by
  obtain ⟨n, rfl⟩ := Nat.exists_eq_succ_of_ne_zero (Nat.ne_of_gt (Nat.zero_lt_of_lt hn))
  rw [closeBlocks, bind_ok (topFrame_apply hcalls)]
  obtain ⟨blocks, hblocks⟩ : ∃ blocks, frame.blocks = blocks := ⟨_, rfl⟩
  induction blocks generalizing frame m n with
  | nil =>
    rw [if_pos (by rw [hblocks]; rfl)]
    refine ⟨m, rfl, ?_, rfl⟩
    rw [hcalls, ← hblocks]
  | cons block blocks ih =>
    rw [hblocks, List.length_cons] at hn
    obtain ⟨n, rfl⟩ := Nat.exists_eq_succ_of_ne_zero (Nat.ne_of_gt (Nat.zero_lt_of_lt
      (Nat.lt_of_succ_lt_succ hn)))
    simp only [Frame.hasClosers, hblocks, List.any_cons, Bool.or_eq_false_iff, Bool.not_eq_eq_eq_not,
      Bool.not_false, List.isEmpty_iff] at hclosers
    obtain ⟨rfl, hclosers⟩ := hclosers
    have hnext : ((m.withBlocks f blocks).fiber f).calls = { frame with blocks } :: outer :=
      calls_withTop hcalls _
    have hblock : closeBlock E f error (n + 1) m = (.ok (), m.withBlocks f blocks) := by
      rw [closeBlock, bind_ok (topFrame_apply hcalls), hblocks]
      rfl
    rw [if_neg (by rw [hblocks]; exact Bool.false_ne_true), bind_ok hblock, closeBlocks,
      bind_ok (topFrame_apply hnext)]
    obtain ⟨m', hrun, hcalls', hvalues⟩ := ih hnext hclosers n (Nat.lt_of_succ_lt_succ hn) rfl
    refine ⟨m', hrun, hcalls', hvalues.trans ?_⟩
    exact fiber_withFiber_of (v := Fiber.values) rfl f

theorem Exec.peek_state (f : FiberId) (depth : Nat) (m : Machine) : (peek f depth m).2 = m := by
  rw [peek_eq]
  split <;> rfl

theorem Exec.resolveCallee_cases (h : resolveCallee f name chain argc m = (.ok argc', m')) :
    argc' = argc ∧ m' = m ∨ ∃ handler chain', chain = chain' + 1 ∧
      resolveCallee f name chain' (argc + 1) (m.withFiber f fun b => { b with
        values := b.values.insertIdxIfInBounds (b.values.size - argc - 1) handler }) =
          (.ok argc', m') := by
  rw [resolveCallee_eq, examineCallee] at h
  rcases hpeek : peek f argc m with ⟨s | callee, m₁⟩
  · rw [bind_error hpeek] at h
    cases h
  obtain rfl : m₁ = m := (congrArg Prod.snd hpeek).symm.trans (peek_state f argc m)
  rw [bind_ok hpeek] at h
  split at h
  · obtain ⟨hargc, rfl⟩ := Prod.mk.inj h
    exact .inl ⟨(Except.ok.inj hargc).symm, rfl⟩
  · have hmeta : metamethod? callee.toScalar "__call" m₁ =
      (.ok (m₁.heap.metamethod? callee.toScalar "__call"), m₁) := rfl
    rw [bind_ok hmeta] at h
    cases hhandler : m₁.heap.metamethod? callee.toScalar "__call" with
    | none =>
      rw [hhandler] at h
      cases h
    | some handler =>
      rw [hhandler] at h
      cases chain with
      | zero => cases h
      | succ chain => exact .inr ⟨handler, chain, rfl, h⟩

namespace TailPosition

theorem insert (h : TailPosition f frame outer lower setup ip i argc m) (handler : Value) :
    TailPosition f frame outer lower setup ip i (argc + 1) (m.withFiber f fun b => { b with
      values := b.values.insertIdxIfInBounds (b.values.size - argc - 1) handler }) := by
  have hstacked := h.stacked
  have hidx : (m.fiber f).values.insertIdxIfInBounds ((m.fiber f).values.size - argc - 1) handler =
      (m.fiber f).values.insertIdx ((m.fiber f).values.size - argc - 1) handler (by omega) := by
    rw [Array.insertIdxIfInBounds, dif_pos]
  refine { h with runs := ?_, stacked := ?_ }
  · rw [fiber_withFiber_self h.runs.index_lt, hidx]
    refine h.runs.congr rfl (fun j hj => ?_) ?_
    · rw [Array.getElem?_insertIdx, if_pos (by omega)]
    · rw [Array.size_insertIdx]
      omega
  · rw [fiber_withFiber_self h.runs.index_lt, hidx, Array.size_insertIdx]
    omega

/-- Finding out what is called keeps the position. -/
theorem resolve (h : TailPosition f frame outer lower setup ip i argc m)
    (hrun : resolveCallee f name chain argc m = (.ok argc', m')) :
    TailPosition f frame outer lower setup ip i argc' m' := by
  induction chain generalizing argc m with
  | zero =>
    rcases resolveCallee_cases hrun with ⟨rfl, rfl⟩ | ⟨_, _, hchain, -⟩
    · exact h
    · cases hchain
  | succ chain ih =>
    rcases resolveCallee_cases hrun with ⟨rfl, rfl⟩ | ⟨handler, _, hchain, hrest⟩
    · exact h
    · cases hchain
      exact ih (h.insert handler) hrest

variable (h : TailPosition f frame outer lower setup ip i argc m)
include h

/-- On a deep stack, and only there, the call takes the place of the frame. -/
theorem replaceFrame_apply : replaceFrame f argc setup m =
    if m.isDeep f then (.ok (setup.inPlaceOf frame), m.moved f lower argc) else (.ok setup, m) := by
  have hstacked := h.stacked
  have hf := h.runs.index_lt
  have hcan : canReplaceFrame f setup m = (.ok (m.isDeep f), m) := by
    have hback : (m.fiber f).frames.back? = some frame := by
      rw [Fiber.back?_frames, h.runs.calls]
      rfl
    rw [canReplaceFrame_eq, hback, h.plain, h.returnTo, Option.bind_some, h.instruction]
    simp [Frame.isNative, h.script, h.handlers, h.closers, h.returns]
  rw [replaceFrame, bind_ok hcan]
  split
  · have hruns : ((m.withFiber f fun b => { b with
        values := b.values.shrink ((m.fiber f).values.size - (argc + 1)) }).fiber f).Runs frame outer
        lower := by
      rw [fiber_withFiber_self hf]
      refine h.runs.congr rfl (fun j hj => ?_) ?_
      · rw [getElem?_shrink, if_pos (by omega)]
      · rw [Array.size_shrink]
        omega
    rw [bind_ok ((popMany_eq ..).trans (if_neg (by omega))), hruns.leave h.script h.low, backTo,
      withFiber_withFiber, pushAll, bind_ok (modifyFiber_apply _ _ _), withFiber_withFiber]
    refine congrArg (Prod.mk _) (withFiber_congr ?_)
    rfl
  · rfl

theorem values_moved : ((m.moved f lower argc).fiber f).values = lower.appendList
    ((m.fiber f).values.extract ((m.fiber f).values.size - (argc + 1)) (m.fiber f).values.size).toList := by
  rw [moved, fiber_withFiber_self h.runs.index_lt]

theorem size_moved : ((m.moved f lower argc).fiber f).values.size = lower.size + argc + 1 := by
  have hstacked := h.stacked
  rw [h.values_moved, size_appendList, Array.length_toList, Array.size_extract]
  omega

theorem getElem?_moved {j : Nat} (hj : j ≤ argc) :
    ((m.moved f lower argc).fiber f).values[lower.size + j]? =
      (m.fiber f).values[(m.fiber f).values.size - argc - 1 + j]? := by
  have hstacked := h.stacked
  rw [h.values_moved, getElem?_appendList, if_neg (by omega), Array.getElem?_toList,
    Array.getElem?_extract, if_pos (by omega)]
  congr 1
  omega

theorem callee_moved : (m.moved f lower argc).callee f argc = m.callee f argc := by
  have hget := h.getElem?_moved (Nat.zero_le argc)
  have hslot : lower.size + argc + 1 - argc - 1 = lower.size := by omega
  rw [Nat.add_zero, Nat.add_zero] at hget
  rw [callee, callee, h.size_moved, Array.getD_eq_getD_getElem?,
    Array.getD_eq_getD_getElem?, hslot, hget]

theorem arguments_moved : (m.moved f lower argc).arguments f argc = m.arguments f argc := by
  have hstacked := h.stacked
  have hslot : lower.size + argc + 1 - argc - 1 = lower.size := by omega
  rw [arguments, arguments, h.size_moved, hslot]
  refine congrArg Array.toList (Array.ext_getElem? fun j => ?_)
  rw [Array.getElem?_extract, Array.getElem?_extract, h.size_moved]
  by_cases hj : j < argc
  · rw [if_pos (by omega), if_pos (by omega), Nat.add_assoc, Nat.add_comm 1 j,
      h.getElem?_moved (by omega), Nat.add_right_comm, Nat.add_assoc]
  · rw [if_neg (by omega), if_neg (by omega)]

theorem below_moved : (m.moved f lower argc).below f argc = lower := by
  have hslot : lower.size + argc + 1 - argc - 1 = lower.size := by omega
  rw [below, h.size_moved, hslot, h.values_moved]
  refine Array.ext_getElem? fun j => ?_
  rw [getElem?_shrink, getElem?_appendList]
  split_ifs with hj
  · rfl
  · rw [Array.getElem?_eq_none (by omega)]

/-- The result of the call is on the stack of the frame, which returns it. -/
theorem returns_result {v : Value} (hcalls : (m'.fiber f).calls = (m.fiber f).calls)
    (hvalues : (m'.fiber f).values = (m.below f argc).push v) (hv : v.isRequest = false) (E : Engine)
    {fuel : Nat} (hfuel : frame.blocks.length + 1 < fuel) :
    ∃ m'', execute E f fuel ip i m' = (.ok (.transfer (.after frame.returnTo)), m'') ∧
      (m''.fiber f).calls = outer ∧ (m''.fiber f).values = lower.push v := by
  have hstacked := h.stacked
  have hsize : (m.below f argc).size = (m.fiber f).values.size - argc - 1 := by
    rw [below, Array.size_shrink]
    omega
  have hexecute : execute E f fuel ip i = (do return .transfer (← performReturn E f fuel i ip)) := by
    unfold execute
    rw [h.returns.1]
  obtain ⟨m₁, hclosed, hcalls₁, hvalues₁⟩ := closeBlocks_of_empty E .nil
    (hcalls.trans h.runs.calls) h.closers hfuel
  have hruns : (m₁.fiber f).Runs { frame with blocks := [] } outer lower := by
    have hbelow (j : Nat) (hj : j < frame.base) :
        (m₁.fiber f).values[j]? = (m.fiber f).values[j]? := by
      rw [hvalues₁, hvalues, Array.getElem?_push, if_neg (by omega), below, getElem?_shrink,
        if_pos (by omega)]
    refine ⟨hcalls₁, Footing.Floor.like (Footing.Floor.congr h.runs.floor hbelow) ⟨rfl, rfl, rfl, rfl, rfl⟩,
      ?_, fun j hj => ?_⟩
    · rw [hvalues₁, hvalues, Array.size_push, hsize]
      change frame.base ≤ _
      omega
    · exact (hbelow j (hj.trans_le (Footing.Floor.le_base h.runs.floor))).trans (h.runs.below j hj)
  have hresult : i.Returns { frame with blocks := [] } v (m₁.fiber f).values := by
    rw [hvalues₁, hvalues]
    exact .inr ⟨h.returns.2, by rw [Array.size_push, hsize]; dsimp only; omega, Array.back?_push⟩
  have hcontinuation : frame.handlers.continuation = none := by
    have := h.handlers
    simp only [Handlers.isEmpty, Bool.and_eq_true, Option.isNone_iff_eq_none] at this
    exact this.1.1
  have hreturn : performReturn E f fuel i ip m' = finishReturn E f fuel i ip m₁ := bind_ok hclosed
  rw [hruns.finishReturn h.script h.low hcontinuation hresult hv] at hreturn
  refine ⟨m₁.backTo f (lower.push v), ?_, hruns.calls_backTo _, hruns.values_backTo _⟩
  rw [hexecute, bind_ok hreturn]
  rfl

end TailPosition

/-- A call in tail position on a deep stack takes the place of its frame. When it comes back with a
value, values, frames and what follows are the same as if it had been given a frame of its own and
had come back to the frame, which then returns the value. -/
theorem tail_call_preserves_results {m₀ : Machine} {argc₀ : Nat}
    (h : TailPosition f frame outer lower setup ip i argc₀ m₀)
    (hresolved : resolveCallee f setup.name maxCallChain argc₀ m₀ = (.ok argc, m)) :
    (∀ E n, performCall E f (n + 1) argc₀ setup m₀ =
      if m.isDeep f then enterCallee E f n argc (setup.inPlaceOf frame) (m.moved f lower argc)
      else enterCallee E f n argc setup m) ∧
    (m.moved f lower argc).callee f argc = m.callee f argc ∧
    (m.moved f lower argc).arguments f argc = m.arguments f argc ∧
    ∀ E E' v r r' a b, v.isRequest = false →
      ComesBack E f argc (setup.inPlaceOf frame) (m.moved f lower argc) v r a →
      ComesBack E' f argc setup m v r' b →
        r = .after frame.returnTo ∧ r' = .jump ip ∧
        ∀ fuel, frame.blocks.length + 1 < fuel → ∃ c, execute E' f fuel ip i b = (.ok (.transfer r), c) ∧
          (c.fiber f).values = (a.fiber f).values ∧ (c.fiber f).frames = (a.fiber f).frames := by
  have hm := h.resolve hresolved
  refine ⟨fun E n => ?_, hm.callee_moved, hm.arguments_moved, fun E E' v r r' a b hv ha hb => ?_⟩
  · rw [performCall_succ, bind_ok hresolved]
    have hreplace := hm.replaceFrame_apply
    split at hreplace
    · rw [bind_ok hreplace, if_pos ‹_›]
    · rw [bind_ok hreplace, if_neg ‹_›]
  · have hplain : setup.handlers.continuation = none := by
      have := hm.plain
      simp only [Handlers.isEmpty, Bool.and_eq_true, Option.isNone_iff_eq_none] at this
      exact this.1.1
    obtain ⟨hr, hcalls, hvalues⟩ := ha.stacks hplain hv
    obtain ⟨hr', hcalls', hvalues'⟩ := hb.stacks hplain hv
    refine ⟨hr, ?_, fun fuel hfuel => ?_⟩
    · rw [hr', hm.returnTo]
      rfl
    · obtain ⟨c, hrun, hcallsc, hvaluesc⟩ := hm.returns_result hcalls' hvalues' hv E' hfuel
      refine ⟨c, hr ▸ hrun, ?_, ?_⟩
      · rw [hvaluesc, hvalues, hm.below_moved]
      · refine Fiber.frames_eq (hcallsc.trans ?_)
        rw [hcalls, Machine.moved, Machine.fiber_withFiber_self hm.runs.index_lt]
        exact ((Fiber.calls_pop _).trans (congrArg List.tail hm.runs.calls)).symm

end Position

/-- A machine whose function is about to return the result of another one, with a low threshold. -/
def returning : Machine where
  code := { instructions := #[{ op := .preamble },
    { op := .literal, value := some (.closure ⟨1⟩) },
    { op := .literal, value := some .nil },
    { op := .call, number := 1 },
    { op := .ret, number := 1 },
    { op := .preamble },
    { op := .literal, value := some (.bool true) },
    { op := .ret, number := 1 }] }
  options := { tailCallThreshold := 2 }
  heap := { closures := #[{ entry := 0 }, { entry := 5 }] }
  fibers := #[{
    values := #[.closure ⟨0⟩, .ofNat 0, .closure ⟨1⟩, .nil]
    frames := #[{ base := 2, isEntry := true }], status := .main, owner := ⟨0⟩ }]

def Frame.returning : Frame := { base := 2, isEntry := true }

theorem tailPosition_returning : TailPosition ⟨0⟩ .returning [] #[] (.byInstruction 3) 4
    { op := .ret, number := 1 } 1 returning where
  runs := ⟨rfl, ⟨0, rfl, rfl⟩, by decide, nofun⟩
  script := rfl
  low := by decide
  handlers := rfl
  closers := rfl
  stacked := by decide
  plain := rfl
  returnTo := rfl
  instruction := rfl
  returns := ⟨rfl, rfl⟩

def Machine.beforeReturn (m : Machine) (setup : CallSetup) : Machine :=
  let run (ip : Nat) (m : Machine) := (step (engine 9) ⟨0⟩ 9 none 0 ip m).2
  run 6 (run 5 (enterCallee (engine 9) ⟨0⟩ 9 1 setup m).2)

theorem comesBack_replacing : ∃ r a, ComesBack (engine 9) ⟨0⟩ 1
    ((CallSetup.byInstruction 3).inPlaceOf .returning) (returning.moved ⟨0⟩ #[] 1) (.bool true) r a :=
  ⟨_, _, @ComesBack.script _ _ _ _ _ _ 9 9 5 7 _
    ((returning.moved ⟨0⟩ #[] 1).beforeReturn ((CallSetup.byInstruction 3).inPlaceOf .returning))
    _ _ _ { op := .ret, number := 1 } _ ⟨⟨1⟩, rfl⟩ rfl rfl ⟨rfl, ⟨1, rfl, rfl⟩, by decide, nofun⟩ rfl
    (by decide) rfl rfl (.inr ⟨rfl, by decide, rfl⟩) rfl⟩

theorem comesBack_plain :
    ∃ r a, ComesBack (engine 9) ⟨0⟩ 1 (.byInstruction 3) returning (.bool true) r a := by
  have hbelow (j : Nat) (hj : j < 2) :
      ((returning.beforeReturn (.byInstruction 3)).fiber ⟨0⟩).values[j]? =
        (returning.below ⟨0⟩ 1)[j]? := by
    obtain rfl | rfl : j = 0 ∨ j = 1 := by omega
    · rfl
    · rfl
  exact ⟨_, _, @ComesBack.script _ _ _ _ _ _ 9 9 5 7 _ (returning.beforeReturn (.byInstruction 3)) _ _ _
    { op := .ret, number := 1 } _ ⟨⟨1⟩, rfl⟩ rfl rfl ⟨rfl, ⟨1, rfl, rfl⟩, by decide, hbelow⟩ rfl
    (by decide) rfl rfl (.inr ⟨rfl, by decide, rfl⟩) rfl⟩

/-- The call that takes the place of the frame and the one that comes back to it leave the same. -/
theorem tail_call_returning : returning.isDeep ⟨0⟩ = true ∧ ∃ r r' a b c,
    ComesBack (engine 9) ⟨0⟩ 1 ((CallSetup.byInstruction 3).inPlaceOf .returning)
      (returning.moved ⟨0⟩ #[] 1) (.bool true) r a ∧
    ComesBack (engine 9) ⟨0⟩ 1 (.byInstruction 3) returning (.bool true) r' b ∧
    execute (engine 9) ⟨0⟩ 2 4 { op := .ret, number := 1 } b = (.ok (.transfer r), c) ∧
    (c.fiber ⟨0⟩).values = (a.fiber ⟨0⟩).values ∧ (c.fiber ⟨0⟩).frames = (a.fiber ⟨0⟩).frames := by
  obtain ⟨r, a, ha⟩ := comesBack_replacing
  obtain ⟨r', b, hb⟩ := comesBack_plain
  have hresolved : resolveCallee ⟨0⟩ none maxCallChain 1 returning = (.ok 1, returning) := rfl
  obtain ⟨-, -, -, hsame⟩ := tail_call_preserves_results tailPosition_returning hresolved
  obtain ⟨-, -, hreturn⟩ := hsame _ _ _ _ _ _ _ rfl ha hb
  obtain ⟨c, hc⟩ := hreturn 2 (by decide)
  exact ⟨rfl, r, r', a, b, c, ha, hb, hc⟩

end ScriptMachine
