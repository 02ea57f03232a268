import ScriptMachine.Proofs.Machine.Rounds

namespace ScriptMachine

variable {v : Value}

namespace Frame

/-- Blocks are closed in steps. A step takes the next variable off the innermost block, or ends the
block if there is none; with it go the blocks that are left then. -/
def blockSteps (outer : List (List Symbol)) : List Symbol → List (Option Symbol × List (List Symbol))
  | [] => [(none, outer)]
  | s :: rest => (some s, rest :: outer) :: blockSteps outer rest

def closingSteps : List (List Symbol) → List (Option Symbol × List (List Symbol))
  | [] => []
  | block :: outer => blockSteps outer block ++ closingSteps outer

/-- The variables of a list that wait to be closed: of each slot that waits the first one. -/
def awaitingIn : List Nat → List Symbol → List Symbol
  | _, [] => []
  | pending, s :: rest =>
    if s.index ∈ pending then s :: awaitingIn (pending.erase s.index) rest
    else awaitingIn pending rest

/-- The variables that a frame has to close when it ends, innermost block first and latest first
inside a block. -/
def awaiting (frame : Frame) : List Symbol := awaitingIn frame.pending frame.blocks.flatten

/-- Empties a slot that waits to be closed. -/
def take (i : Nat) (frame : Frame) : Frame :=
  { frame.setLocal i none with pending := frame.pending.erase i }

theorem local?_take {frame : Frame} {i j : Nat} (h : j ≠ i) :
    (frame.take i).local? j = frame.local? j :=
  congrArg Option.join (Array.getElem?_setIfInBounds_ne h.symm)

theorem length_blockSteps (outer : List (List Symbol)) (block : List Symbol) :
    (blockSteps outer block).length = block.length + 1 := by
  induction block with
  | nil => rfl
  | cons s rest ih => simp only [blockSteps, List.length_cons, ih]

theorem closingSteps_cons (s : Symbol) (rest : List Symbol) (outer : List (List Symbol)) :
    closingSteps ((s :: rest) :: outer) =
      (some s, rest :: outer) :: closingSteps (rest :: outer) := rfl

/-- Blocks are closed until none is left. -/
theorem blocks_induction {P : List (List Symbol) → Prop} (nil : P [])
    (leave : ∀ outer, P outer → P ([] :: outer))
    (next : ∀ s rest outer, P (rest :: outer) → P ((s :: rest) :: outer)) (blocks) : P blocks := by
  induction blocks with
  | nil => exact nil
  | cons block outer ih =>
    induction block with
    | nil => exact leave outer ih
    | cons s rest ihBlock => exact next s rest outer ihBlock

section Awaiting

variable {pending : List Nat} {symbols : List Symbol}

theorem awaitingIn_sublist (pending : List Nat) (symbols : List Symbol) :
    (awaitingIn pending symbols).Sublist symbols := by
  induction symbols generalizing pending with
  | nil => exact List.Sublist.refl _
  | cons s rest ih =>
    rw [awaitingIn]
    split
    · exact (ih _).cons_cons s
    · exact (ih _).cons s

theorem mem_slots_awaitingIn (hset : pending.Nodup) {i : Nat} :
    i ∈ (awaitingIn pending symbols).map Symbol.index ↔
      i ∈ pending ∧ i ∈ symbols.map Symbol.index := by
  induction symbols generalizing pending with
  | nil => simp [awaitingIn]
  | cons s rest ih =>
    rw [awaitingIn]
    split
    · rename_i hs
      simp only [List.map_cons, List.mem_cons, ih (hset.erase _), hset.mem_erase_iff]
      by_cases hi : i = s.index
      · simp [hi, hs]
      · simp [hi]
    · rename_i hs
      simp only [List.map_cons, List.mem_cons, ih hset]
      by_cases hi : i = s.index
      · simp [hi, hs]
      · simp [hi]

/-- No slot is closed twice, in however many blocks it is listed. -/
theorem nodup_slots_awaitingIn (hset : pending.Nodup) :
    ((awaitingIn pending symbols).map Symbol.index).Nodup := by
  induction symbols generalizing pending with
  | nil => exact List.nodup_nil
  | cons s rest ih =>
    rw [awaitingIn]
    split
    · rw [List.map_cons, List.nodup_cons, mem_slots_awaitingIn (hset.erase _)]
      exact ⟨fun h => hset.not_mem_erase h.1, ih (hset.erase _)⟩
    · exact ih hset

end Awaiting

end Frame

def Machine.withTop (m : Machine) (f : FiberId) (g : Frame → Frame) : Machine :=
  m.withFiber f fun b => { b with frames := b.frames.modify (b.frames.size - 1) g }

def Machine.withBlocks (m : Machine) (f : FiberId) (blocks : List (List Symbol)) : Machine :=
  m.withTop f fun t => { t with blocks }

/-- What a finalizer is told: the value of the error that is under way, nil if there is none. -/
def Value.ofError (underway : Option RuntimeError) : Value :=
  underway.elim .nil RuntimeError.toValue

namespace Exec

variable (E : Engine) (f : FiberId)

/-- What an error goes through before any frame is left: it gets its place, the debugger hears of
it, and the message handlers may replace it. -/
def announce (e : RuntimeError) (ip : Nat) : Exec RuntimeError := do
  let e := e.decorate (← read fun m => m.code.locationAt ip)
  reportError f e ip
  let handlers ← readFiber f messageHandlers
  handlers.foldlM (fun e handler => handledError E handler e) e

/-- What becomes of the error that a finalizer raises. The first one is announced, a later one
takes the place of the one under way. -/
def replaceError (ip : Nat) : Option RuntimeError → RuntimeError → Exec RuntimeError
  | none, raised => announce E f raised ip
  | some e, raised => do
    emit (.warned ("finalizer failed while unwinding '" ++ e.text ++ "': " ++
      (raised.decorate none).text))
    return raised.decorate none

/-- Goes on after a finalizer, with the error that it has raised, if any. -/
def goOn (ip : Nat) (underway : Option RuntimeError) :
    Except Stop Unit → Exec (Option RuntimeError)
  | .ok () => return none
  | .error (.fault (.runtime raised)) => do return some (← replaceError E f ip underway raised)
  | .error s => throw s

/-- Closes a value, and gives the error that came of it. -/
def closeUnder (ip : Nat) (s : Symbol) (v : Value) (underway : Option RuntimeError) :
    Exec (Option RuntimeError) := do
  goOn E f ip underway (← attempt (closeValue E s v (.ofError underway)))

def leaveFrame (n : Nat) (e : RuntimeError) : Exec Resumption := do
  let frame ← popFrame f
  match frame.handlers.onError with
  | some handler =>
    if !frame.isNative then popArguments f
    push f (← E (.invoke handler ⟨f, frame.calledFrom⟩ [e.toValue] false))
    settle (performCall E f n) f frame.returnTo frame.isEntry
  | none => if frame.isEntry then fail (.runtime e) else unwindFrames E f n e

def finishReturn (fuel : Nat) (i : Instruction) (ip : Nat) : Exec Resumption := do
  let v ←
    if i.number = 0 then pure (.tuple [])
    else if i.number = 1 then pop f
    else internal "RET supports only 0 and 1 ret val scenarios"
  let frame ← popFrame f
  popArguments f
  let location ← read fun m => m.code.locationAt ip
  push f v
  if frame.handlers.continuation.isSome then
    let v ← applyContinuation E f frame.handlers (← pop f) location
    push f v
  settle (performCall E f fuel) f frame.returnTo frame.isEntry

end Exec

/-- A variable is closed. -/
structure Closing where
  symbol : Symbol
  value : Value
  underway : Option RuntimeError
  before : Machine
  outcome : Except Stop (Option RuntimeError)
  after : Machine

namespace Closing

def failure (c : Closing) : Option RuntimeError := c.outcome.toOption.join

/-- What closing asks of the engine. Nil and false need no closing. -/
def request (c : Closing) : Option Request :=
  if c.value.isTruthy then
    (c.before.heap.metamethod? c.value "__close").map fun handler =>
      .call handler [c.value, .ofError c.underway]
  else none

/-- The one call that closing makes, if it makes one, has come out so. A value that cannot be closed
counts as a finalizer that fails. -/
def Came (E : Engine) (f : FiberId) (ip : Nat) (c : Closing) : Prop :=
  (c.outcome, c.after) = match c.request with
    | some request =>
      (do Exec.goOn E f ip c.underway (← Exec.attempt (discard (E request)))) c.before
    | none => Exec.goOn E f ip c.underway
      (if c.value.isTruthy then .error (.fault (.complain (.notClosable c.symbol.name)))
        else .ok ()) c.before

end Closing

/-- How the variables of a frame are closed. -/
structure Finalization where
  closings : List Closing
  outcome : Except Stop (Option RuntimeError)
  machine : Machine

namespace Finalization

def cons (c : Closing) (w : Finalization) : Finalization := { w with closings := c :: w.closings }

def failures (w : Finalization) : Nat := (w.closings.filterMap Closing.failure).length

/-- The calls leave the frames of the flow as they found them. -/
def Balanced (w : Finalization) (f : FiberId) : Prop :=
  ∀ c ∈ w.closings, (c.after.fiber f).frames = (c.before.fiber f).frames

/-- What follows the closing. -/
def andThen {α : Type} (w : Finalization) (next : Option RuntimeError → Exec α) :
    Except Stop α × Machine :=
  match w.outcome with
  | .ok underway => next underway w.machine
  | .error s => (.error s, w.machine)

end Finalization

/-- The variables of a frame are closed step by step. After a failure the others are closed with the
error that came of it. -/
def finalize (E : Engine) (f : FiberId) (ip : Nat) :
    List (Option Symbol × List (List Symbol)) → Frame → Option RuntimeError → Machine →
      Finalization
  | [], _, underway, m => ⟨[], .ok underway, m⟩
  | (none, blocks) :: steps, frame, underway, m =>
    finalize E f ip steps frame underway (m.withBlocks f blocks)
  | (some s, blocks) :: steps, frame, underway, m =>
    let m := m.withBlocks f blocks
    if s.index ∈ frame.pending then
      let v := frame.localValue m.heap s.index
      let m := m.withTop f (.take s.index)
      match Exec.closeUnder E f ip s v underway m with
      | (.ok raised, m') =>
        (finalize E f ip steps (frame.take s.index) (raised.or underway) m').cons
          ⟨s, v, underway, m, .ok raised, m'⟩
      | (.error stop, m') => ⟨[⟨s, v, underway, m, .error stop, m'⟩], .error stop, m'⟩
    else finalize E f ip steps frame underway m

/-- All that a frame has to close is closed, while an error may be under way already. -/
def finalization (E : Engine) (f : FiberId) (ip : Nat) (frame : Frame)
    (underway : Option RuntimeError) (m : Machine) : Finalization :=
  finalize E f ip (Frame.closingSteps frame.blocks) frame underway m

section Steps

open Exec

variable {E : Engine} {f : FiberId} {ip : Nat} {frame t : Frame} {outer : List Frame}
  {blocks : List (List Symbol)} {m m' : Machine} {α β : Type} {e : RuntimeError} {x y : Exec α}
  {stop : Stop} {s : Symbol}

/-- Some blocks of the top frame of the flow are left to be closed. -/
structure Awaits (f : FiberId) (frame : Frame) (outer : List Frame) (blocks : List (List Symbol))
    (m : Machine) : Prop where
  calls : (m.fiber f).calls = { frame with blocks } :: outer

theorem Machine.index_lt_of_calls (h : (m.fiber f).calls = t :: outer) :
    f.index < m.fibers.size := by
  by_contra hf
  rw [fiber, Array.getD_eq_getD_getElem?, Array.getElem?_eq_none (Nat.le_of_not_lt hf)] at h
  cases h

theorem Machine.calls_withTop (h : (m.fiber f).calls = t :: outer) (g : Frame → Frame) :
    ((m.withTop f g).fiber f).calls = g t :: outer := by
  rw [withTop, fiber_withFiber_self (index_lt_of_calls h)]
  exact Fiber.calls_modify h g

theorem Exec.modifyFrame_apply (f : FiberId) (g : Frame → Frame) (m : Machine) :
    modifyFrame f g m = (.ok (), m.withTop f g) := rfl

namespace Awaits

theorem withBlocks (h : Awaits f frame outer blocks m) (blocks' : List (List Symbol)) :
    Awaits f frame outer blocks' (m.withBlocks f blocks') :=
  ⟨Machine.calls_withTop h.calls _⟩

theorem take (h : Awaits f frame outer blocks m) (i : Nat) :
    Awaits f (frame.take i) outer blocks (m.withTop f (.take i)) :=
  ⟨Machine.calls_withTop h.calls _⟩

theorem balanced (h : Awaits f frame outer blocks m)
    (hframes : (m'.fiber f).frames = (m.fiber f).frames) : Awaits f frame outer blocks m' := by
  refine ⟨?_⟩
  rw [Fiber.calls, hframes]
  exact h.calls

theorem closeSymbol_apply (h : Awaits f frame outer blocks m) (s : Symbol) (error : Value) :
    closeSymbol E f s error m =
      if s.index ∈ frame.pending then
        closeValue E s (frame.localValue m.heap s.index) error (m.withTop f (.take s.index))
      else (.ok (), m) := by
  rw [closeSymbol, takeClosable, bind_assoc, bind_ok (topFrame_apply h.calls)]
  dsimp only
  by_cases hs : s.index ∈ frame.pending
  · rw [if_pos hs, if_pos hs]
    rfl
  · rw [if_neg hs, if_neg hs]
    rfl

end Awaits

/-- What is left to do when some blocks are open: the innermost one may be closed in part. -/
def Exec.closeFrom (E : Engine) (f : FiberId) (error : Value) (k j : Nat) :
    List (List Symbol) → Exec Unit
  | [] => closeBlocks E f error j
  | _ :: _ => do
    closeBlock E f error k
    closeBlocks E f error j

/-- The steps suffice to close some blocks. -/
def Enough (k j : Nat) : List (List Symbol) → Prop
  | [] => 0 < j
  | block :: outer => block.length < k ∧ (Frame.closingSteps outer).length < j

variable {error : Value} {n k j : Nat}

theorem closeBlocks_apply (E : Engine) (error : Value)
    (h : Awaits f frame outer blocks m)
    (hn : (Frame.closingSteps blocks).length < n) : ∃ k j, Enough k j blocks ∧
      closeBlocks E f error n m = closeFrom E f error k j blocks m := by
  cases blocks with
  | nil => exact ⟨0, n, hn, rfl⟩
  | cons block rest =>
    rw [Frame.closingSteps, List.length_append, Frame.length_blockSteps] at hn
    obtain ⟨n, rfl⟩ := Nat.exists_eq_succ_of_ne_zero (Nat.ne_of_gt (Nat.zero_lt_of_lt hn))
    refine ⟨n, n, ⟨by omega, by omega⟩, ?_⟩
    rw [closeBlocks, bind_ok (topFrame_apply h.calls)]
    rfl

theorem closeFrom_nil (h : Awaits f frame outer [] m) (hj : 0 < j) :
    closeFrom E f error k j [] m = (.ok (), m) := by
  obtain ⟨j, rfl⟩ := Nat.exists_eq_add_of_lt hj
  rw [closeFrom, closeBlocks, bind_ok (topFrame_apply h.calls)]
  rfl

theorem closeFrom_leave (E : Engine) (error : Value)
    (h : Awaits f frame outer ([] :: blocks) m)
    (henough : Enough k j ([] :: blocks)) : ∃ k' j', Enough k' j' blocks ∧
      closeFrom E f error k j ([] :: blocks) m =
        closeFrom E f error k' j' blocks (m.withBlocks f blocks) := by
  obtain ⟨k', j', henough', hblocks⟩ := closeBlocks_apply E error (h.withBlocks blocks) henough.2
  refine ⟨k', j', henough', ?_⟩
  obtain ⟨k, rfl⟩ := Nat.exists_eq_add_of_lt henough.1
  rw [← hblocks, closeFrom, closeBlock, bind_assoc, bind_ok (topFrame_apply h.calls)]
  rfl

theorem closeFrom_next (E : Engine) (error : Value) {rest : List Symbol}
    (h : Awaits f frame outer ((s :: rest) :: blocks) m)
    (henough : Enough k j ((s :: rest) :: blocks)) : ∃ k', Enough k' j (rest :: blocks) ∧
      closeFrom E f error k j ((s :: rest) :: blocks) m =
        (do closeSymbol E f s error; closeFrom E f error k' j (rest :: blocks))
          (m.withBlocks f (rest :: blocks)) := by
  obtain ⟨k, rfl⟩ := Nat.exists_eq_add_of_lt henough.1
  refine ⟨(s :: rest).length + k, ⟨?_, henough.2⟩, ?_⟩
  · rw [List.length_cons]
    omega
  · rw [closeFrom, closeBlock, bind_assoc, bind_ok (topFrame_apply h.calls)]
    dsimp only
    rw [bind_assoc, bind_ok (modifyFrame_apply _ _ _), bind_assoc]
    rfl

theorem Exec.bind_congr {g : α → Exec β} (h : x m = y m') : (x >>= g) m = (y >>= g) m' := by
  rw [bind_apply, bind_apply, h]

theorem Exec.attempt_congr (h : x m = y m') : attempt x m = attempt y m' := by
  rw [attempt, attempt, h]

theorem Exec.attempt_bind_ok {g : α → Exec β} {a : α} (h : x m = (.ok a, m')) :
    attempt (x >>= g) m = attempt (g a) m' := by
  rw [attempt, attempt, bind_ok h]

theorem Exec.attempt_bind_error {g : α → Exec β} (h : x m = (.error stop, m')) :
    attempt (x >>= g) m = (.ok (.error stop), m') :=
  attempt_apply (bind_error h)

def Exec.afterClosing (E : Engine) (f : FiberId) (ip n : Nat) (e : RuntimeError) :
    Except Stop Unit → Exec Resumption
  | .error (.fault (.runtime raised)) => do
    unwindFrames E f n (← replaceError E f ip (some e) raised)
  | .error s => throw s
  | .ok () => leaveFrame E f n e

theorem unwindFrames_apply (h : (m.fiber f).calls = t :: outer) (ip n : Nat) (e : RuntimeError) :
    unwindFrames E f (n + 1) e m =
      (do afterClosing E f ip n e (← attempt (closeBlocks E f e.toValue n))) m := by
  have hempty : (m.fiber f).frames.isEmpty = false := by
    rw [Array.isEmpty_eq_false_iff]
    rintro hframes
    simp [Fiber.calls, hframes] at h
  have hread : readFiber f (fun b => b.frames.isEmpty) m = (.ok false, m) := by
    rw [readFiber_apply, hempty]
  rw [unwindFrames, bind_ok hread, if_neg Bool.false_ne_true]
  beta_reduce
  rcases hrun : closeBlocks E f e.toValue n m with ⟨stop | u, m'⟩
  · rw [bind_ok (attempt_apply hrun), bind_ok (attempt_apply hrun)]
    rcases stop with (_ | _) | _ <;> rfl
  · rw [bind_ok (attempt_apply hrun), bind_ok (attempt_apply hrun)]
    rfl

theorem unwindFrames_bind (h : (m.fiber f).calls = t :: outer) {x : Exec Unit}
    (hx : closeBlocks E f e.toValue n m = x m) (ip : Nat) (g : Resumption → Exec α) :
    (unwindFrames E f (n + 1) e >>= g) m =
      (attempt x >>= fun r => afterClosing E f ip n e r >>= g) m := by
  rw [← bind_assoc]
  refine bind_congr ?_
  rw [unwindFrames_apply h ip, bind_congr (attempt_congr hx)]

namespace Finalization

variable {w : Finalization} {c : Closing}

theorem failures_cons_of_some (h : c.failure = some e) : (w.cons c).failures = w.failures + 1 := by
  rw [failures, cons, List.filterMap_cons_some h, List.length_cons]
  rfl

theorem failures_cons_of_none (h : c.failure = none) : (w.cons c).failures = w.failures := by
  rw [failures, cons, List.filterMap_cons_none h]
  rfl

theorem andThen_cons (next : Option RuntimeError → Exec α) :
    (w.cons c).andThen next = w.andThen next := rfl

theorem Balanced.head (h : (w.cons c).Balanced f) :
    (c.after.fiber f).frames = (c.before.fiber f).frames := h c List.mem_cons_self

theorem Balanced.tail (h : (w.cons c).Balanced f) : w.Balanced f :=
  fun d hd => h d (List.mem_cons_of_mem c hd)

end Finalization

section Finalize

variable {s : Symbol} {steps : List (Option Symbol × List (List Symbol))}
  {underway : Option RuntimeError}

theorem finalize_skip (hs : s.index ∉ frame.pending) :
    finalize E f ip ((some s, blocks) :: steps) frame underway m =
      finalize E f ip steps frame underway (m.withBlocks f blocks) := by
  rw [finalize, if_neg hs]

theorem finalize_close {raised : Option RuntimeError} (hs : s.index ∈ frame.pending)
    (hrun : closeUnder E f ip s (frame.localValue (m.withBlocks f blocks).heap s.index) underway
      ((m.withBlocks f blocks).withTop f (.take s.index)) = (.ok raised, m')) :
    finalize E f ip ((some s, blocks) :: steps) frame underway m =
      (finalize E f ip steps (frame.take s.index) (raised.or underway) m').cons
        ⟨s, frame.localValue (m.withBlocks f blocks).heap s.index, underway,
          (m.withBlocks f blocks).withTop f (.take s.index), .ok raised, m'⟩ := by
  rw [finalize, if_pos hs]
  dsimp only
  rw [hrun]

theorem finalize_stop (hs : s.index ∈ frame.pending)
    (hrun : closeUnder E f ip s (frame.localValue (m.withBlocks f blocks).heap s.index) underway
      ((m.withBlocks f blocks).withTop f (.take s.index)) = (.error stop, m')) :
    finalize E f ip ((some s, blocks) :: steps) frame underway m =
      ⟨[⟨s, frame.localValue (m.withBlocks f blocks).heap s.index, underway,
          (m.withBlocks f blocks).withTop f (.take s.index), .error stop, m'⟩], .error stop, m'⟩ := by
  rw [finalize, if_pos hs]
  dsimp only
  rw [hrun]

end Finalize

theorem closeUnder_apply (f : FiberId) (ip : Nat) (underway : Option RuntimeError)
    {r : Except Stop Unit} (h : closeValue E s v (.ofError underway) m = (r, m')) :
    closeUnder E f ip s v underway m = goOn E f ip underway r m' := by
  rw [closeUnder, bind_ok (attempt_apply h)]

variable {w : Finalization}

/-- What is done when the blocks of a frame have been closed, or could not be, by the error that is under
way. -/
structure Follows {α : Type} (E : Engine) (f : FiberId) (ip n : Nat) (finish : Exec α) (caught : Resumption → Exec α)
    (underway : Option RuntimeError) (next : Except Stop Unit → Exec α) : Prop where
  closed : next (.ok ()) = underway.elim finish fun e => leaveFrame E f n e >>= caught
  raised (e : RuntimeError) : next (.error (.fault (.runtime e))) =
    (replaceError E f ip underway e >>= fun e => unwindFrames E f n e >>= caught)
  stopped {s : Stop} (hs : s.isCatchable = false) : next (.error s) = throw s

theorem follows_afterClosing (finish : Exec α) (caught : Resumption → Exec α) (e : RuntimeError) :
    Follows E f ip n finish caught (some e) fun r => afterClosing E f ip n e r >>= caught where
  closed := rfl
  raised _ := bind_assoc _ _ _
  stopped {s} hs := by
    rcases s with (_ | _) | _
    · cases hs
    all_goals rfl

def Exec.afterReturn {α : Type} (E : Engine) (f : FiberId) (ip n : Nat) (finish : Exec α)
    (caught : Resumption → Exec α) : Except Stop Unit → Exec α
  | .error (.fault (.runtime raised)) => do
    let e ← announce E f raised ip
    unwindFrames E f n e >>= caught
  | .error s => throw s
  | .ok () => finish

theorem follows_afterReturn (finish : Exec α) (caught : Resumption → Exec α) :
    Follows E f ip n finish caught none (afterReturn E f ip n finish caught) where
  closed := rfl
  raised _ := rfl
  stopped {s} hs := by
    rcases s with (_ | _) | _
    · cases hs
    all_goals rfl

/-- How what is left of a frame is closed, and what is done then. -/
theorem closing_follows {underway : Option RuntimeError} {finish : Exec α}
    {caught : Resumption → Exec α} {next : Except Stop Unit → Exec α}
    (h : Awaits f frame outer blocks m) (henough : Enough k j blocks)
    (hn : (Frame.closingSteps blocks).length < n)
    (hnext : Follows E f ip n finish caught underway next)
    (hw : finalize E f ip (Frame.closingSteps blocks) frame underway m = w)
    (hbalanced : w.Balanced f) :
    (attempt (closeFrom E f (.ofError underway) k j blocks) >>= next) m =
      w.andThen fun underway => underway.elim finish fun e =>
        (leaveFrame E f (n - w.failures) e >>= caught) := by
  induction blocks using Frame.blocks_induction generalizing frame m underway next k j n w with
  | nil =>
    subst hw
    rw [bind_ok (attempt_apply (closeFrom_nil h henough)), hnext.closed]
    rfl
  | leave blocks ih =>
    obtain ⟨k', j', henough', hclose⟩ := closeFrom_leave E (.ofError underway) h henough
    rw [bind_congr (attempt_congr hclose)]
    exact ih (h.withBlocks blocks) henough' (Nat.lt_of_succ_lt hn) hnext hw hbalanced
  | next s rest blocks ih =>
    obtain ⟨k', henough', hclose⟩ := closeFrom_next E (.ofError underway) h henough
    have hrest := h.withBlocks (rest :: blocks)
    have hsymbol := hrest.closeSymbol_apply (E := E) s (.ofError underway)
    rw [Frame.closingSteps_cons] at hw hn
    rw [bind_congr (attempt_congr hclose)]
    by_cases hs : s.index ∈ frame.pending
    · rw [if_pos hs] at hsymbol
      rcases hclosed : closeValue E s (frame.localValue _ s.index) (.ofError underway) _ with ⟨r, m₁⟩
      have hunder := closeUnder_apply f ip underway hclosed
      have htaken := hrest.take s.index
      rw [hclosed] at hsymbol
      rcases r with ((raised | _) | _) | _
      case error.fault.runtime =>
        rw [bind_ok (attempt_bind_error hsymbol), hnext.raised]
        rcases hreplace : replaceError E f ip underway raised m₁ with ⟨stop | e, m₂⟩
        · have hreplaced : goOn E f ip underway (.error (.fault (.runtime raised))) m₁ =
            (.error stop, m₂) := bind_error hreplace
          rw [finalize_stop hs (hunder.trans hreplaced)] at hw
          subst hw
          exact bind_error hreplace
        · -- Unwinding starts over with the new error, and has one variable less to close.
          have hreplaced : goOn E f ip underway (.error (.fault (.runtime raised))) m₁ =
            (.ok (some e), m₂) := bind_ok hreplace
          rw [finalize_close hs (hunder.trans hreplaced)] at hw
          subst hw
          obtain ⟨n, rfl⟩ := Nat.exists_eq_succ_of_ne_zero (Nat.ne_of_gt (Nat.zero_lt_of_lt hn))
          have hawaits := htaken.balanced hbalanced.head
          have hn := Nat.lt_of_succ_lt_succ hn
          obtain ⟨k'', j'', henough'', hblocks⟩ := closeBlocks_apply E e.toValue hawaits hn
          rw [Finalization.failures_cons_of_some (e := e) rfl, Nat.succ_sub_succ,
            Finalization.andThen_cons]
          exact ((bind_ok hreplace).trans (unwindFrames_bind hawaits.calls hblocks ip caught)).trans
            (ih hawaits henough'' hn (follows_afterClosing finish caught e) rfl hbalanced.tail)
      case ok =>
        rw [show goOn E f ip _ (.ok ()) m₁ = (.ok none, m₁) from rfl] at hunder
        rw [finalize_close hs hunder] at hw
        subst hw
        have hawaits := htaken.balanced hbalanced.head
        rw [bind_congr (attempt_bind_ok hsymbol), Finalization.failures_cons_of_none rfl,
          Finalization.andThen_cons]
        exact ih hawaits henough' (Nat.lt_of_succ_lt hn) hnext rfl hbalanced.tail
      all_goals
        rw [finalize_stop hs (hunder.trans rfl)] at hw
        subst hw
        rw [bind_ok (attempt_bind_error hsymbol), hnext.stopped rfl]
        rfl
    · rw [if_neg hs] at hsymbol
      rw [finalize_skip hs] at hw
      rw [bind_congr (attempt_bind_ok hsymbol)]
      exact ih hrest henough' (Nat.lt_of_succ_lt hn) hnext hw hbalanced

/-- Unwinding a frame closes what it has to close, and then leaves it with the last error. -/
theorem unwinding_finalizes (hcalls : (m.fiber f).calls = frame :: outer)
    (hn : (Frame.closingSteps frame.blocks).length < n)
    (hw : finalization E f ip frame (some e) m = w) (hbalanced : w.Balanced f) (finish : Exec α)
    (caught : Resumption → Exec α) : (unwindFrames E f (n + 1) e >>= caught) m =
      w.andThen fun underway => underway.elim finish fun e =>
        (leaveFrame E f (n - w.failures) e >>= caught) := by
  have hawaits : Awaits f frame outer frame.blocks m := ⟨hcalls⟩
  obtain ⟨k, j, henough, hblocks⟩ := closeBlocks_apply E e.toValue hawaits hn
  rw [unwindFrames_bind hcalls hblocks ip]
  exact closing_follows hawaits henough hn (follows_afterClosing finish caught e) hw hbalanced

/-- A return closes what its frame has to close. If a finalizer fails, the frame is unwound. -/
theorem returning_finalizes (hcalls : (m.fiber f).calls = frame :: outer)
    (hn : (Frame.closingSteps frame.blocks).length < n) (hw : finalization E f ip frame none m = w)
    (hbalanced : w.Balanced f) (finish : Exec α) (caught : Resumption → Exec α) :
    (attempt (closeBlocks E f .nil n) >>= afterReturn E f ip n finish caught) m =
      w.andThen fun underway => underway.elim finish fun e =>
        (leaveFrame E f (n - w.failures) e >>= caught) := by
  have hawaits : Awaits f frame outer frame.blocks m := ⟨hcalls⟩
  obtain ⟨k, j, henough, hblocks⟩ := closeBlocks_apply E .nil hawaits hn
  rw [bind_congr (attempt_congr hblocks)]
  exact closing_follows hawaits henough hn (follows_afterReturn finish caught) hw hbalanced

end Steps

end ScriptMachine
