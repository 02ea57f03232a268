import ScriptMachine.Proofs.Machine.Balance
import ScriptMachine.Proofs.Machine.Errors
import ScriptMachine.Proofs.Machine.Finalizers

namespace ScriptMachine

section Order

open Exec Closing

variable {E : Engine} {f : FiberId} {ip : Nat} {frame : Frame} {outer : List Frame}
  {underway : Option RuntimeError} {m m' : Machine}

/-- The error under way after some closings. -/
def Closing.latest (underway : Option RuntimeError) (log : List Closing) : Option RuntimeError :=
  (log.filterMap failure).getLast?.or underway

theorem Closing.latest_cons (c : Closing) (log : List Closing) :
    latest underway (c :: log) = latest (c.failure.or underway) log := by
  unfold latest
  cases hc : c.failure with
  | none => rw [List.filterMap_cons_none hc, Option.none_or]
  | some e =>
    rw [List.filterMap_cons_some hc, List.getLast?_cons]
    cases (log.filterMap failure).getLast? <;> rfl

theorem mild_announce (e : RuntimeError) (ip : Nat) : Mild (announce E f e ip) :=
  .bind (.read _) fun _ => .bind (observes_reportError _ _ _).mild fun _ => .bind (.readFiber _ _) fun _ =>
    .foldlM (fun e handler => mild_handledError E handler e) _

/-- Errors that scripts can catch do not end the closing. -/
theorem mild_goOn (r : Except Stop Unit) : Mild (goOn E f ip underway r) := by
  rcases r with ((raised | _) | _) | _
  case error.fault.runtime =>
    cases underway with
    | none => exact .bind (mild_announce raised ip) fun _ => .pure _
    | some e => exact .bind (.bind (mild_emit _) fun _ => .pure _) fun _ => .pure _
  case ok => exact .pure _
  all_goals exact .throw rfl

theorem mild_closeUnder (s : Symbol) (v : Value) : Mild (closeUnder E f ip s v underway) := by
  have hattempt : Mild (attempt (closeValue E s v (.ofError underway))) := fun _ _ => trivial
  exact .bind hattempt mild_goOn

theorem closeValue_apply (E : Engine) (s : Symbol) (v error : Value) (m : Machine) :
    closeValue E s v error m =
      if v.isTruthy then
        match m.heap.metamethod? v "__close" with
        | some handler => discard (E (.call handler [v, error])) m
        | none => (.error (.fault (.complain (.notClosable s.name))), m)
      else (.ok (), m) := by
  rw [closeValue]
  split
  · rw [bind_ok (show metamethod? v "__close" m = (.ok (m.heap.metamethod? v "__close"), m) from rfl)]
    cases m.heap.metamethod? v "__close" <;> rfl
  · rfl

theorem came_closeUnder {s : Symbol} {v : Value} {r : Except Stop (Option RuntimeError)}
    (h : closeUnder E f ip s v underway m = (r, m')) :
    Came E f ip ⟨s, v, underway, m, r, m'⟩ := by
  unfold Came request
  dsimp only
  rw [← h, closeUnder]
  have hvalue := closeValue_apply E s v (.ofError underway) m
  by_cases hv : v.isTruthy
  · rw [if_pos hv] at hvalue
    rw [if_pos hv]
    cases hhandler : m.heap.metamethod? v "__close" with
    | some handler =>
      rw [hhandler] at hvalue
      exact bind_congr (attempt_congr hvalue)
    | none =>
      rw [hhandler] at hvalue
      rw [bind_ok (attempt_apply hvalue), Option.map_none, if_pos hv]
  · rw [if_neg hv] at hvalue
    rw [if_neg hv, bind_ok (attempt_apply hvalue)]
    dsimp only
    rw [if_neg hv]

/-- The variables that wait are closed in turn, and an error that came of one is told to the
next ones. -/
structure Finalization.Faithful (E : Engine) (f : FiberId) (ip : Nat) (frame : Frame)
    (symbols : List Symbol) (underway : Option RuntimeError) (w : Finalization) : Prop where
  ordered : w.closings.map symbol <+: symbols
  complete : ∀ e, w.outcome = .ok e →
    w.closings.map symbol = symbols ∧ e = latest underway w.closings
  stopped : ∀ stop, w.outcome = .error stop → stop.isCatchable = false
  each : ∀ earlier c later, w.closings = earlier ++ c :: later →
    c.value = frame.localValue c.before.heap c.symbol.index ∧
      c.underway = latest underway earlier ∧ c.Came E f ip

namespace Finalization.Faithful

variable {symbols : List Symbol} {w : Finalization} {c : Closing}

theorem nil (m : Machine) : Faithful E f ip frame [] underway ⟨[], .ok underway, m⟩ where
  ordered := List.nil_prefix
  complete e h := ⟨rfl, (Except.ok.inj h).symm⟩
  stopped stop h := nomatch h
  each earlier c later h := by simp at h

theorem cons (hvalue : c.value = frame.localValue c.before.heap c.symbol.index)
    (hcame : c.Came E f ip) (h : Faithful E f ip frame symbols (c.failure.or c.underway) w) :
    Faithful E f ip frame (c.symbol :: symbols) c.underway (w.cons c) where
  ordered := List.prefix_cons_inj _ |>.2 h.ordered
  complete e he := by
    obtain ⟨hsymbols, hlatest⟩ := h.complete e he
    refine ⟨congrArg (c.symbol :: ·) hsymbols, hlatest.trans ?_⟩
    exact (latest_cons c w.closings).symm
  stopped stop hs := h.stopped stop hs
  each earlier d later hsplit := by
    cases earlier with
    | nil =>
      obtain ⟨rfl, -⟩ := List.cons.inj hsplit
      exact ⟨hvalue, rfl, hcame⟩
    | cons a earlier =>
      obtain ⟨rfl, htail⟩ := List.cons.inj hsplit
      obtain ⟨hd, hlatest, hcame⟩ := h.each earlier d later htail
      exact ⟨hd, hlatest.trans (latest_cons c earlier).symm, hcame⟩

theorem stop {stop : Stop} (hstop : stop.isCatchable = false)
    (hvalue : c.value = frame.localValue c.before.heap c.symbol.index) (hcame : c.Came E f ip)
    (m : Machine) :
    Faithful E f ip frame (c.symbol :: symbols) c.underway ⟨[c], .error stop, m⟩ where
  ordered := ⟨symbols, rfl⟩
  complete e h := nomatch h
  stopped s h := Except.error.inj h ▸ hstop
  each earlier d later hsplit := by
    cases earlier with
    | nil =>
      obtain ⟨rfl, -⟩ := List.cons.inj hsplit
      exact ⟨hvalue, rfl, hcame⟩
    | cons a earlier => simp at hsplit

end Finalization.Faithful

/-- What is closed, in which order and with which error, however the finalizers end. Up to then the
variables hold what they held in an earlier frame. -/
theorem faithful_finalize {current : Frame} (E : Engine) (f : FiberId) (ip : Nat)
    (blocks : List (List Symbol)) (hset : current.pending.Nodup)
    (hcells : ∀ i ∈ current.pending, current.local? i = frame.local? i)
    (underway : Option RuntimeError) (m : Machine) :
    Finalization.Faithful E f ip frame (Frame.awaitingIn current.pending blocks.flatten) underway
      (finalize E f ip (Frame.closingSteps blocks) current underway m) := by
  induction blocks using Frame.blocks_induction generalizing current underway m with
  | nil => exact .nil m
  | leave outer ih => exact ih hset hcells underway _
  | next s rest outer ih =>
    rw [Frame.closingSteps_cons, List.flatten_cons, List.cons_append, ← List.flatten_cons,
      Frame.awaitingIn]
    by_cases hs : s.index ∈ current.pending
    · rw [if_pos hs]
      have hvalue (h : Heap) : current.localValue h s.index = frame.localValue h s.index := by
        rw [Frame.localValue, Frame.localValue, hcells _ hs]
      rcases hrun : closeUnder E f ip s (current.localValue (m.withBlocks f (rest :: outer)).heap
        s.index) underway ((m.withBlocks f (rest :: outer)).withTop f (.take s.index)) with
        ⟨stop | raised, m'⟩
      · rw [finalize_stop hs hrun]
        exact .stop ((mild_closeUnder s _).not_isCatchable hrun) (hvalue _) (came_closeUnder hrun) m'
      · rw [finalize_close hs hrun]
        have hcells' : ∀ i ∈ (current.take s.index).pending,
            (current.take s.index).local? i = frame.local? i := fun i hi => by
          obtain ⟨hne, hi⟩ := hset.mem_erase_iff.1 hi
          rw [Frame.local?_take hne, hcells i hi]
        exact .cons (hvalue _) (came_closeUnder hrun) (ih (hset.erase _) hcells' _ m')
    · rw [if_neg hs, finalize_skip hs]
      exact ih hset hcells underway _

/-- In the end nothing is left open. -/
theorem awaits_finalize {blocks : List (List Symbol)} {e : Option RuntimeError} {w : Finalization}
    (h : Awaits f frame outer blocks m)
    (hw : finalize E f ip (Frame.closingSteps blocks) frame underway m = w)
    (hbalanced : w.Balanced f) (hok : w.outcome = .ok e) :
    ∃ locals pending, Awaits f { frame with locals, pending } outer [] w.machine := by
  induction blocks using Frame.blocks_induction generalizing frame underway m w with
  | nil =>
    subst hw
    exact ⟨frame.locals, frame.pending, h⟩
  | leave blocks ih => exact ih (h.withBlocks blocks) hw hbalanced hok
  | next s rest blocks ih =>
    have hrest := h.withBlocks (rest :: blocks)
    rw [Frame.closingSteps_cons] at hw
    by_cases hs : s.index ∈ frame.pending
    · rcases hrun : closeUnder E f ip s (frame.localValue (m.withBlocks f (rest :: blocks)).heap
        s.index) underway ((m.withBlocks f (rest :: blocks)).withTop f (.take s.index)) with
        ⟨stop | raised, m'⟩
      · rw [finalize_stop hs hrun] at hw
        subst hw
        cases hok
      · rw [finalize_close hs hrun] at hw
        subst hw
        have htaken := (hrest.take s.index).balanced hbalanced.head
        have hclosed := ih htaken rfl hbalanced.tail hok
        exact hclosed
    · rw [finalize_skip hs] at hw
      exact ih hrest hw hbalanced hok

end Order

section Rounds

open Exec

variable {E : Engine} {f : FiberId} {ip n : Nat} {frame : Frame} {outer : List Frame}
  {m m₀ : Machine} {limit : Option Nat} {executed : Nat} {i : Instruction}

def Exec.afterCatch (f : FiberId) : Resumption → Exec Round
  | .jump target => do return .again (← budget f) target
  | _ => return .leave

def Exec.returned (E : Engine) (f : FiberId) (n : Nat) (limit : Option Nat) (ip : Nat)
    (i : Instruction) : Exec Round := do
  match ← attempt (finishReturn E f n i ip) with
  | .ok r => return .following limit ip (.transfer r)
  | .error (.fault (.runtime e)) => recover E f n e ip
  | .error s => throw s

theorem recover_eq (E : Engine) (f : FiberId) (n : Nat) (e : RuntimeError) (ip : Nat) :
    recover E f n e ip = (do
      let e ← announce E f e ip
      unwindFrames E f n e >>= afterCatch f) := by
  have hunwind : unwind E f n e ip = announce E f e ip >>= unwindFrames E f n := by
    simp only [unwind, announce, bind_assoc]
  rw [recover, hunwind, bind_assoc]
  refine congrArg _ (funext fun e => congrArg _ (funext fun r => ?_))
  cases r <;> rfl

theorem round_ret (hi : m₀.code.get? ip = some i) (hret : i.op = .ret)
    (hlimit : limit.any (· ≤ executed) = false) (hlisten : listening f ip i m₀ = (.ok (), m)) :
    Exec.round E f n limit executed ip m₀ = (attempt (closeBlocks E f .nil n) >>=
      afterReturn E f ip n (returned E f n limit ip i) (afterCatch f)) m := by
  have hexecute : execute E f n ip i = (do
      closeBlocks E f .nil n
      return .transfer (← finishReturn E f n i ip)) := by
    obtain ⟨op⟩ := i
    subst hret
    change (do return Flow.transfer (← performReturn E f n _ ip)) = _
    simp only [performReturn, finishReturn, bind_assoc]
  have hstep : step E f n limit executed ip m₀ = (do
      closeBlocks E f .nil n
      return Flow.transfer (← finishReturn E f n i ip)) m := by
    have hread : read (fun m => m.code.get? ip) m₀ = (.ok (some i), m₀) := by
      rw [← hi]
      rfl
    have henabled : read (fun m => m.debug.enabled) m₀ = (.ok m₀.debug.enabled, m₀) := rfl
    rw [listening, bind_ok henabled] at hlisten
    rw [step, bind_ok hread]
    dsimp only
    rw [bind_ok henabled, ← hexecute]
    by_cases h : m₀.debug.enabled
    · rw [if_pos h] at hlisten ⊢
      rw [bind_ok hlisten, if_neg (hlimit ▸ Bool.false_ne_true)]
    · rw [if_neg h] at hlisten ⊢
      cases hlisten
      rw [if_neg (hlimit ▸ Bool.false_ne_true)]
  rcases hclose : closeBlocks E f .nil n m with ⟨stop | u, m'⟩
  · rw [bind_error hclose] at hstep
    rw [bind_ok (attempt_apply hclose)]
    rcases stop with (e | _) | _
    · rw [round_of_runtime hstep, recover_eq]
      rfl
    all_goals
      rw [round_of_error hstep rfl]
      rfl
  · rw [bind_ok hclose] at hstep
    rw [bind_ok (attempt_apply hclose)]
    change _ = returned E f n limit ip i m'
    rw [returned]
    rcases hfinish : finishReturn E f n i ip m' with ⟨stop | r, m''⟩
    · rw [bind_error hfinish] at hstep
      rw [bind_ok (attempt_apply hfinish)]
      rcases stop with (e | _) | _
      · rw [round_of_runtime hstep]
      all_goals
        rw [round_of_error hstep rfl]
        rfl
    · rw [bind_ok hfinish] at hstep
      rw [bind_ok (attempt_apply hfinish), round_of_ok hstep]
      rfl

end Rounds

section Quiet

open Exec

variable {E : Engine} {f : FiberId} {ip : Nat} {frame : Frame} {m : Machine}
  {underway : Option RuntimeError}

theorem undisturbed_closeValue (hE : Quiet E) (s : Symbol) (v error : Value) :
    Preserves Undisturbed (closeValue E s v error) := by
  refine .ite (.bind (.read _) fun handler => ?_) (.pure _)
  cases handler with
  | none => exact .complain _
  | some handler => exact .bind (hE _) fun _ => .pure _

theorem undisturbed_announce (hE : Quiet E) (e : RuntimeError) :
    Preserves Undisturbed (announce E f e ip) :=
  .bind (.read _) fun _ => .bind (observes_reportError _ _ _).aside.undisturbed fun _ =>
    .bind (.readFiber _ _) fun _ =>
      .foldlM (fun e handler => undisturbed_handledError hE handler e) _

theorem undisturbed_closeUnder (hE : Quiet E) (s : Symbol) (v : Value) :
    Preserves Undisturbed (closeUnder E f ip s v underway) := by
  refine .bind (.attempt (undisturbed_closeValue hE s v _)) fun r => ?_
  rcases r with ((raised | _) | _) | _
  case error.fault.runtime =>
    cases underway with
    | none => exact .bind (undisturbed_announce hE raised) fun _ => .pure _
    | some e =>
      exact .bind (.bind (detached_emit _ rfl).undisturbed fun _ => .pure _) fun _ => .pure _
  case ok => exact .pure _
  all_goals exact .throw _

theorem Alone.withTop (hf : Busy m f) (g : Frame → Frame) : Alone f m (m.withTop f g) :=
  .withFiber hf.1 (.stacks ..)

/-- Native code that leaves the flows in the middle of a run alone closes in a balanced way. -/
theorem balanced_finalize (hE : Quiet E) (hm : Sound m) (hf : Busy m f)
    (steps : List (Option Symbol × List (List Symbol))) (frame : Frame) :
    (finalize E f ip steps frame underway m).Balanced f := by
  induction steps generalizing frame underway m with
  | nil => exact List.forall_mem_nil _
  | cons step steps ih =>
    obtain ⟨s?, blocks⟩ := step
    have hblocks := Alone.withTop hf fun t => { t with blocks }
    have hm₁ : Sound (m.withBlocks f blocks) := hblocks.sound hm
    have hf₁ : Busy (m.withBlocks f blocks) f := hblocks.busy hf
    cases s? with
    | none => exact ih hm₁ hf₁ frame
    | some s =>
      by_cases hs : s.index ∈ frame.pending
      · have htaken := Alone.withTop hf₁ (.take s.index)
        have hclose : Preserves Undisturbed (closeUnder E f ip s
          (frame.localValue (m.withBlocks f blocks).heap s.index) underway) :=
          undisturbed_closeUnder hE s _
        have hquiet := hclose ((m.withBlocks f blocks).withTop f (.take s.index)) (htaken.sound hm₁)
        have hsame := hquiet.fiber f trivial (htaken.busy hf₁)
        rcases hrun : closeUnder E f ip s (frame.localValue (m.withBlocks f blocks).heap s.index)
          underway ((m.withBlocks f blocks).withTop f (.take s.index)) with ⟨stop | raised, m'⟩ <;>
          rw [hrun] at hquiet hsame
        · rw [finalize_stop hs hrun]
          intro c hc
          obtain rfl := List.mem_singleton.1 hc
          exact congrArg Fiber.frames hsame
        · rw [finalize_close hs hrun]
          intro c hc
          rcases List.mem_cons.1 hc with rfl | hc
          · exact congrArg Fiber.frames hsame
          · exact ih (hquiet.sound (htaken.sound hm₁)) (hquiet.busy trivial (htaken.busy hf₁)) _ c hc
      · rw [finalize_skip hs]
        exact ih hm₁ hf₁ frame

end Quiet

section Frames

open Exec

variable {E : Engine} {f : FiberId} {frame : Frame} {outer : List Frame} {m : Machine}
  {underway : Option RuntimeError} {w : Finalization}

/-- The variables that a frame has to close when it ends, by a return or by an error, are closed
exactly once each, innermost block first and latest first inside a block. A finalizer is told the
most recent error, nil if there is none. What follows, with no block left open, is the rest of the
return, or leaving the frame with the last error. -/
theorem finalizers_run_once (hcalls : (m.fiber f).calls = frame :: outer)
    (hset : frame.pending.Nodup) (ip : Nat) (hw : finalization E f ip frame underway m = w)
    (hbalanced : w.Balanced f) {n : Nat} (hn : (Frame.closingSteps frame.blocks).length < n) :
    (frame.awaiting.Sublist frame.blocks.flatten ∧ (frame.awaiting.map Symbol.index).Nodup ∧
      ∀ i, i ∈ frame.awaiting.map Symbol.index ↔
        i ∈ frame.pending ∧ i ∈ frame.blocks.flatten.map Symbol.index) ∧
    w.Faithful E f ip frame frame.awaiting underway ∧
    (∀ e, w.outcome = .ok e → ∃ locals pending,
      (w.machine.fiber f).calls = { frame with locals, blocks := [], pending } :: outer) ∧
    (∀ e, underway = some e → ∀ x, unwindFrames E f (n + 1) e m =
      w.andThen fun last => last.elim x (leaveFrame E f (n - w.failures))) ∧
    (underway = none → ∀ m₀ i limit executed, m₀.code.get? ip = some i → i.op = .ret →
      limit.any (· ≤ executed) = false → listening f ip i m₀ = (.ok (), m) →
      Exec.round E f n limit executed ip m₀ = w.andThen fun last =>
        last.elim (returned E f n limit ip i) fun e =>
          (leaveFrame E f (n - w.failures) e >>= afterCatch f)) := by
  refine ⟨⟨Frame.awaitingIn_sublist _ _, Frame.nodup_slots_awaitingIn hset, fun i =>
    Frame.mem_slots_awaitingIn hset⟩, ?_, fun e he => ?_, ?_, ?_⟩
  · rw [← hw]
    exact faithful_finalize E f ip _ hset (fun _ _ => rfl) underway m
  · obtain ⟨locals, pending, hawaits⟩ := awaits_finalize ⟨hcalls⟩ hw hbalanced he
    exact ⟨locals, pending, hawaits.calls⟩
  · rintro e rfl x
    have hunwind := unwinding_finalizes hcalls hn hw hbalanced x pure
    simpa only [bind_pure] using hunwind
  · rintro rfl m₀ i limit executed hi hret hlimit hlisten
    rw [round_ret hi hret hlimit hlisten]
    exact returning_finalizes hcalls hn hw hbalanced _ _

/-- The frame of a function with two open blocks. Its first slot is listed in both of them, and the
fourth one no longer waits. -/
def nestedBlocks : Frame where
  entry := 0
  base := 2
  locals := #[some ⟨0⟩, some ⟨1⟩, some ⟨2⟩, some ⟨3⟩]
  isEntry := true
  blocks := [[.localVar "d" 3 false true, .localVar "a" 0 false true],
    [.localVar "c" 2 false true, .localVar "b" 1 false true, .localVar "a" 0 false true]]
  pending := [2, 0, 1]

/-- A machine that is about to return from it. The first two variables hold objects whose finalizers
fail, the third one holds nil. -/
def nestedMachine : Machine where
  code := { instructions := #[{ op := .ret }] }
  heap := {
    tables := #[({} : Table).insert (.string "__close") (.native ⟨0⟩), { metatable := some ⟨0⟩ },
      { metatable := some ⟨0⟩ }]
    cells := #[.table ⟨1⟩, .table ⟨2⟩, .nil, .nil]
    natives := #[{ name := "fail", behavior := .host (.raise (.string "no")) }] }
  fibers := #[{
    values := #[.closure ⟨0⟩, .ofNat 0], frames := #[nestedBlocks], status := .main, owner := ⟨0⟩ }]

theorem finalizers_nestedBlocks :
    nestedBlocks.awaiting = [.localVar "a" 0 false true, .localVar "c" 2 false true,
      .localVar "b" 1 false true] ∧
    ∀ underway, (finalization (watched 9) ⟨0⟩ 0 nestedBlocks underway nestedMachine).Faithful (watched 9)
      ⟨0⟩ 0 nestedBlocks nestedBlocks.awaiting underway := by
  have hsound : Sound nestedMachine := ⟨⟨by decide, rfl⟩, List.forall_mem_nil _⟩
  have hcalls : (nestedMachine.fiber ⟨0⟩).calls = [nestedBlocks] := rfl
  refine ⟨by decide, fun underway => ?_⟩
  have hbalanced : (finalization (watched 9) ⟨0⟩ 0 nestedBlocks underway nestedMachine).Balanced ⟨0⟩ :=
    balanced_finalize (quiet_watched 9) hsound ⟨by decide, .inl rfl⟩ _ _
  exact (finalizers_run_once (n := 9) hcalls (by decide) 0 rfl hbalanced (by decide)).2.1

end Frames

end ScriptMachine
