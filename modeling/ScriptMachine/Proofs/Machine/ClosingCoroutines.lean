import ScriptMachine.Proofs.Machine.Finishing
import ScriptMachine.Proofs.Machine.Leaving
import ScriptMachine.Proofs.Machine.Releasing

namespace ScriptMachine

open Exec Machine Recorded

variable {r : Except Stop Unit}

/-- A variable of a call under way that waits to be closed. -/
structure Awaited where
  frame : Frame
  depth : Nat
  symbol : Symbol

/-- The variables that some calls have to close, innermost call first. -/
def awaitedIn : List Frame → List Awaited
  | [] => []
  | frame :: outer => frame.awaiting.map (⟨frame, outer.length, ·⟩) ++ awaitedIn outer

/-- A variable is closed: the value that it holds is finalized by one call. A value that cannot be
closed counts as a finalizer that fails. -/
structure Release.Of (E : Engine) (error : Value) (x : Awaited) (c : Release) : Prop where
  depth : c.depth = x.depth
  symbol : c.symbol = x.symbol
  value : c.value = x.frame.localValue c.before.heap x.symbol.index
  error : c.error = error
  came : (c.outcome, c.after) = match c.request with
    | some request => discard (E request) c.before
    | none => (if c.value.isTruthy then .error (.fault (.complain (.notClosable c.symbol.name)))
      else .ok (), c.before)

def Awaited.place (x : Awaited) : Nat × Symbol := (x.depth, x.symbol)

def Release.place (c : Release) : Nat × Symbol := (c.depth, c.symbol)

namespace Release.Of

variable {E E' : Engine} {error : Value} {x : Awaited} {c : Release}

theorem place (h : c.Of E error x) : c.place = x.place := by
  rw [Release.place, Awaited.place, h.depth, h.symbol]

theorem of_agrees (h : c.Of E error x) (hE : Agrees E E') (hserved : c.outcome ≠ .error .exhausted) :
    c.Of E' error x := by
  refine ⟨h.depth, h.symbol, h.value, h.error, ?_⟩
  have hcame := h.came
  cases hrequest : c.request with
  | none =>
    rw [hrequest] at hcame
    exact hcame
  | some request =>
    replace hcame : (c.outcome, c.after) = discard (E request) c.before := by
      rw [hcame, hrequest]
    have hanswer : (discard (E request) c.before).1 ≠ .error .exhausted := by
      rw [← hcame]
      exact hserved
    have hdiscard : Exec.Refines (discard (E request)) (discard (E' request)) :=
      alike_iff_refines.1 (.bind (hE.agree request) fun _ => .pure _)
    exact hcame.trans (hdiscard c.before hanswer).symm

end Release.Of

/-- Variables are closed one after the other. The first failure ends it. -/
inductive Released (E : Engine) (error : Value) : List Awaited → List Release → Except Stop Unit → Prop
  | nil : Released E error [] [] (.ok ())
  | next {x xs c log r} (hc : c.Of E error x) (hok : c.outcome = .ok ())
      (hrest : Released E error xs log r) : Released E error (x :: xs) (c :: log) r
  | failed {x xs c s} (hc : c.Of E error x) (hs : c.outcome = .error s) :
      Released E error (x :: xs) [c] (.error s)
  | exhausted {xs} : Released E error xs [] (.error .exhausted)

namespace Released

variable {E : Engine} {error : Value} {xs ys : List Awaited} {log log' : List Release}
  {r : Except Stop Unit} {s : Stop}

theorem append {r' : Except Stop Unit} (h : Released E error xs log r) (hr : r = .ok ())
    (h' : Released E error ys log' r') : Released E error (xs ++ ys) (log ++ log') r' := by
  induction h with
  | nil => exact h'
  | next hc hok _ ih => exact .next hc hok (ih hr)
  | failed => cases hr
  | exhausted => cases hr

theorem of_agrees {E' : Engine} (hE : Agrees E E') (h : Released E error xs log r)
    (hserved : r ≠ .error .exhausted) : Released E' error xs log r := by
  induction h with
  | nil => exact .nil
  | next hc hok _ ih => exact .next (hc.of_agrees hE (by rw [hok]; nofun)) hok (ih hserved)
  | failed hc hs => exact .failed (hc.of_agrees hE (hs ▸ hserved)) hs
  | exhausted => exact absurd rfl hserved

theorem complete (h : Released E error xs log r) (hr : r = .ok ()) :
    log.map Release.place = xs.map Awaited.place ∧ ∀ c ∈ log, c.outcome = .ok () := by
  induction h with
  | nil => exact ⟨rfl, List.forall_mem_nil _⟩
  | next hc hok _ ih =>
    obtain ⟨hplaces, hall⟩ := ih hr
    refine ⟨?_, fun c h => ?_⟩
    · rw [List.map_cons, List.map_cons, hc.place, hplaces]
    · rcases List.mem_cons.1 h with rfl | h
      · exact hok
      · exact hall c h
  | failed => cases hr
  | exhausted => cases hr

/-- All closings but the last one succeed if there is a failure. -/
theorem incomplete (h : Released E error xs log r) (hr : r = .error s) (hs : s ≠ .exhausted) :
    ∃ earlier c left, log = earlier ++ [c] ∧ (∀ c ∈ earlier, c.outcome = .ok ()) ∧
      c.outcome = .error s ∧ xs.map Awaited.place = log.map Release.place ++ left := by
  induction h with
  | nil => cases hr
  | next hc hok _ ih =>
    obtain ⟨earlier, c, left, rfl, hall, hc', hleft⟩ := ih hr
    refine ⟨_ :: earlier, c, left, rfl, fun d hd => ?_, hc', ?_⟩
    · rcases List.mem_cons.1 hd with rfl | hd
      · exact hok
      · exact hall d hd
    · rw [List.map_cons, List.map_cons, hc.place, hleft]
      rfl
  | @failed _ xs _ _ hc hs' =>
    refine ⟨[], _, xs.map Awaited.place, rfl, List.forall_mem_nil _, hs'.trans hr, ?_⟩
    rw [List.map_cons, List.map_singleton, hc.place]
    rfl
  | exhausted => exact absurd (Except.error.inj hr).symm hs

theorem stop (h : Released E error xs log r) (hr : r = .error s) (ys : List Awaited) :
    Released E error (xs ++ ys) log r := by
  induction h with
  | nil => cases hr
  | next hc hok _ ih => exact .next hc hok (ih hr)
  | failed hc hs => exact .failed hc hs
  | exhausted => exact .exhausted

end Released

section Frames

variable {E : Engine} {f : FiberId} {frame original : Frame} {outer : List Frame} {m m' : Machine}
  {error : Value}

/-- Closing a value makes the one call that it asks for. -/
theorem of_closeValue {x : Awaited}
    (h : closeValue E x.symbol (x.frame.localValue m.heap x.symbol.index) error m = (r, m')) :
    Release.Of E error x
      ⟨x.depth, x.symbol, x.frame.localValue m.heap x.symbol.index, error, m, r, m'⟩ := by
  refine ⟨rfl, rfl, rfl, rfl, ?_⟩
  rw [closeValue_apply] at h
  rw [← h, Release.request]
  dsimp only
  by_cases hv : (x.frame.localValue m.heap x.symbol.index).isTruthy
  · rw [if_pos hv, if_pos hv]
    cases m.heap.metamethod? (x.frame.localValue m.heap x.symbol.index) "__close" with
    | some handler => rfl
    | none => simp only [Option.map_none, if_pos hv]
  · simp only [if_neg hv]

/-- What is left to do when some blocks are open: the innermost one may be closed in part. -/
def Exec.releaseFrom (E : Engine) (f : FiberId) (error : Value) (k j : Nat) :
    List (List Symbol) → Recorded Release Unit
  | [] => releaseBlocks E f error j
  | _ :: _ => do
    releaseBlock E f error k
    releaseBlocks E f error j

variable {blocks : List (List Symbol)}

theorem releaseBlocks_apply (E : Engine) (error : Value) (h : Awaits f frame outer blocks m) (n : Nat) :
    ∃ k j, releaseBlocks E f error n m = releaseFrom E f error k j blocks m := by
  cases blocks with
  | nil => exact ⟨0, n, rfl⟩
  | cons block rest =>
    cases n with
    | zero => exact ⟨0, 0, rfl⟩
    | succ n =>
      refine ⟨n, n, ?_⟩
      rw [releaseBlocks]
      exact silent_ok (topFrame_apply h.calls)

/-- How closing some blocks of the top frame goes, up to the first failure. -/
structure ReleasesTop (E : Engine) (f : FiberId) (error : Value) (outer : List Frame)
    (xs : List Awaited) (q : (Except Stop Unit × Machine) × List Release) : Prop where
  released : Released E error xs q.2 q.1.1
  sound : Sound q.1.2
  busy : Busy q.1.2 f
  calls : q.1.1 = .ok () → ∃ top, (q.1.2.fiber f).calls = top :: outer

theorem releaseFrom_leave (E : Engine) (error : Value) (h : Awaits f frame outer ([] :: blocks) m)
    (k j : Nat) : ∃ k' j', releaseFrom E f error (k + 1) j ([] :: blocks) m =
      releaseFrom E f error k' j' blocks (m.withBlocks f blocks) := by
  obtain ⟨k', j', hblocks⟩ := releaseBlocks_apply E error (h.withBlocks blocks) j
  refine ⟨k', j', ?_⟩
  have hblock : releaseBlock E f error (k + 1) m = ((.ok (), m.withBlocks f blocks), []) :=
    silent_ok (topFrame_apply h.calls)
  rw [← hblocks, releaseFrom, bind_ok hblock]
  rfl

theorem releaseFrom_next (E : Engine) (error : Value) {s : Symbol} {rest : List Symbol}
    (h : Awaits f frame outer ((s :: rest) :: blocks) m) (k j : Nat) :
    releaseFrom E f error (k + 1) j ((s :: rest) :: blocks) m =
      (do releaseSymbol E f s error; releaseFrom E f error k j (rest :: blocks))
        (m.withBlocks f (rest :: blocks)) := by
  have hblock : releaseBlock E f error (k + 1) m =
      (do releaseSymbol E f s error; releaseBlock E f error k) (m.withBlocks f (rest :: blocks)) := by
    refine (silent_ok (topFrame_apply h.calls)).trans ?_
    exact silent_ok (modifyFrame_apply _ _ _)
  have hassoc : (do releaseSymbol E f s error; releaseFrom E f error k j (rest :: blocks)) =
      ((do releaseSymbol E f s error; releaseBlock E f error k) >>= fun _ =>
        releaseBlocks E f error j) := (bind_assoc _ _ _).symm
  rw [hassoc]
  exact bind_congr hblock

theorem releasesTop_from (hE : Quiet E) (hm : Sound m) (hf : Busy m f)
    (h : Awaits f frame outer blocks m) (hset : frame.pending.Nodup)
    (hcells : ∀ i ∈ frame.pending, frame.local? i = original.local? i) (error : Value) (k j : Nat) :
    ReleasesTop E f error outer
      ((Frame.awaitingIn frame.pending blocks.flatten).map (⟨original, outer.length, ·⟩))
      (releaseFrom E f error k j blocks m) := by
  induction blocks using Frame.blocks_induction generalizing frame m k j with
  | nil =>
    cases j with
    | zero => exact ⟨.exhausted, hm, hf, fun h => by cases h⟩
    | succ j =>
      rw [show releaseFrom E f error k (j + 1) [] m = ((.ok (), m), []) from
        silent_ok (topFrame_apply h.calls)]
      exact ⟨.nil, hm, hf, fun _ => ⟨_, h.calls⟩⟩
  | leave blocks ih =>
    cases k with
    | zero => exact ⟨.exhausted, hm, hf, fun h => by cases h⟩
    | succ k =>
      obtain ⟨k', j', hstep⟩ := releaseFrom_leave E error h k j
      have hblocks := Alone.withTop hf fun t => { t with blocks }
      rw [hstep]
      exact ih (hblocks.sound hm) (hblocks.busy hf) (h.withBlocks blocks) hset hcells k' j'
  | next s rest blocks ih =>
    cases k with
    | zero => exact ⟨.exhausted, hm, hf, fun h => by cases h⟩
    | succ k =>
      have hblocks := Alone.withTop hf fun t => { t with blocks := rest :: blocks }
      have hrest := h.withBlocks (rest :: blocks)
      have hm₁ : Sound (m.withBlocks f (rest :: blocks)) := hblocks.sound hm
      have hf₁ : Busy (m.withBlocks f (rest :: blocks)) f := hblocks.busy hf
      have hsymbol := hrest.releaseSymbol_apply (E := E) s error
      rw [releaseFrom_next E error h, List.flatten_cons, List.cons_append, ← List.flatten_cons,
        Frame.awaitingIn]
      by_cases hs : s.index ∈ frame.pending
      · rw [if_pos hs] at hsymbol ⊢
        have hvalue (h : Heap) : frame.localValue h s.index = original.localValue h s.index := by
          rw [Frame.localValue, Frame.localValue, hcells _ hs]
        rw [hvalue] at hsymbol
        have htaken := Alone.withTop hf₁ (.take s.index)
        have hawaits := hrest.take s.index
        generalize hm₂ : (m.withBlocks f (rest :: blocks)).withTop f (.take s.index) = m₂
          at htaken hawaits hsymbol
        have hheap : m.heap = m₂.heap := by rw [← hm₂]; rfl
        have hquiet := undisturbed_closeValue hE s (original.localValue m₂.heap s.index) error m₂
          (htaken.sound hm₁)
        have hsame := hquiet.fiber f trivial (htaken.busy hf₁)
        rcases hrun : closeValue E s (original.localValue m₂.heap s.index) error m₂ with ⟨r, m'⟩
        rw [hrun] at hquiet hsame
        have hof : Release.Of E error ⟨original, outer.length, s⟩ _ := of_closeValue hrun
        rw [show (m.withBlocks f (rest :: blocks)).heap = m₂.heap from hheap, releaseValue,
          noted, hrun] at hsymbol
        cases r with
        | error stop =>
          rw [bind_error hsymbol]
          exact ⟨.failed hof rfl, hquiet.sound (htaken.sound hm₁),
            hquiet.busy trivial (htaken.busy hf₁), by simp⟩
        | ok u =>
          have hcells' : ∀ i ∈ (frame.take s.index).pending,
              (frame.take s.index).local? i = original.local? i := fun i hi => by
            obtain ⟨hne, hi⟩ := hset.mem_erase_iff.1 hi
            rw [Frame.local?_take hne, hcells i hi]
          have hnext := ih (hquiet.sound (htaken.sound hm₁)) (hquiet.busy trivial (htaken.busy hf₁))
            (hawaits.balanced (congrArg Fiber.frames hsame)) (hset.erase _) hcells' k j
          rw [bind_ok hsymbol]
          exact ⟨.next hof rfl hnext.released, hnext.sound, hnext.busy, hnext.calls⟩
      · rw [if_neg hs] at hsymbol ⊢
        rw [bind_ok hsymbol]
        exact ih hm₁ hf₁ hrest hset hcells k j

/-- The variables of all calls are closed, innermost call first, up to the first failure. -/
theorem released_frames {calls : List Frame} (hE : Quiet E) (hm : Sound m) (hf : Busy m f)
    (hcalls : (m.fiber f).calls = calls) (hset : ∀ frame ∈ calls, frame.pending.Nodup) (n : Nat) :
    Released E .nil (awaitedIn calls) (releaseFrames E f n m).2 (releaseFrames E f n m).1.1 := by
  induction n generalizing calls m with
  | zero => exact .exhausted
  | succ n ih =>
    have hopen : readFiber f (fun b => !b.frames.isEmpty) m = (.ok (!calls.isEmpty), m) := by
      rw [readFiber_apply, ← hcalls, Fiber.calls, List.isEmpty_reverse, Array.isEmpty_toList]
    have hstart : releaseFrames E f (n + 1) m = _ := silent_ok hopen
    cases calls with
    | nil =>
      rw [hstart]
      exact .nil
    | cons frame outer =>
      replace hstart := hstart.trans (congrFun (if_pos rfl) m)
      have hawaits : Awaits f frame outer frame.blocks m := ⟨hcalls⟩
      obtain ⟨k, j, hblocks⟩ := releaseBlocks_apply E .nil hawaits n
      have htop := releasesTop_from hE hm hf hawaits (hset frame List.mem_cons_self)
        (fun _ _ => rfl) .nil k j
      rw [← hblocks] at htop
      rw [hstart, awaitedIn]
      rcases hrun : releaseBlocks E f .nil n m with ⟨⟨s | u, m'⟩, log⟩ <;> rw [hrun] at htop
      · rw [bind_error hrun]
        exact htop.released.stop rfl _
      · obtain ⟨top, htopCalls⟩ := htop.calls rfl
        have hpop : discard (popFrame f) m' = (.ok (), m'.dropFrame f top) :=
          bind_ok (popFrame_apply htopCalls)
        have hpopped : Alone f m' (m'.dropFrame f top) :=
          .withFiber htop.busy.1 (.stacks ..)
        have houter : ((m'.dropFrame f top).fiber f).calls = outer := by
          rw [dropFrame, fiber_withFiber_self htop.busy.1]
          exact (Fiber.calls_pop _).trans (by rw [htopCalls]; rfl)
        rw [bind_ok hrun, silent_ok hpop]
        exact htop.released.append rfl (ih (hpopped.sound htop.sound) (hpopped.busy htop.busy) houter
          fun frame hframe => hset frame (List.mem_cons_of_mem _ hframe))

end Frames

section Closing

variable {E : Engine} {f : FiberId} {n : Nat} {m : Machine}

/-- What closing a flow answers, by how closing its variables has ended. -/
def closeAnswer : Except Stop Unit → Except Stop Value
  | .ok () => .ok (.bool true)
  | .error (.fault (.runtime e)) => .ok (.tuple [.bool false, e.toValue])
  | .error s => .error s

theorem closeAnswer_eq_true (h : closeAnswer r = .ok (.bool true)) : r = .ok () := by
  unfold closeAnswer at h
  split at h
  · rfl
  · cases h
  · cases h

theorem closeAnswer_eq_false {v : Value} (h : closeAnswer r = .ok (.tuple [.bool false, v])) :
    ∃ e : RuntimeError, r = .error (.fault (.runtime e)) ∧ v = e.toValue := by
  unfold closeAnswer at h
  split at h
  · cases h
  · exact ⟨_, rfl, by simpa using h.symm⟩
  · cases h

def Fiber.closed (b : Fiber) (error : Value) : Fiber :=
  { b with values := #[], frames := #[], savedIp := none, status := .dead, closeError := error }

def closeErrorOf : Except Stop Unit → Value → Value
  | .ok (), _ => .nil
  | .error (.fault (.runtime e)), _ => e.toValue
  | .error _, before => before

theorem closeSuspended_eq (E : Engine) (f : FiberId) (n : Nat) (m : Machine) :
    let q := closeFrames E f n (m.begun f)
    closeSuspended E n f m = (closeAnswer q.1,
      (q.2.withFiber f fun b => b.closed (closeErrorOf q.1 b.closeError)).exited f) := by
  intro q
  rw [closeSuspended, entering_apply, setStatus, bind_ok (modifyFiber_apply _ _ _), ← begun]
  rcases hrun : closeFrames E f n (m.begun f) with ⟨r, m'⟩
  have hq : q = (r, m') := hrun
  rw [bind_ok (attempt_apply hrun), bind_ok (modifyFiber_apply _ _ _), hq]
  rcases r with ((e | _) | _) | _
  case error.fault.runtime => exact congrArg (fun m => (_, exited m f)) (m'.withFiber_withFiber f _ _)
  case ok => exact congrArg (fun m => (_, exited m f)) (m'.withFiber_withFiber f _ _)
  all_goals rfl

/-- What closing a flow that is not in the middle of a run leaves of it, if the calls that it makes
have no effect on the flows that are. -/
theorem fiber_closeSuspended (hE : Quiet E) (hm : Sound m) (hf : (m.fiber f).status.isResumable) :
    ∃ b : Fiber, (closeSuspended E n f m).2.fiber f =
      b.closed (closeErrorOf (closeFrames E f n (m.begun f)).1 (m.fiber f).closeError) := by
  obtain ⟨hsound, hbusy⟩ := hm.begun hf
  have halone : Alone f (m.begun f) (closeFrames E f n (m.begun f)).2 :=
    alone_of_alike hsound hbusy (Likeness.alike_closeFrames hE.keepsTo (.inl rfl))
  have hlt : f.index < (closeFrames E f n (m.begun f)).2.fibers.size :=
    Nat.lt_of_lt_of_le hbusy.1 halone.keeps.size
  have herror : ((closeFrames E f n (m.begun f)).2.fiber f).closeError = (m.fiber f).closeError := by
    rw [halone.role.closeError, hm.fiber_begun hf]
  rw [closeSuspended_eq, fiber_exited, fiber_withFiber_self (Array.size_modify.symm ▸ hlt),
    fiber_withFiber_self hlt, herror]
  exact ⟨{ (closeFrames E f n (m.begun f)).2.fiber f with
    nesting := ((closeFrames E f n (m.begun f)).2.fiber f).nesting - 1 }, rfl⟩

theorem close_of_suspended
    (hf : (m.fiber f).status = .suspended ∨ (m.fiber f).status = .forceSuspended) :
    Exec.close E n f m = closeSuspended E n f m := by
  rw [close_apply]
  rcases hf with hf | hf <;> rw [hf]

/-- Closing a coroutine that is suspended, in a run that is served under watch, closes the variables
of its calls that wait to be closed, each of them once, innermost call and block first, up to the first
failure. The coroutine is dead then and has nothing on its stacks. The answer is true if no finalizer
has failed; then all variables have been closed. Otherwise it is false and the error of the finalizer
that has failed, which is the last one that was called. -/
theorem close_releases (hm : Sound m)
    (hf : (m.fiber f).status = .suspended ∨ (m.fiber f).status = .forceSuspended)
    (hset : ∀ frame ∈ (m.fiber f).calls, frame.pending.Nodup)
    (hserved : (watched (n + 1) (.close f) m).1 ≠ .error .exhausted) :
    let calls := (m.fiber f).calls
    let q := engine (n + 1) (.close f) m
    let r := (releaseFrames (engine n) f n (m.begun f)).1
    let log := (releaseFrames (engine n) f n (m.begun f)).2
    (∀ frame ∈ calls, (frame.awaiting.map Symbol.index).Nodup ∧ ∀ i,
      i ∈ frame.awaiting.map Symbol.index ↔
        i ∈ frame.pending ∧ i ∈ frame.blocks.flatten.map Symbol.index) ∧
    r = closeFrames (engine n) f n (m.begun f) ∧
    Released (engine n) .nil (awaitedIn calls) log r.1 ∧
    ((q.2.fiber f).status = .dead ∧ (q.2.fiber f).values = #[] ∧ (q.2.fiber f).frames = #[]) ∧
    q.1 = closeAnswer r.1 ∧
    (q.1 = .ok (.bool true) → log.map Release.place = (awaitedIn calls).map Awaited.place ∧
      ∀ c ∈ log, c.outcome = .ok ()) ∧
    (∀ v, q.1 = .ok (.tuple [.bool false, v]) → ∃ earlier c e left, log = earlier ++ [c] ∧
      (∀ c ∈ earlier, c.outcome = .ok ()) ∧ c.outcome = .error (.fault (.runtime e)) ∧
      v = e.toValue ∧ (awaitedIn calls).map Awaited.place = log.map Release.place ++ left) := by
  intro calls q r log
  have hresumable : (m.fiber f).status.isResumable := by
    rcases hf with hf | hf <;> rw [hf] <;> rfl
  obtain ⟨hsound, hbusy⟩ := hm.begun hresumable
  have hplain : r = closeFrames (engine n) f n (m.begun f) := congrFun (plain_releaseFrames n) _
  -- Under watch the run is the same.
  have hsame : q = watched (n + 1) (.close f) m := agrees_watched (n + 1) _ m hserved
  have hclose : watched (n + 1) (.close f) m = _ :=
    (close_of_suspended hf).trans (closeSuspended_eq (watched n) f n m)
  have hframes : (closeFrames (watched n) f n (m.begun f)).1 ≠ .error .exhausted := by
    intro h
    rw [hclose, h] at hserved
    exact hserved rfl
  have hrun : releaseFrames (engine n) f n (m.begun f) = releaseFrames (watched n) f n (m.begun f) :=
    refines_releaseFrames (agrees_watched n) n (m.begun f)
      (by rw [show (releaseFrames (watched n) f n (m.begun f)).1 = _ from
        congrFun (plain_releaseFrames n) _]; exact hframes)
  have hwatched : r = closeFrames (watched n) f n (m.begun f) :=
    (congrArg Prod.fst hrun).trans (congrFun (plain_releaseFrames n) _)
  have hcalls : ((m.begun f).fiber f).calls = calls := by
    rw [hm.fiber_begun hresumable]
    rfl
  have hreleased : Released (engine n) .nil (awaitedIn calls) log r.1 := by
    have hreleased := released_frames (quiet_watched n) hsound hbusy hcalls hset n
    rw [← hrun] at hreleased
    exact hreleased.of_agrees (agrees_watched n) (by rw [show r = _ from hwatched]; exact hframes)
  have hanswer : q.1 = closeAnswer r.1 := by rw [hsame, hclose, hwatched]
  refine ⟨fun frame hframe => ?_, hplain, hreleased, ?_, hanswer, fun htrue => ?_, fun v hfalse => ?_⟩
  · exact ⟨Frame.nodup_slots_awaitingIn (hset frame hframe), fun i =>
      Frame.mem_slots_awaitingIn (hset frame hframe)⟩
  · obtain ⟨b, hb⟩ := fiber_closeSuspended (n := n) (quiet_watched n) hm hresumable
    rw [← close_of_suspended hf] at hb
    have hb : q.2.fiber f = _ := (congrArg (fun q => q.2.fiber f) hsame).trans hb
    rw [hb]
    exact ⟨rfl, rfl, rfl⟩
  · exact hreleased.complete (closeAnswer_eq_true (hanswer ▸ htrue))
  · obtain ⟨e, hr, rfl⟩ := closeAnswer_eq_false (hanswer ▸ hfalse)
    obtain ⟨earlier, c, left, hlog, hall, hc, hleft⟩ := hreleased.incomplete hr nofun
    exact ⟨earlier, c, e, left, hlog, hall, hc, rfl, hleft⟩

end Closing

section Faltering

/-- A machine with a coroutine that is suspended within two blocks. Each has a variable to be closed
then, and the finalizer of their values fails. -/
def faltering : Machine where
  heap := {
    tables := #[({} : Table).append (.string "__close") (.string "__close") (.native ⟨0⟩),
      { metatable := some ⟨0⟩ }]
    cells := #[.table ⟨1⟩, .table ⟨1⟩]
    natives := #[{ name := "error", behavior := .builtin .error }] }
  fibers := #[{ status := .main, owner := ⟨0⟩ }, {
    values := #[.closure ⟨0⟩, .ofNat 0]
    frames := #[{
      entry := 0, base := 2, locals := #[some ⟨0⟩, some ⟨1⟩], isEntry := true, pending := [1, 0]
      blocks := [[.localVar "y" 1 false true], [.localVar "x" 0 false true]] }]
    status := .suspended, savedIp := some 0, owner := ⟨1⟩ }]

def falteringCall : Machine :=
  { faltering with
    fibers := #[{ status := .main, owner := ⟨0⟩ }, {
      values := #[.closure ⟨0⟩, .ofNat 0]
      frames := #[{
        entry := 0, base := 2, locals := #[some ⟨0⟩, none], isEntry := true, pending := [0]
        blocks := [[], [.localVar "x" 0 false true]] }]
      status := .running, savedIp := some 0, owner := ⟨1⟩, nesting := 1 }]
    active := [⟨1⟩] }

def falteringError : RuntimeError := { faltering.heap.raise (.table ⟨1⟩) with plain := true }

def falteringRelease : Release :=
  ⟨0, .localVar "y" 1 false true, .table ⟨1⟩, .nil, falteringCall,
    .error (.fault (.runtime falteringError)), falteringCall⟩

theorem releaseFrames_faltering : releaseFrames (engine 9) ⟨1⟩ 9 (faltering.begun ⟨1⟩) =
    ((.error (.fault (.runtime falteringError)), falteringCall), [falteringRelease]) := rfl

theorem sound_faltering : Sound faltering :=
  ⟨⟨by decide, rfl⟩, List.forall_mem_nil _⟩

theorem nodup_faltering : ∀ frame ∈ (faltering.fiber ⟨1⟩).calls, frame.pending.Nodup := by
  intro frame hframe
  cases List.mem_singleton.1 (show frame ∈ [_] from hframe)
  decide

theorem served_faltering : (watched 10 (.close ⟨1⟩) faltering).1 ≠ .error .exhausted :=
  fun h => absurd (congrArg Ending.of h) (by decide +kernel)

theorem faltering_releases :
    Sound faltering ∧ (faltering.fiber ⟨1⟩).status = .suspended ∧
      (∀ frame ∈ (faltering.fiber ⟨1⟩).calls, frame.pending.Nodup) ∧
      (watched 10 (.close ⟨1⟩) faltering).1 ≠ .error .exhausted ∧
      Released (engine 9) .nil (awaitedIn (faltering.fiber ⟨1⟩).calls) [falteringRelease]
        (.error (.fault (.runtime falteringError))) ∧
      ((engine 10 (.close ⟨1⟩) faltering).2.fiber ⟨1⟩).status = .dead := by
  obtain ⟨-, -, hreleased, ⟨hdead, -⟩, -⟩ :=
    close_releases sound_faltering (.inl rfl) nodup_faltering served_faltering
  rw [releaseFrames_faltering] at hreleased
  exact ⟨sound_faltering, rfl, nodup_faltering, served_faltering, hreleased, hdead⟩

/-- A finalizer that fails is the last one. A variable further out is not closed then, and nothing is
left of the call that it waited in. -/
theorem faltering_left_open :
    (.localVar "x" 0 false true) ∈ (awaitedIn (faltering.fiber ⟨1⟩).calls).map Awaited.symbol ∧
      (releaseFrames (engine 9) ⟨1⟩ 9 (faltering.begun ⟨1⟩)).2.map Release.symbol =
        [.localVar "y" 1 false true] ∧
      (engine 10 (.close ⟨1⟩) faltering).1 = .ok (.tuple [.bool false, .table ⟨1⟩]) ∧
      ((engine 10 (.close ⟨1⟩) faltering).2.fiber ⟨1⟩).calls = [] :=
  ⟨by decide, rfl, rfl, rfl⟩

end Faltering

end ScriptMachine
