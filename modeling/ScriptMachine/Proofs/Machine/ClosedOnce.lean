import ScriptMachine.Proofs.Machine.Bookkeeping
import ScriptMachine.Proofs.Machine.ClosingCoroutines
import ScriptMachine.Proofs.Machine.Isolation

namespace ScriptMachine

open Exec

variable {E : Engine} {log : List Entry}

/-- What happens to the variables of a flow in a turn of its loop. -/
def Turn.entries (t : Turn) (E : Engine) (f : FiberId) : List Entry :=
  (recordRound E f t.fuel t.limit t.executed t.ip t.machine).2

/-- What happens to the variables of a flow while it serves a request: in the turns of its loop, or
when it is closed. -/
def Exec.chronicle (E : Engine) (fuel : Nat) (m : Machine) : Request → List Entry
  | .close f =>
    if (m.fiber f).status = .suspended ∨ (m.fiber f).status = .forceSuspended then
      (releaseFrames E f fuel (m.begun f)).2.map .closed
    else []
  | r => (turns E fuel m r).flatMap fun t => t.entries E (r.flow m)

/-- The requests that a flow serves, one after the other, in runs that are served under watch. In
between other flows may run, which leave its frames alone. -/
inductive Course (f : FiberId) : Machine → List Entry → Prop
  | done {m} : Course f m []
  | apart {m m' : Machine} {log} (h : (m'.fiber f).frames = (m.fiber f).frames)
      (hrest : Course f m' log) : Course f m log
  | serves {n m log} {r : Request} (hm : Sound m) (hflow : r.flow m = f)
      (hserved : (watched (n + 1) r m).1 ≠ .error .exhausted)
      (hrest : Course f (engine (n + 1) r m).2 log) :
      Course f m (chronicle (engine n) n m r ++ log)

theorem Chain.weaken {P Q R : Nat × Nat → Prop} (h : Chain P log Q)
    (hR : ∀ place, R place → Q place) : Chain P log R := by
  have := h.append (.nil hR)
  rwa [List.append_nil] at this

section Turns

variable {E : Engine} (hE : Quiet E) {f : FiberId} {n : Nat} {m : Machine} (hm : Sound m)
  (hf : Busy m f)
include hE hm hf

/-- A loop accounts for all variables that come and go. -/
theorem chain_trace (limit : Option Nat) (executed ip : Nat) :
    Chain (m.fiber f).Holds ((trace E f n limit executed ip m).flatMap fun t => t.entries E f)
      ((loop E f n limit executed ip m).2.fiber f).Holds := by
  induction n generalizing m limit executed ip with
  | zero => exact .nil fun _ => id
  | succ n ih =>
    obtain ⟨hm', hf', hchain⟩ := ledgered_recordRound (n := n) hE limit executed ip m hm hf
    rw [List.map_id] at hchain
    have hplain : (recordRound E f n limit executed ip m).1 = Exec.round E f n limit executed ip m :=
      congrFun (plain_recordRound n limit executed ip) m
    rw [hplain] at hm' hf' hchain
    rw [loop_succ, trace, List.flatMap_cons]
    rcases hround : Exec.round E f n limit executed ip m with ⟨s | r, m'⟩ <;>
      rw [hround] at hm' hf' hchain
    · rw [bind_error hround]
      exact hchain.append (.nil fun _ => id)
    · rw [bind_ok hround]
      refine hchain.append ?_
      cases r with
      | again limit' ip' => exact ih hm' hf' limit' _ ip'
      | leave => exact .nil (vacates_of_still still_pop m' hm' hf').2.2

theorem chain_driven {x : Exec Resumption} (hx : Preserves (Vacates f) x) :
    Chain (m.fiber f).Holds ((drivenTurns E f n (x m)).flatMap fun t => t.entries E f)
      (((x >>= drive E f n) m).2.fiber f).Holds := by
  obtain ⟨hm', hf', hvacates⟩ := hx m hm hf
  rcases hrun : x m with ⟨s | r, m'⟩ <;> rw [hrun] at hm' hf' hvacates
  · rw [bind_error hrun]
    exact .nil hvacates
  · rw [bind_ok hrun]
    cases r with
    | jump ip => exact (chain_trace hE hm' hf' _ 0 ip).mono hvacates
    | done | yielded =>
      exact .nil fun place hplace =>
        hvacates place ((vacates_of_still still_pop m' hm' hf').2.2 place hplace)

end Turns

section Serving

variable {f : FiberId} {n : Nat} {m : Machine} {r : Request}

theorem Fiber.Holds.of_append {b b' : Fiber} {own : List Frame} {place : Nat × Nat}
    (h : b.Holds place) (hcalls : b'.calls = own ++ b.calls) : b'.Holds place := by
  obtain ⟨frame, hframe, hlocal⟩ := h
  have hlist : b'.frames.toList = b.frames.toList ++ own.reverse := by
    have hreverse := congrArg List.reverse hcalls
    rwa [Fiber.calls, Fiber.calls, List.reverse_append, List.reverse_reverse, List.reverse_reverse]
      at hreverse
  refine ⟨frame, ?_, hlocal⟩
  rw [← Array.getElem?_toList] at hframe ⊢
  rw [hlist, List.getElem?_append_left (List.getElem?_eq_some_iff.1 hframe).1, hframe]

theorem Machine.frames_left (m : Machine) (f : FiberId) {u : Fiber → Fiber}
    (hu : ∀ b, (u b).frames = b.frames) :
    (((m.withFiber f u).exited f).fiber f).frames = (m.fiber f).frames := by
  rw [fiber_exited, fiber_withFiber_of (v := Fiber.frames) rfl, fiber_withFiber_of (hu _)]

theorem Fiber.Holds.congr {b b' : Fiber} (h : b'.frames = b.frames) (place : Nat × Nat)
    (hplace : b'.Holds place) : b.Holds place := by
  rw [Fiber.Holds, h] at hplace
  exact hplace

variable (hm : Sound m)
include hm

theorem chain_call (hE : Quiet E) {function : Value} {arguments : List Value}
    (horderly : orderlyCall E n function arguments m) :
    Chain (m.fiber m.currentFiber).Holds (chronicle E n m (.call function arguments))
      ((callFunction E n function arguments m).2.fiber m.currentFiber).Holds := by
  have hf := hm.busy_current
  obtain ⟨hm', hf'⟩ := hm.prepared hf hm.running_current
  have hbegin : Preserves (Vacates m.currentFiber) (beginCall E m.currentFiber n function arguments) :=
    .bind (vacates_of_still (still_push _)) fun _ => .bind (vacates_of_still (still_pushAll _))
      fun _ => vacates_performCall hE n _ _
  have hstart : ((m.prepared m.currentFiber).fiber m.currentFiber).frames =
      (m.fiber m.currentFiber).frames := by
    rw [Machine.fiber_prepared hf.1]
  have hend : (callFunction E n function arguments m).2.fiber m.currentFiber =
      m.fiber m.currentFiber := (callFunction_keeps hE hm horderly).fiber _ trivial hf
  refine ((chain_driven hE hm' hf' hbegin).mono (Fiber.Holds.congr hstart)).weaken fun place hplace => ?_
  rw [hend] at hplace
  -- The frames of the host call stand on those that were there before.
  have hruns := (hostCall_ends hE hm horderly).1 _ rfl
  change ((hostCall E m.currentFiber n function arguments (m.prepared m.currentFiber)).2.fiber
    m.currentFiber).Holds place
  rcases hrun : hostCall E m.currentFiber n function arguments (m.prepared m.currentFiber) with
    ⟨s | v, m'⟩ <;> rw [hrun] at hruns
  · obtain ⟨own, hsits⟩ := hruns
    obtain ⟨_, rfl, hcalls⟩ := hsits.calls
    exact hplace.of_append hcalls
  · obtain ⟨_, rfl, hcalls⟩ := hruns.calls
    exact hplace.of_append hcalls

theorem chain_resume (hE : Quiet E) (f : FiberId) (arguments : List Value) :
    Chain (m.fiber f).Holds (chronicle E n m (.resume f arguments))
      ((Exec.resume E n f arguments m).2.fiber f).Holds := by
  have hbegin (s : Status) : Preserves (Vacates f) (beginResume E f n arguments s) := by
    have hsaved : Preserves (Vacates f) (takeSaved f) := .bind (.readFiber _ _) fun _ =>
      .bind (vacates_of_still (still_modifyFiber fun _ => ⟨.stacks .., rfl⟩))
        fun _ => .pure _
    cases s with
    | notStarted =>
      exact .bind (vacates_of_still (still_pushAll _)) fun _ => vacates_performCall hE n _ _
    | suspended => exact .bind (vacates_of_still (still_push _)) fun _ => hsaved
    | forceSuspended | main | running | dead => exact hsaved
  change Chain _ ((turns E n m (.resume f arguments)).flatMap fun t => t.entries E f) _
  unfold turns
  by_cases hf : (m.fiber f).status.isResumable
  · obtain ⟨u, hu, hframes⟩ := concludeResume_apply f
      (runResumed E f n arguments (m.fiber f).status (m.entered f)).1
      (runResumed E f n arguments (m.fiber f).status (m.entered f)).2
    have hend : ((Exec.resume E n f arguments m).2.fiber f).frames =
        ((runResumed E f n arguments (m.fiber f).status (m.entered f)).2.fiber f).frames := by
      rw [resume_apply hf _ rfl, hu]
      exact Machine.frames_left _ f fun b => (hframes b).2.1
    by_cases haccepts : (m.fiber f).status.accepts arguments
    · obtain ⟨hm', hf'⟩ := hm.begun hf
      have hstart : ((m.begun f).fiber f).frames = (m.fiber f).frames := by rw [hm.fiber_begun hf]
      rw [runResumed_of_accepts haccepts] at hend
      dsimp only
      rw [hf, haccepts]
      exact ((chain_driven hE hm' hf' (hbegin _)).mono (Fiber.Holds.congr hstart)).weaken
        (Fiber.Holds.congr hend)
    · rw [runResumed_of_not_accepts haccepts] at hend
      dsimp only
      rw [Bool.not_eq_true] at haccepts
      rw [haccepts, Bool.and_false]
      refine .nil (Fiber.Holds.congr (hend.trans ?_))
      exact (congrArg Fiber.frames (Machine.fiber_entered ..)).trans (Machine.fiber_withFiber_of rfl f)
  · rw [resume_refused hf]
    rw [Bool.not_eq_true] at hf
    dsimp only
    rw [hf]
    exact .nil fun _ => id

theorem chain_close (hE : Quiet E) (f : FiberId) :
    Chain (m.fiber f).Holds (chronicle E n m (.close f)) ((Exec.close E n f m).2.fiber f).Holds := by
  unfold chronicle
  dsimp only
  split
  case isTrue hf =>
    have hresumable : (m.fiber f).status.isResumable := by
      rcases hf with hf | hf <;> rw [hf] <;> rfl
    obtain ⟨hm', hf'⟩ := hm.begun hresumable
    have hstart : ((m.begun f).fiber f).frames = (m.fiber f).frames := by rw [hm.fiber_begun hresumable]
    obtain ⟨b, hb⟩ := fiber_closeSuspended (n := n) hE hm hresumable
    refine ((ledgered_releaseFrames hE _ hm' hf').2.2.mono (Fiber.Holds.congr hstart)).weaken ?_
    rintro place ⟨frame, hframe, -⟩
    rw [close_of_suspended hf, hb] at hframe
    cases hframe
  case isFalse hf =>
    refine .nil (Fiber.Holds.congr ?_)
    rw [close_apply]
    cases hstatus : (m.fiber f).status with
    | suspended => exact absurd (.inl hstatus) hf
    | forceSuspended => exact absurd (.inr hstatus) hf
    | notStarted => exact Machine.fiber_withFiber_of (v := Fiber.frames) rfl f
    | main | running | dead => rfl

omit hm in
theorem watched_served (hserved : (watched (n + 1) r m).1 ≠ .error .exhausted) :
    watched (n + 1) r m = serve (watched n) n r m ∧ ∀ function arguments,
      r = .call function arguments → orderlyCall (watched n) n function arguments m := by
  cases r with
  | call function arguments =>
    have hcall : watched (n + 1) (.call function arguments) m =
      if orderlyCall (watched n) n function arguments m then
        callFunction (watched n) n function arguments m
      else (.error .exhausted, m) := rfl
    by_cases horderly : orderlyCall (watched n) n function arguments m
    · rw [hcall, if_pos horderly]
      refine ⟨rfl, fun _ _ h => ?_⟩
      cases h
      exact horderly
    · rw [hcall, if_neg horderly] at hserved
      exact absurd rfl hserved
  | resume | close | invoke => exact ⟨rfl, nofun⟩

theorem chain_watched (r : Request) (hserved : (watched (n + 1) r m).1 ≠ .error .exhausted) :
    Chain (m.fiber (r.flow m)).Holds (chronicle (watched n) n m r)
      ((watched (n + 1) r m).2.fiber (r.flow m)).Holds := by
  obtain ⟨hserve, horderly⟩ := watched_served hserved
  have hkeeps := quiet_watched (n + 1) r m hm
  rw [hserve] at hkeeps ⊢
  cases r with
  | call function arguments => exact chain_call hm (quiet_watched n) (horderly _ _ rfl)
  | resume f arguments => exact chain_resume hm (quiet_watched n) f arguments
  | close f => exact chain_close hm (quiet_watched n) f
  | invoke id site arguments method =>
    exact .nil (Fiber.Holds.congr (congrArg Fiber.frames (hkeeps.fiber _ trivial hm.busy_current)))

omit hm in
/-- The turns of a request that is served go the same way with an engine that agrees. -/
theorem entries_eq {E' : Engine} (hE : Agrees E E')
    (hserved : (serve E n r m).1 ≠ .error .exhausted) {t : Turn} (ht : t ∈ turns E n m r) :
    t.entries E' (r.flow m) = t.entries E (r.flow m) := by
  refine congrArg Prod.snd (refines_recordRound hE t.fuel t.limit t.executed t.ip t.machine fun h => ?_)
  have hplain : (recordRound E (r.flow m) t.fuel t.limit t.executed t.ip t.machine).1 =
      Exec.round E (r.flow m) t.fuel t.limit t.executed t.ip t.machine :=
    congrFun (plain_recordRound _ _ _ _) _
  rw [hplain] at h
  rcases hround : Exec.round E (r.flow m) t.fuel t.limit t.executed t.ip t.machine with ⟨_, m'⟩
  rw [hround] at h
  obtain rfl := h
  exact hserved (congrArg Prod.fst ((serve_of_round ht hround).2 rfl))

omit hm in
theorem chronicle_eq (hserved : (watched (n + 1) r m).1 ≠ .error .exhausted) :
    chronicle (engine n) n m r = chronicle (watched n) n m r := by
  have hserve : (serve (watched n) n r m).1 ≠ .error .exhausted := (watched_served hserved).1 ▸ hserved
  have hturns : (turns (engine n) n m r).flatMap (fun t => t.entries (engine n) (r.flow m)) =
      (turns (watched n) n m r).flatMap fun t => t.entries (watched n) (r.flow m) := by
    rw [turns_eq (agrees_watched n) hserve]
    exact List.flatMap_congr fun t ht => entries_eq (agrees_watched n) hserve ht
  cases r with
  | call | resume | invoke => exact hturns
  | close f =>
    unfold chronicle
    dsimp only
    split
    case isTrue hf =>
      have hclose := (close_of_suspended (E := watched n) (n := n) hf).trans
        (closeSuspended_eq (watched n) f n m)
      refine congrArg (fun q => q.2.map Entry.closed)
        (refines_releaseFrames (agrees_watched n) n (m.begun f) fun h => hserve ?_)
      have hplain : (releaseFrames (watched n) f n (m.begun f)).1 = _ := congrFun (plain_releaseFrames n) _
      rw [hplain] at h
      change (Exec.close (watched n) n f m).1 = _
      rw [hclose, h]
      rfl
    case isFalse => rfl

end Serving

theorem Course.chain {f : FiberId} {m : Machine} (h : Course f m log) :
    Chain (m.fiber f).Holds log fun _ => False := by
  induction h with
  | done => exact .nil fun _ => False.elim
  | apart h _ ih =>
    refine ih.mono fun place hplace => ?_
    rw [Fiber.Holds, h] at hplace
    exact hplace
  | @serves n m log r hm hflow hserved _ ih =>
    subst hflow
    rw [chronicle_eq hserved]
    rw [agrees_watched (n + 1) r m hserved] at ih
    exact (chain_watched hm r hserved).append ih

/-- In the course of a flow no variable is closed twice for one store. If what a slot of one of its
calls holds is finalized, and later again, then something has been stored in the slot meanwhile, or the
first time was a store that failed. The record that tells so is that of the rounds as they are. -/
theorem closed_once {f : FiberId} {m : Machine} {log : List Entry} (h : Course f m log) :
    (∀ k n limit executed ip, (recordRound (engine k) f n limit executed ip).plain =
      Exec.round (engine k) f n limit executed ip) ∧
    ∀ before c between c' after place, log = before ++ c :: between ++ c' :: after →
      c.Closes place → c'.Closes place →
        c.Fails ∨ c.Fills place ∨ ∃ e ∈ between, e.Fills place := by
  refine ⟨fun k n limit executed ip => plain_recordRound n limit executed ip, ?_⟩
  rintro before c between c' after place rfl hc hc'
  exact h.chain.closes_again hc hc'

section Rebinding

def rebindingFrame : Frame where
  entry := 0
  base := 2
  locals := #[some ⟨0⟩]
  isEntry := true
  blocks := [[.localVar "x" 0 false true]]
  pending := [0]

/-- A machine with a coroutine that is suspended before a store to its variable. The finalizer of the
value that it holds fails. -/
def rebinding : Machine where
  code := { instructions := #[{ op := .storeLocal, symbol := some (.localVar "x" 0 false true) }] }
  heap := faltering.heap
  fibers := #[{ status := .main, owner := ⟨0⟩ }, {
    values := #[.closure ⟨0⟩, .ofNat 0], frames := #[rebindingFrame]
    status := .suspended, savedIp := some 0, owner := ⟨1⟩ }]

def rebindingRun (frame : Frame) : Machine :=
  { rebinding with
    fibers := #[{ status := .main, owner := ⟨0⟩ }, {
      values := #[.closure ⟨0⟩, .ofNat 0, .tuple []], frames := #[frame]
      status := .running, owner := ⟨1⟩, nesting := 1 }]
    active := [⟨1⟩] }

def rebindingTaken : Frame := { rebindingFrame with locals := #[none], blocks := [[]], pending := [] }

def rebindingError : Fault := .complain (.badArgument 2 "error" "number expected")

def rebindingAssignment : Assignment :=
  ⟨0, .localVar "x" 0 false true, .nil, .table ⟨1⟩, rebindingRun rebindingFrame,
    .error (.fault (.runtime falteringError)), rebindingRun rebindingFrame⟩

def rebindingRelease : Release :=
  ⟨0, .localVar "x" 0 false true, .table ⟨1⟩, .table ⟨1⟩, rebindingRun rebindingTaken,
    .error (.fault rebindingError), rebindingRun rebindingTaken⟩

theorem sound_rebinding : Sound rebinding :=
  ⟨⟨by decide, rfl⟩, List.forall_mem_nil _⟩

theorem course_rebinding :
    Course ⟨1⟩ rebinding [.assigned rebindingAssignment, .closed rebindingRelease] := by
  have hserved : (watched 10 (.resume ⟨1⟩ []) rebinding).1 ≠ .error .exhausted :=
    fun h => absurd (congrArg Ending.of h) (by decide +kernel)
  have hchronicle : chronicle (engine 9) 9 rebinding (.resume ⟨1⟩ []) =
      [.assigned rebindingAssignment, .closed rebindingRelease] := rfl
  have h : Course ⟨1⟩ rebinding (chronicle (engine 9) 9 rebinding (.resume ⟨1⟩ []) ++ []) :=
    .serves sound_rebinding rfl hserved .done
  rwa [hchronicle] at h

theorem closes_rebinding : Entry.Closes (0, 0) (.assigned rebindingAssignment) ∧
    Entry.Closes (0, 0) (.closed rebindingRelease) :=
  ⟨⟨rfl, rfl⟩, ⟨rfl, rfl⟩⟩

theorem rebinding_closes_again :
    Course ⟨1⟩ rebinding [.assigned rebindingAssignment, .closed rebindingRelease] ∧
    Entry.Closes (0, 0) (.assigned rebindingAssignment) ∧ Entry.Closes (0, 0) (.closed rebindingRelease) ∧
    (Entry.Fails (.assigned rebindingAssignment) ∨ Entry.Fills (0, 0) (.assigned rebindingAssignment) ∨
      ∃ e ∈ ([] : List Entry), e.Fills (0, 0)) :=
  ⟨course_rebinding, closes_rebinding.1, closes_rebinding.2,
    (closed_once course_rebinding).2 [] _ [] _ [] _ rfl closes_rebinding.1 closes_rebinding.2⟩

/-- A store that fails because the finalizer of the old value does leaves that value where it is, and
it is closed again when the frame is left. -/
theorem rebinding_closed_twice :
    Course ⟨1⟩ rebinding [.assigned rebindingAssignment, .closed rebindingRelease] ∧
    rebindingAssignment.request = some (.call (.native ⟨0⟩) [.table ⟨1⟩, .nil]) ∧
    rebindingRelease.request = some (.call (.native ⟨0⟩) [.table ⟨1⟩, .table ⟨1⟩]) ∧
    ¬ Entry.Fills (0, 0) (.assigned rebindingAssignment) :=
  ⟨course_rebinding, rfl, rfl, nofun⟩

end Rebinding

end ScriptMachine
