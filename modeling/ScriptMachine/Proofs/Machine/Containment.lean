import ScriptMachine.Proofs.Machine.Shielding

namespace ScriptMachine

open Exec

/-- Whether the innermost error handler of some calls, if there is any, reports a status. -/
def Heap.catches (h : Heap) (calls : List Frame) : Bool :=
  (calls.filterMap fun frame => frame.handlers.onError).head?.all h.answersStatus

namespace Turn

/-- Whether the next instruction, if it ends a function under protection, returns no request. -/
def returnsValue (t : Turn) (f : FiberId) : Bool :=
  match (t.machine.fiber f).frames.back?, t.machine.code.get? t.ip with
  | some frame, some i =>
    !(frame.handlers.continuation.any t.machine.heap.answersStatus && i.op == .ret &&
      i.number == 1) || (t.machine.fiber f).values.back?.all fun v => !v.isRequest
  | _, _ => true

/-- Whether an error that the next instruction raises is met first by a handler that reports a
status. -/
def isCaught (t : Turn) (E : Engine) (f : FiberId) : Bool :=
  match step E f t.fuel t.limit t.executed t.ip t.machine with
  | (.error (.fault (.runtime _)), m) => m.heap.catches (m.fiber f).calls
  | _ => true

def contained (t : Turn) (E : Engine) (f : FiberId) : Bool := t.returnsValue f && t.isCaught E f

end Turn

namespace Exec

/-- The run fails in a way that scripts cannot catch, or it yields. -/
def GivesUp : Except Stop Value → Prop
  | .ok v => ∃ items forced, v = .yieldRequest items forced
  | .error s => s.isCatchable = false

/-- The flow has some calls under way, and a status on top of its values. -/
def Reported (f : FiberId) (calls : List Frame) (m : Machine) : Prop :=
  (m.fiber f).calls = calls ∧ ∃ v, (m.fiber f).values.back? = some v ∧ v.isStatus

/-- A run of the loop brings a status to the frames that a call returns to. If it returns to native
code, the status is the result of the run. -/
def Resolves (E : Engine) (f : FiberId) (returnTo : Option Nat) (outer : List Frame) (fuel : Nat)
    (limit : Option Nat) (executed ip : Nat) (m : Machine) : Prop :=
  match returnTo with
  | some target => ∃ t ∈ trace E f fuel limit executed ip m, t.ip = target ∧
    Reported f outer t.machine
  | none => ∃ v, (loop E f fuel limit executed ip m).1 = .ok v ∧ v.isStatus

end Exec

namespace Shield

variable {s : Shield} {m m₀ : Machine} {own : List Frame} {E : Engine}

section Unwinding

variable {frame : Frame}

theorem catches_congr {h : Heap} {own' : List Frame}
    (hmap : own'.map Frame.handlers = own.map Frame.handlers) : h.catches own' = h.catches own := by
  have hfilter (frames : List Frame) : frames.filterMap (fun frame => frame.handlers.onError) =
      (frames.map Frame.handlers).filterMap Handlers.onError := by
    rw [List.filterMap_map]
    rfl
  rw [Heap.catches, Heap.catches, hfilter, hfilter, hmap]

theorem catches_of_append {h : Heap} {outer : List Frame} (hcatch : h.catches (own ++ outer)) :
    h.catches own := by
  rw [Heap.catches, List.filterMap_append] at hcatch
  rw [Heap.catches]
  cases hown : own.filterMap fun frame => frame.handlers.onError with
  | nil => rfl
  | cons id ids =>
    rw [hown] at hcatch
    exact hcatch

theorem isEmpty_frames {S : Stop → Machine → Prop} :
    Triple (s.Sits m₀ own) (readFiber s.fiber fun b => b.frames.isEmpty)
      (fun empty m => empty = false ∧ s.Sits m₀ own m) S := by
  refine .read fun m hm => ⟨?_, hm⟩
  obtain ⟨top, -, hcalls⟩ := calls_of_sits hm
  have hsize := Fiber.size_frames (m.fiber s.fiber)
  rw [hcalls, List.length_append, List.length_cons] at hsize
  rw [Array.isEmpty_eq_false_iff]
  intro hempty
  rw [hempty] at hsize
  simp at hsize

theorem catchError_lands (hA : Answers E) (n : Nat) (e : RuntimeError) (hlike : s.guard.Like frame) :
    Triple s.Past (do
      if !frame.isNative then popArguments s.fiber
      push s.fiber (← E (.invoke s.onError ⟨s.fiber, frame.calledFrom⟩ [e.toValue] false))
      settle (performCall E s.fiber n) s.fiber frame.returnTo frame.isEntry)
      (s.Lands m₀) (fun stop _ => stop.isCatchable = false) := by
  refine .first s.steady_past.popArguments fun _ => ?_
  rw [hlike.returnTo]
  exact .bind ((hA _ _ _ _ s.Past).before fun _ h => ⟨h.armed.onError, h⟩) fun _ => .given
    fun hv => deliver hv _ _

theorem answerError_lands (hA : Answers E) (n : Nat) (e : RuntimeError) {handler : NativeId}
    (hhandler : m₀.heap.answersStatus handler)
    (hroute : (s.footing m₀).Route own frame.returnTo frame.isEntry) : Triple (s.Sits m₀ own) (do
      if !frame.isNative then popArguments s.fiber
      push s.fiber (← E (.invoke handler ⟨s.fiber, frame.calledFrom⟩ [e.toValue] false))
      settle (performCall E s.fiber n) s.fiber frame.returnTo frame.isEntry)
      (s.Lands m₀) (fun stop _ => stop.isCatchable = false) := by
  have hsteady : Steady s.fiber (s.Sits m₀ own) := steady_sits own
  refine .first hsteady.popArguments fun _ => ?_
  refine .bind ((hA _ _ _ _ (s.Sits m₀ own)).before
    fun _ h => ⟨h.alone.keeps.natives.answersStatus hhandler, h⟩) fun v => .given fun hv =>
      .bind (hsteady.push v) fun _ =>
      (settle_status hv _ _ _).after ?_
  rintro _ m ⟨rfl, -, hm⟩
  exact .of_footing (Footing.lands_after hroute (Sits.of_footing hm))

/-- Errors are unwound as far as the protected call at most. -/
theorem unwindFrames_lands (hE : Quiet E) (hA : Answers E) (harmed : s.Armed m₀) (n : Nat)
    (e : RuntimeError) (hcatch : m₀.heap.catches own) :
    Triple (s.Sits m₀ own) (unwindFrames E s.fiber n e) (s.Lands m₀)
      (fun stop _ => stop.isCatchable = false) := by
  induction n generalizing own e with
  | zero => exact .throw fun _ _ => rfl
  | succ n ih =>
    refine .bind isEmpty_frames fun empty => .given fun hempty => ?_
    subst hempty
    rw [if_neg Bool.false_ne_true]
    refine Triple.bind (Q := fun _ m => ∃ own', own'.map Frame.handlers = own.map Frame.handlers ∧
      s.Sits m₀ own' m) (.attempt (closeBlocks_sits hE _ n)) fun r => .exists_ fun own' =>
        .given fun hmap => ?_
    rw [← catches_congr hmap] at hcatch
    rcases r with ((raised | _) | _) | _
    case error.fault.runtime =>
      exact .bind ((steady_sits own').undisturbed (detached_emit _ rfl).undisturbed (mild_emit _)) fun _ =>
        ih _ hcatch
    case ok =>
      cases own' with
      | nil =>
        refine .bind (popFrame_past harmed) fun frame => .given fun hlike => ?_
        rw [hlike.handlers, s.catches]
        exact catchError_lands hA n e hlike
      | cons frame own =>
        refine .bind (Footing.popFrame_left.mild (mild_popFrame _)) fun popped =>
          .given fun hpopped => ?_
        obtain ⟨rfl, hroute⟩ := hpopped
        cases hhandler : popped.handlers.onError with
        | some handler =>
          rw [Heap.catches, List.filterMap_cons, hhandler] at hcatch
          exact (answerError_lands hA n e hcatch hroute).before fun _ h => Sits.of_footing h
        | none =>
          rw [Heap.catches, List.filterMap_cons, hhandler] at hcatch
          have hentry : popped.isEntry = false := by
            cases own with
            | nil => exact hroute.2.1
            | cons caller own => exact hroute.2.1
          dsimp only
          rw [hentry, if_neg Bool.false_ne_true]
          exact (ih e hcatch).before (fun _ h => Sits.of_footing h)
    all_goals exact .throw fun _ _ => rfl

theorem unwind_lands (hE : Quiet E) (hA : Answers E) (harmed : s.Armed m₀) (fuel : Nat)
    (e : RuntimeError) (ip : Nat) (hcatch : m₀.heap.catches own) :
    Triple (s.Sits m₀ own) (unwind E s.fiber fuel e ip) (s.Lands m₀)
      (fun stop _ => stop.isCatchable = false) := by
  have hsteady : Steady s.fiber (s.Sits m₀ own) := steady_sits own
  have hmessages (handlers : List Value) (e : RuntimeError) := hsteady.undisturbed
    (.foldlM (l := handlers) (fun e handler => undisturbed_handledError hE handler e) e)
    (.foldlM (fun e handler => mild_handledError E handler e) e)
  exact .bind (hsteady.undisturbed (.read _) (.read _)) fun _ =>
    .bind (hsteady.undisturbed (observes_reportError _ _ _).aside.undisturbed (observes_reportError _ _ _).mild)
      fun _ => .bind (hsteady.undisturbed (.readFiber _ _) (.readFiber _ _)) fun handlers =>
        .bind (hmessages handlers _) fun e => unwindFrames_lands hE hA harmed fuel e hcatch

end Unwinding

section Rounds

variable {limit : Option Nat} {executed ip n : Nat}

/-- The protected call is under way, and its handlers report a status. -/
structure Stands (s : Shield) (own : List Frame) (m : Machine) : Prop where
  sits : s.Sits m own m
  armed : s.Armed m

theorem routed_rebase (h : (s.footing m₀).Routed own) : (s.footing m).Routed own := by
  induction own with
  | nil => trivial
  | cons frame own ih =>
    refine ⟨?_, ih h.2⟩
    cases own <;> exact h.1

theorem Sits.stands (h : s.Sits m₀ own m) (harmed : s.Armed m₀) : s.Stands own m where
  sits := { h with alone := .refl _ _, routed := routed_rebase h.routed, piled := fun hv => hv.elim }
  armed := harmed.alone h.alone

/-- A protected call that returns to some frames is under way. -/
def Covers (f : FiberId) (returnTo : Option Nat) (outer : List Frame) (m : Machine) : Prop :=
  ∃ (s : Shield) (own : List Frame), s.fiber = f ∧ s.guard.returnTo = returnTo ∧ s.outer = outer ∧
    (s.footing m).Open own ∧ s.Stands own m

def Rounds (f : FiberId) (returnTo : Option Nat) (outer : List Frame) : Round → Machine → Prop
  | .again _ ip, m => Covers f returnTo outer m ∨ returnTo = some ip ∧ Reported f outer m
  | .leave, m => returnTo = none ∧ Reported f outer m ∨
    ∃ items forced, (m.fiber f).values.back? = some (.yieldRequest items forced)

theorem Delivered.reported (h : s.Delivered m) : Reported s.fiber s.outer m := ⟨h.2.calls, h.1⟩

theorem Sits.covers (h : s.Sits m₀ own m) (harmed : s.Armed m₀) (hopen : (s.footing m₀).Open own) :
    Covers s.fiber s.guard.returnTo s.outer m :=
  ⟨s, own, rfl, rfl, rfl, hopen, Sits.stands h harmed⟩

theorem Lands.rounds (harmed : s.Armed m₀) {r : Resumption} (h : s.Lands m₀ r m) (limit : Option Nat)
    (ip : Nat) :
    Rounds s.fiber s.guard.returnTo s.outer (.following limit ip (.transfer r)) m := by
  cases r with
  | jump target =>
    rcases h with ⟨own, hopen, hsits⟩ | ⟨hreturn, hdelivered⟩
    · exact .inl (Sits.covers hsits harmed hopen)
    · exact .inr ⟨hreturn, hdelivered.reported⟩
  | done => exact .inl ⟨h.1, h.2.reported⟩
  | yielded => exact .inr h

theorem recover_rounds (hE : Quiet E) (hA : Answers E) (hm : s.Stands own m) (fuel : Nat)
    (e : RuntimeError) (ip : Nat) (hcatch : m.heap.catches own) :
    Triple (· = m) (recover E s.fiber fuel e ip) (Rounds s.fiber s.guard.returnTo s.outer)
      (fun stop _ => stop.isCatchable = false) := by
  refine .bind ((unwind_lands hE hA hm.armed fuel e ip hcatch).before fun _ h => h ▸ hm.sits)
    fun r => ?_
  cases r with
  | jump target =>
    exact Triple.bind (Q := fun _ => s.Lands m (.jump target)) (.read fun _ h => h) fun limit =>
      .pure fun _ h => h.rounds hm.armed limit ip
  | done => exact .pure fun _ h => h.rounds hm.armed none ip
  | yielded => exact .pure fun _ h => h.rounds hm.armed none ip

theorem Stands.returning (hm : s.Stands [] m)
    (hreturns : Turn.returnsValue ⟨n, limit, executed, ip, m⟩ s.fiber) {i : Instruction}
    (hi : m.code.get? ip = some i) (hret : i.op = .ret) : s.Returning m i m := by
  refine ⟨fun hone v hv => ?_, hm.sits⟩
  obtain ⟨top, hlike, hcalls⟩ := calls_of_sits hm.sits
  have hback : (m.fiber s.fiber).frames.back? = some top := by
    rw [Fiber.back?_frames, hcalls]
    rfl
  have hcontinues : top.handlers.continuation = some s.continuation := by
    rw [hlike.handlers, s.continues]
  simpa [Turn.returnsValue, hback, hi, hcontinues, hm.armed.continuation, hret, hone, hv]
    using hreturns

theorem round_rounds (hE : Quiet E) (hA : Answers E) (hm : s.Stands own m)
    (hopen : (s.footing m).Open own) (hturn : Turn.contained ⟨n, limit, executed, ip, m⟩ E s.fiber) :
    Triple (· = m) (Exec.round E s.fiber n limit executed ip)
      (Rounds s.fiber s.guard.returnTo s.outer) (fun stop _ => stop.isCatchable = false) := by
  rintro _ rfl
  rw [Turn.contained, Bool.and_eq_true] at hturn
  obtain ⟨hreturns, hcaught⟩ := hturn
  have hflows := step_flows hE hA hm.armed n limit executed ip hopen hm.sits
    (fun hown i hi hret => by subst hown; exact hm.returning hreturns hi hret) _ rfl
  rcases hstep : step E s.fiber n limit executed ip _ with ⟨stop | flow, m'⟩ <;>
    rw [hstep] at hflows
  · rcases stop with (e | _) | _
    · obtain ⟨own', hsits⟩ := hflows.resolve_right nofun
      obtain ⟨top, -, hcalls⟩ := calls_of_sits hsits
      simp only [Turn.isCaught, hstep, hcalls] at hcaught
      rw [round_of_runtime hstep]
      exact recover_rounds hE hA (Sits.stands hsits hm.armed) n e ip (catches_of_append hcaught) m' rfl
    all_goals
      rw [round_of_error hstep rfl]
      rfl
  · rw [round_of_ok hstep]
    cases flow with
    | next =>
      obtain ⟨own', hopen', hsits⟩ := hflows
      exact .inl (Sits.covers hsits hm.armed hopen')
    | transfer r => exact hflows.rounds hm.armed limit ip

variable {f : FiberId} {returnTo : Option Nat} {outer : List Frame}

theorem outcome_pop {v : Value} (hv : (m.fiber f).values.back? = some v) : (pop f m).1 = .ok v := by
  have hread : readFiber f (fun b => b.values.back?) m = (.ok (some v), m) := by
    rw [readFiber_apply, hv]
  rw [pop, bind_ok hread]
  rfl

/-- After a round that keeps to the protection, it is up to the rest of the run. -/
theorem resolves_of_round {r : Round} {m' : Machine}
    (hround : Exec.round E f n limit executed ip m = (.ok r, m'))
    (hrounds : Rounds f returnTo outer r m')
    (hrest : ∀ limit' ip', r = .again limit' ip' → Covers f returnTo outer m' →
      GivesUp (loop E f n limit' (counted limit executed) ip' m').1 ∨
        Resolves E f returnTo outer n limit' (counted limit executed) ip' m') :
    GivesUp (loop E f (n + 1) limit executed ip m).1 ∨
      Resolves E f returnTo outer (n + 1) limit executed ip m := by
  unfold Resolves at hrest ⊢
  rw [loop_succ, trace, bind_ok hround, hround]
  cases r with
  | again limit' ip' =>
    dsimp only
    rcases hrounds with hcovers | ⟨rfl, hreported⟩
    · refine (hrest limit' ip' rfl hcovers).imp_right fun h => ?_
      split at h
      · obtain ⟨t, ht, hresult⟩ := h
        exact ⟨t, List.mem_cons_of_mem _ ht, hresult⟩
      · exact h
    · cases n with
      | zero => exact .inl rfl
      | succ n =>
        refine .inr ⟨⟨n, limit', counted limit executed, ip', m'⟩, ?_, rfl, hreported⟩
        exact List.mem_cons_of_mem _ List.mem_cons_self
  | leave =>
    rcases hrounds with ⟨rfl, -, v, htop, hv⟩ | ⟨items, forced, htop⟩
    · exact .inr ⟨v, outcome_pop htop, hv⟩
    · refine .inl ?_
      dsimp only
      rw [outcome_pop htop]
      exact ⟨items, forced, rfl⟩

/-- A run of the loop that starts under protection ends with the protected call, if no function
under protection returns a request and only protected calls handle errors. -/
theorem loop_resolves (hE : Quiet E) (hA : Answers E) (hm : Covers f returnTo outer m)
    (hturns : ∀ t ∈ trace E f n limit executed ip m, t.contained E f) :
    GivesUp (loop E f n limit executed ip m).1 ∨
      Resolves E f returnTo outer n limit executed ip m := by
  induction n generalizing limit executed ip m with
  | zero => exact .inl rfl
  | succ n ih =>
    obtain ⟨s, own, rfl, rfl, rfl, hopen, hm⟩ := hm
    rw [trace, List.forall_mem_cons] at hturns
    obtain ⟨hturn, hturns⟩ := hturns
    have hrounds := round_rounds hE hA hm hopen hturn m rfl
    rcases hround : Exec.round E s.fiber n limit executed ip m with ⟨stop | r, m'⟩ <;>
      rw [hround] at hrounds hturns
    · rw [loop_succ, bind_error hround]
      exact .inl hrounds
    · refine resolves_of_round hround hrounds fun limit' ip' hr hcovers => ih hcovers ?_
      subst hr
      exact hturns

end Rounds

end Shield

end ScriptMachine
