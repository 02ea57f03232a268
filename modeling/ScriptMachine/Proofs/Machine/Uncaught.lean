import ScriptMachine.Proofs.Machine.Agreement
import ScriptMachine.Proofs.Machine.Lifetimes

namespace ScriptMachine

open Exec Machine Likeness

/-- The flow whose loop serves a request. -/
def Request.flow (m : Machine) : Request → FiberId
  | .resume f _ | .close f => f
  | _ => m.currentFiber

/-- What is made of the machine that is left when a request is given up: a host call cuts its stacks
back, and a coroutine is dead. -/
def Request.abandon : Request → Machine → Machine → Machine
  | .call _ _, m, p =>
    let f := m.currentFiber
    (reportEnd f ((p.withFiber f fun b => { b with
      canYield := (m.fiber f).canYield
      values := b.values.shrink (m.fiber f).values.size
      frames := b.frames.shrink (m.fiber f).frames.size }).exited f)).2
  | .resume f _, _, p => (p.withFiber f fun b => { b with status := .dead }).exited f
  | .close f, _, p => (p.withFiber f fun b =>
      { b with values := #[], frames := #[], savedIp := none, status := .dead }).exited f
  | .invoke _ _ _ _, _, p => p

namespace Exec

/-- An outcome comes up while a request is served, in an instruction, in the unwinding after an
error, or when a call, a resumption or a closing is set up. -/
inductive Raises (E : Engine) (k : Nat) (m : Machine) (s : Stop) (p : Machine) : Request → Prop
  | instruction {r : Request} {t : Turn} (ht : t ∈ turns E k m r)
      (h : step E (r.flow m) t.fuel t.limit t.executed t.ip t.machine = (.error s, p)) :
      Raises E k m s p r
  | unwinding {r : Request} {t : Turn} {e : RuntimeError} {m' : Machine} (ht : t ∈ turns E k m r)
      (hstep : step E (r.flow m) t.fuel t.limit t.executed t.ip t.machine =
        (.error (.fault (.runtime e)), m'))
      (h : unwind E (r.flow m) t.fuel e t.ip m' = (.error s, p)) : Raises E k m s p r
  | call {function : Value} {arguments : List Value}
      (h : beginCall E m.currentFiber k function arguments (m.prepared m.currentFiber) =
        (.error s, p)) : Raises E k m s p (.call function arguments)
  | resume {f : FiberId} {arguments : List Value} (hf : (m.fiber f).status.isResumable)
      (haccepts : (m.fiber f).status.accepts arguments)
      (h : beginResume E f k arguments (m.fiber f).status (m.begun f) = (.error s, p)) :
      Raises E k m s p (.resume f arguments)
  | close {f : FiberId} (hf : (m.fiber f).status = .suspended ∨ (m.fiber f).status = .forceSuspended)
      (h : closeFrames E f k (m.begun f) = (.error s, p)) : Raises E k m s p (.close f)

/-- An outcome comes up in a request, at any depth. The requests on the way are listed, with the
machines that they find. -/
inductive RaisedIn (s : Stop) (p : Machine) : Nat → Request → Machine → List (Request × Machine) → Prop
  | answer {n r m} (h : engine n r m = (.error s, p)) : RaisedIn s p n r m []
  | here {k r m} (h : Raises (engine k) k m s p r) : RaisedIn s p (k + 1) r m [(r, m)]
  | nested {k r m r' m' path} (h : Asks (serve · k r) (engine k) m r' m')
      (hr : RaisedIn s p k r' m' path) : RaisedIn s p (k + 1) r m ((r, m) :: path)

end Exec

section Abandoning

variable {E E' : Engine} {k n : Nat} {m m' p : Machine} {s : Stop} {f : FiberId} {r r' : Request}
  {arguments : List Value} {function : Value} {t : Turn}

theorem loop_of_round {limit : Option Nat} {executed ip : Nat}
    (ht : t ∈ trace E f n limit executed ip m)
    (h : Exec.round E f t.fuel t.limit t.executed t.ip t.machine = (.error s, p)) :
    loop E f n limit executed ip m = (.error s, p) ∧
      (trace E f n limit executed ip m).getLast? = some t := by
  induction n generalizing limit executed ip m with
  | zero => cases ht
  | succ n ih =>
    rw [trace, List.mem_cons] at ht
    rw [loop_succ, trace]
    rcases ht with rfl | ht
    · rw [bind_error h, h]
      exact ⟨rfl, rfl⟩
    · rcases hrun : Exec.round E f n limit executed ip m with ⟨s' | r, m'⟩ <;> rw [hrun] at ht
      · cases ht
      · cases r with
        | leave => cases ht
        | again limit' ip' =>
          obtain ⟨hloop, hlast⟩ := ih ht
          rw [bind_ok hrun]
          refine ⟨hloop, ?_⟩
          rw [List.getLast?_cons, hlast]
          rfl

def Turn.ends (t : Turn) (E : Engine) (f : FiberId) : Except Stop Flow × Machine :=
  step E f t.fuel t.limit t.executed t.ip t.machine

section

variable (hs : s.isCatchable = false) {limit : Option Nat} {executed ip : Nat} {t : Turn}
include hs

theorem ends_of_mem_trace (hloop : (loop E f n limit executed ip m).1 ≠ .error s)
    (ht : t ∈ trace E f n limit executed ip m) : (t.ends E f).1 ≠ .error s := by
  intro hstop
  have hround := round_of_error (show t.ends E f = (.error s, (t.ends E f).2) from Prod.ext hstop rfl) hs
  exact hloop (congrArg Prod.fst (loop_of_round ht hround).1)

theorem ends_of_agree (hE : (unlessStopped s).Agree E E')
    (hloop : (loop E f n limit executed ip m).1 ≠ .error s)
    (ht : t ∈ trace E f n limit executed ip m) : t.ends E' f = t.ends E f := by
  have hstep := alike_step (f := f) (m := t.machine) hE (.inl (rfl : t.fuel = t.fuel)) t.ip
    t.limit t.executed trivial fun _ => trivial
  exact (hstep.alikeAt fun _ _ _ => trivial).eq_of_ne (ends_of_mem_trace hs hloop ht)

end

theorem call_abandoned
    (h : hostCall E m.currentFiber k function arguments (m.prepared m.currentFiber) = (.error s, p)) :
    serve E k (.call function arguments) m =
      (.error s, Request.abandon (.call function arguments) m p) := by
  have hentered {α : Type} (g : Fiber → α) (hg : ∀ b n, g { b with nesting := n } = g b) :
      g ((m.entered m.currentFiber).fiber m.currentFiber) = g (m.fiber m.currentFiber) := by
    rw [fiber_entered]
    exact fiber_withFiber_of (v := g) (hg _ _) _
  rw [serve, callFunction_apply, ensuring_apply fun m' => (reportEnd_apply m.currentFiber m').1,
    entering_apply, guarded_apply, ← prepared, h, hentered Fiber.canYield fun _ _ => rfl]
  refine congrArg (fun q => (Except.error s, (reportEnd m.currentFiber (exited q _)).2)) ?_
  dsimp only
  rw [hentered (fun b => b.values.size) fun _ _ => rfl, hentered (fun b => b.frames.size) fun _ _ => rfl]
  exact p.withFiber_withFiber m.currentFiber _ _

theorem resume_abandoned (hf : (m.fiber f).status.isResumable)
    (haccepts : (m.fiber f).status.accepts arguments)
    (h : proceed E f k arguments (m.fiber f).status (m.begun f) = (.error s, p))
    (hs : s.isCatchable = false) : serve E k (.resume f arguments) m =
      (.error s, Request.abandon (.resume f arguments) m p) := by
  have hconclude : concludeResume f (.error s) p =
      (.error s, p.withFiber f fun b => { b with status := .dead }) := by
    rcases s with (_ | _) | _
    · cases hs
    all_goals rfl
  refine (resume_apply hf _ ((runResumed_of_accepts haccepts).trans h)).trans ?_
  rw [hconclude]
  rfl

theorem close_abandoned
    (hf : (m.fiber f).status = .suspended ∨ (m.fiber f).status = .forceSuspended)
    (h : closeFrames E f k (m.begun f) = (.error s, p)) (hs : s.isCatchable = false) :
    serve E k (.close f) m = (.error s, Request.abandon (.close f) m p) := by
  have hclose : serve E k (.close f) m = closeSuspended E k f m := by
    refine (close_apply E f k m).trans ?_
    rcases hf with hf | hf <;> rw [hf]
  rw [hclose, closeSuspended, entering_apply, setStatus, bind_ok (modifyFiber_apply _ _ _),
    ← begun, bind_ok (attempt_apply h), bind_ok (modifyFiber_apply _ _ _)]
  rcases s with (_ | _) | _
  · cases hs
  all_goals rfl

/-- Engines that differ only where the first one fails in a way that cannot be caught. -/
theorem agree_of_asks (honly : ∀ r₁ m₁, E' r₁ m₁ ≠ E r₁ m₁ → r₁ = r' ∧ m₁ = m')
    (he : E r' m' = (.error s, p)) (hs : s.isCatchable = false) :
    (sameUnless fun s' q => s' = s ∧ q = p).Agree E E' := by
  refine fun r₁ m₁ _ => ⟨trivial, fun _ => ?_⟩
  by_cases hdiff : E' r₁ m₁ = E r₁ m₁
  · exact .inr hdiff
  · obtain ⟨rfl, rfl⟩ := honly r₁ m₁ hdiff
    rw [SameAt, he]
    exact .inl ⟨s, rfl, hs, rfl, rfl⟩

section Congruence

variable (E E' k m)

theorem callFunction_congr
    (h : hostCall E' m.currentFiber k function arguments (m.prepared m.currentFiber) =
      hostCall E m.currentFiber k function arguments (m.prepared m.currentFiber)) :
    callFunction E' k function arguments m = callFunction E k function arguments m := by
  have hend (m' : Machine) := (reportEnd_apply m.currentFiber m').1
  rw [callFunction_apply, callFunction_apply, ensuring_apply hend, ensuring_apply hend, entering_apply,
    entering_apply, guarded_apply, guarded_apply, ← prepared, h]

theorem resume_congr (h : (m.fiber f).status.isResumable →
      (m.fiber f).status.accepts arguments →
      proceed E' f k arguments (m.fiber f).status (m.begun f) =
        proceed E f k arguments (m.fiber f).status (m.begun f)) :
    Exec.resume E' k f arguments m = Exec.resume E k f arguments m := by
  by_cases hf : (m.fiber f).status.isResumable
  · refine (resume_apply hf _ ?_).trans (resume_apply hf _ rfl).symm
    by_cases haccepts : (m.fiber f).status.accepts arguments
    · rw [runResumed_of_accepts haccepts, runResumed_of_accepts haccepts, h hf haccepts]
    · rw [runResumed_of_not_accepts haccepts, runResumed_of_not_accepts haccepts]
  · rw [resume_refused hf, resume_refused hf]

theorem close_congr (h : (m.fiber f).status = .suspended ∨ (m.fiber f).status = .forceSuspended →
      closeFrames E' f k (m.begun f) = closeFrames E f k (m.begun f)) :
    Exec.close E' k f m = Exec.close E k f m := by
  have hsuspended (hsame : closeFrames E' f k (m.begun f) = closeFrames E f k (m.begun f)) :
      closeSuspended E' k f m = closeSuspended E k f m := by
    rw [closeSuspended, closeSuspended, entering_apply, entering_apply, setStatus,
      bind_ok (modifyFiber_apply _ _ _), bind_ok (modifyFiber_apply _ _ _), ← begun,
      bind_ok (attempt_apply hsame)]
    rfl
  rw [close_apply, close_apply]
  cases hf : (m.fiber f).status with
  | suspended => exact hsuspended (h (.inl hf))
  | forceSuspended => exact hsuspended (h (.inr hf))
  | _ => rfl

end Congruence

theorem accepts_of_asks (h : Asks (serve · k (.resume f arguments)) E m r' m') :
    (m.fiber f).status.isResumable ∧ (m.fiber f).status.accepts arguments := by
  obtain ⟨E', -, hne⟩ := h
  by_contra hrefused
  exact hne (resume_congr E E' k m fun hf haccepts => absurd ⟨hf, haccepts⟩ hrefused)

theorem suspended_of_asks (h : Asks (serve · k (.close f)) E m r' m') :
    (m.fiber f).status = .suspended ∨ (m.fiber f).status = .forceSuspended := by
  obtain ⟨E', -, hne⟩ := h
  by_contra hidle
  exact hne (close_congr E E' k m fun hf => absurd hf hidle)

/-- A request is given up when one that it makes fails in a way that cannot be caught. -/
theorem serve_of_asks (h : Asks (serve · k r) E m r' m') (he : E r' m' = (.error s, p))
    (hs : s.isCatchable = false) : serve E k r m = (.error s, r.abandon m p) := by
  have hasks := h
  obtain ⟨E', honly, hne⟩ := h
  have hE := agree_of_asks honly he hs
  have hlax {α : Type} {x y : Exec α} {m : Machine}
      (hx : (sameUnless fun s' q => s' = s ∧ q = p).Alike x y) (hxy : y m ≠ x m) :
      x m = (.error s, p) := by
    rcases (hx m trivial).2 id with ⟨_, hstop, -, rfl, hq⟩ | hsame
    · exact Prod.ext hstop hq
    · exact (hxy hsame).elim
  cases r with
  | call function arguments =>
    exact call_abandoned (hlax (alike_hostCall hE (.inl rfl) function arguments).alike
      fun hsame => hne (callFunction_congr E E' k m hsame))
  | resume f arguments =>
    obtain ⟨hf, haccepts⟩ := accepts_of_asks hasks
    exact resume_abandoned hf haccepts (hlax (alike_proceed hE (.inl rfl) arguments _)
      fun hsame => hne (resume_congr E E' k m fun _ _ => hsame)) hs
  | close f =>
    exact close_abandoned (suspended_of_asks hasks) (hlax (alike_closeFrames hE (.inl rfl))
      fun hsame => hne (close_congr E E' k m fun _ => hsame)) hs
  | invoke id site arguments method => exact hlax (alike_invoke hE site _ id) hne

theorem driven_of_round {x : Exec Resumption} (ht : t ∈ drivenTurns E f k (x m))
    (h : Exec.round E f t.fuel t.limit t.executed t.ip t.machine = (.error s, p)) :
    (x >>= drive E f k) m = (.error s, p) ∧ (drivenTurns E f k (x m)).getLast? = some t := by
  rcases hrun : x m with ⟨s' | r, m'⟩ <;> rw [hrun] at ht
  · cases ht
  · cases r with
    | done => cases ht
    | yielded => cases ht
    | jump ip =>
      rw [bind_ok hrun, drive, runFrom, bind_ok (budget_apply f m')]
      exact loop_of_round ht h

/-- A turn that fails is the last one of its request. If it fails in a way that cannot be caught, the
request is given up. -/
theorem serve_of_round (ht : t ∈ turns E k m r)
    (h : Exec.round E (r.flow m) t.fuel t.limit t.executed t.ip t.machine = (.error s, p)) :
    (turns E k m r).getLast? = some t ∧
      (s.isCatchable = false → serve E k r m = (.error s, r.abandon m p)) := by
  obtain hturns | ⟨function, arguments, rfl⟩ | ⟨f, arguments, rfl, hf, haccepts, hturns⟩ :=
    turns_cases E k m r
  · exact (List.not_mem_nil (hturns ▸ ht)).elim
  · obtain ⟨hrun, hlast⟩ := driven_of_round ht h
    exact ⟨hlast, fun _ => call_abandoned hrun⟩
  · rw [hturns] at ht ⊢
    obtain ⟨hrun, hlast⟩ := driven_of_round ht h
    exact ⟨hlast, resume_abandoned hf haccepts hrun⟩

/-- A request is given up when its own code fails in a way that cannot be caught. -/
theorem serve_of_raises (h : Raises E k m s p r) (hs : s.isCatchable = false) :
    serve E k r m = (.error s, r.abandon m p) := by
  cases h with
  | instruction ht hstep => exact (serve_of_round ht (round_of_error hstep hs)).2 hs
  | unwinding ht hstep hunwind =>
    refine (serve_of_round ht ?_).2 hs
    rw [round_of_runtime hstep, recover, bind_error hunwind]
  | call h => exact call_abandoned (bind_error h)
  | resume hf haccepts h => exact resume_abandoned hf haccepts (bind_error h) hs
  | close hf h => exact close_abandoned hf h hs

/-- What cannot be caught ends every request on the way, and nothing is done but giving them up. -/
theorem engine_of_raisedIn {path : List (Request × Machine)} (h : RaisedIn s p n r m path)
    (hs : s.isCatchable = false) :
    engine n r m = (.error s, path.foldr (fun q => q.1.abandon q.2) p) := by
  induction h with
  | answer h => exact h
  | here h => exact serve_of_raises h hs
  | nested h _ ih => exact serve_of_asks h ih hs

theorem dead_of_abandon (hf : f.index < (r.abandon m p).fibers.size)
    (hr : (∃ arguments, r = .resume f arguments) ∨ r = .close f) :
    ((r.abandon m p).fiber f).status = .dead := by
  have hleft {u : Fiber → Fiber} (hsize : f.index < ((p.withFiber f u).exited f).fibers.size)
      (hu : ∀ b, (u b).status = .dead) : (((p.withFiber f u).exited f).fiber f).status = .dead := by
    rw [size_exited, withFiber, Array.size_modify] at hsize
    rw [status_exited, fiber_withFiber_self hsize, hu]
  rcases hr with ⟨arguments, rfl⟩ | rfl
  · exact hleft hf fun _ => rfl
  · exact hleft hf fun _ => rfl

end Abandoning

section Dying

variable {E : Engine} {k n : Nat} {m m' p : Machine} {s : Stop} {f : FiberId} {r r' : Request}
  {path : List (Request × Machine)}

theorem Lives.size (h : Lives m m') : m.fibers.size ≤ m'.fibers.size := by
  induction h with
  | refl => exact le_rfl
  | tail _ hstep ih => exact ih.trans hstep.size

theorem lt_size_of_suspended
    (hf : (m.fiber f).status = .suspended ∨ (m.fiber f).status = .forceSuspended) :
    f.index < m.fibers.size :=
  lt_size_of_status (by rcases hf with hf | hf <;> rw [hf] <;> nofun)

theorem lt_size_of_raises (h : Raises E k m s p r)
    (hr : (∃ arguments, r = .resume f arguments) ∨ r = .close f) : f.index < m.fibers.size := by
  have hturn {t : Turn} (ht : t ∈ turns E k m r) : f.index < m.fibers.size := by
    rcases hr with ⟨arguments, rfl⟩ | rfl
    · unfold turns at ht
      dsimp only at ht
      split at ht
      · rename_i hf
        exact lt_size_of_resumable (Bool.and_eq_true _ _ ▸ hf).1
      · cases ht
    · cases ht
  cases h with
  | instruction ht _ => exact hturn ht
  | unwinding ht _ _ => exact hturn ht
  | call _ => rcases hr with ⟨_, hr⟩ | hr <;> cases hr
  | resume hf _ _ =>
    rcases hr with ⟨_, hr⟩ | hr <;> cases hr
    exact lt_size_of_resumable hf
  | close hf _ =>
    rcases hr with ⟨_, hr⟩ | hr <;> cases hr
    exact lt_size_of_suspended hf

theorem lt_size_of_asks (h : Asks (serve · k r) E m r' m')
    (hr : (∃ arguments, r = .resume f arguments) ∨ r = .close f) : f.index < m.fibers.size := by
  rcases hr with ⟨arguments, rfl⟩ | rfl
  · exact lt_size_of_resumable (accepts_of_asks h).1
  · exact lt_size_of_suspended (suspended_of_asks h)

/-- The coroutines that were resumed or closed on the way are dead in the end. -/
theorem dead_of_raisedIn (h : RaisedIn s p n r m path) (hs : s.isCatchable = false) (hm : m.Attuned)
    (hmem : (r', m') ∈ path) (hr : (∃ arguments, r' = .resume f arguments) ∨ r' = .close f) :
    ((engine n r m).2.fiber f).status = .dead := by
  have hself {k : Nat} {r : Request} {m p : Machine} (hm : m.Attuned) (hf : f.index < m.fibers.size)
      (hr : (∃ arguments, r = .resume f arguments) ∨ r = .close f)
      (hrun : engine (k + 1) r m = (.error s, r.abandon m p)) :
      ((engine (k + 1) r m).2.fiber f).status = .dead := by
    have hlives := (engine_lives hm (k + 1) r).2
    rw [hrun] at hlives ⊢
    exact dead_of_abandon (hf.trans_le hlives.size) hr
  induction h with
  | answer _ => cases hmem
  | here h =>
    obtain ⟨rfl, rfl⟩ := Prod.mk.inj (List.mem_singleton.1 hmem)
    exact hself hm (lt_size_of_raises h hr) hr (serve_of_raises h hs)
  | nested h hinner ih =>
    rcases List.mem_cons.1 hmem with heq | hmem
    · obtain ⟨rfl, rfl⟩ := Prod.mk.inj heq
      exact hself hm (lt_size_of_asks h hr) hr (serve_of_asks h (engine_of_raisedIn hinner hs) hs)
    · obtain ⟨hattuned, -, hserved⟩ := (heeds_serve (P := fun _ _ => True) _ _).of_asks hm h
      exact hserved.lives.dead (ih hattuned hmem)

end Dying

/-- Only runtime errors can be caught. If anything else comes up in a request, at whatever depth and
under whatever handlers, then the request ends with it. Nothing is done any more to the machine as it
was then, but that the requests on the way are given up; the coroutines that they resumed or closed
are dead. A turn that fails is the last one of its loop. -/
theorem uncatchable_passes {n : Nat} {r : Request} {m p : Machine} {s : Stop}
    {path : List (Request × Machine)} (h : RaisedIn s p n r m path) (hs : s.isCatchable = false) :
    engine n r m = (.error s, path.foldr (fun q => q.1.abandon q.2) p) ∧
    (m.Attuned → ∀ f r' m', (r', m') ∈ path →
      (∃ arguments, r' = .resume f arguments) ∨ r' = .close f →
        ((engine n r m).2.fiber f).status = .dead) ∧
    ∀ k r' m' t s' p', t ∈ turns (engine k) k m' r' →
      Exec.round (engine k) (r'.flow m') t.fuel t.limit t.executed t.ip t.machine = (.error s', p') →
        (turns (engine k) k m' r').getLast? = some t :=
  ⟨engine_of_raisedIn h hs, fun hm _ _ _ => dead_of_raisedIn h hs hm,
    fun _ _ _ _ _ _ ht hround => (serve_of_round ht hround).1⟩

/-- A machine with a coroutine that has not started. Its function calls another one under protection,
and that one runs into a malformed instruction. -/
def malformed : Machine where
  code := { instructions := #[{ op := .preamble },
    { op := .literal, value := some (.native ⟨0⟩) },
    { op := .literal, value := some (.closure ⟨1⟩) },
    { op := .call, number := 1 },
    { op := .ret, number := 1 },
    { op := .preamble },
    { op := .ret, number := 2 }] }
  heap := {
    closures := #[{ entry := 0 }, { entry := 5 }]
    natives := #[{ name := "pcall", behavior := .builtin .pcall },
      { name := "resume", behavior := .builtin .resume }]
    coroutines := #[.fiber mainFiber, .fiber ⟨1⟩] }
  fibers := #[{ status := .main, owner := ⟨0⟩ },
    { values := #[.closure ⟨0⟩], status := .notStarted, owner := ⟨1⟩ }]

theorem attuned_malformed : malformed.Attuned := by
  refine ⟨⟨by decide, rfl⟩, fun f => iff_of_false (fun h => ?_) List.not_mem_nil⟩
  obtain ⟨_ | _ | i⟩ := f <;> cases h

def Request.resumption : Request := .invoke ⟨1⟩ ⟨⟨0⟩, none⟩ [.coroutine ⟨1⟩] false

theorem asks_resumption {E : Engine} {k : Nat}
    (h : (serve E k .resumption malformed).1 ≠ .error .crash) :
    Asks (serve · k .resumption) E malformed (.resume ⟨1⟩ []) malformed := by
  classical
  have hcrash (E : Engine) (hE : E (.resume ⟨1⟩ []) malformed = (.error .crash, malformed)) :
      serve E k .resumption malformed = (.error .crash, malformed) := by
    have hresume : resumeCoroutine E ⟨⟨0⟩, none⟩ ⟨1⟩ [] malformed = (.error .crash, malformed) := hE
    change Library.resume E ⟨⟨0⟩, none⟩ (.ofStacked [.coroutine ⟨1⟩] false) malformed = _
    rw [Library.resume]
    refine (bind_ok ?_).trans (bind_ok (attempt_apply hresume))
    rfl
  refine ⟨fun r m => if r = .resume ⟨1⟩ [] ∧ m = malformed then (.error .crash, m) else E r m,
    fun r m hne => ?_, fun hsame => h ?_⟩
  · by_contra hother
    exact hne (if_neg hother)
  · exact congrArg Prod.fst (hsame.symm.trans (hcrash _ (if_pos ⟨rfl, rfl⟩)))

theorem raises_malformed : ∃ text p,
    Raises (engine 9) 9 malformed (.fault (.internal text)) p (.resume ⟨1⟩ []) := by
  have hany : ((turns (engine 9) 9 malformed (.resume ⟨1⟩ [])).any fun t => Ending.of
      (step (engine 9) ⟨1⟩ t.fuel t.limit t.executed t.ip t.machine).1 = .internal) = true := by
    decide +kernel
  obtain ⟨t, ht, hstep⟩ := List.any_eq_true.1 hany
  obtain ⟨text, htext⟩ := Ending.exists_internal (of_decide_eq_true hstep)
  exact ⟨text, _, .instruction ht (Prod.ext htext rfl)⟩

theorem uncatchable_malformed : malformed.Attuned ∧ ∃ text p,
    RaisedIn (.fault (.internal text)) p 11 .resumption malformed
      [(.resumption, malformed), (.resume ⟨1⟩ [], malformed)] ∧
    (engine 11 .resumption malformed).1 = .error (.fault (.internal text)) ∧
    ((engine 11 .resumption malformed).2.fiber ⟨1⟩).status = .dead := by
  obtain ⟨text, p, hraises⟩ := raises_malformed
  have hasks : (serve (engine 10) 10 .resumption malformed).1 ≠ .error .crash :=
    fun h => absurd (congrArg Ending.of h) (by decide +kernel)
  have hraised := RaisedIn.nested (asks_resumption hasks) (.here hraises)
  obtain ⟨hrun, hdead, -⟩ := uncatchable_passes hraised rfl
  exact ⟨attuned_malformed, text, p, hraised, congrArg Prod.fst hrun,
    hdead attuned_malformed ⟨1⟩ _ _ (.tail _ (.head _)) (.inl ⟨_, rfl⟩)⟩

end ScriptMachine
