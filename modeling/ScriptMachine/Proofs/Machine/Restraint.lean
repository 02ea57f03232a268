import ScriptMachine.Proofs.Machine.Isolation
import ScriptMachine.Proofs.Machine.Settling

namespace ScriptMachine

open Exec Discipline Machine

variable {α : Type} {m' m : Machine} {request : Request} {E : Engine} {t : Turn}

section Execution

variable {D : Discipline} {m₀ : Machine} {f : FiberId} {E E' : Engine} (hE : Polite D E E') (fuel ip : Nat)
include hE

omit hE in
theorem suspendAt_tidy (h : (m₀.fiber f).canYield) :
    Flows D m₀ f (suspendAt f ip) (suspendAt f ip) := by
  refine .of fun m hm => ?_
  have hsaved : (m.withFiber f fun b => { b with savedIp := some ip }).Tidy D m₀ :=
    hm.withFiber (fun _ hb => ⟨hb.values, hb.frames, hb.closeError⟩) fun _ => rfl
  refine ⟨h, ?_, fun v hv => ?_⟩
  · have hpush : ((m.withFiber f fun b => { b with savedIp := some ip }).withFiber f fun b =>
        { b with values := b.values.push (.yieldRequest [] true) }).withFiber f Fiber.popped =
          m.withFiber f fun b => { b with savedIp := some ip } := by
      rw [withFiber_withFiber, withFiber_withFiber]
      refine congrArg (m.withFiber f) (funext fun b => ?_)
      simp only [Function.comp, Fiber.popped, Array.pop_push]
    exact hpush.symm ▸ hsaved
  · obtain ⟨-, rfl⟩ := back?_withFiber (fun _ => Array.back?_push) hv
    exact List.forall_mem_nil _

variable {limit : Option Nat} (hlimit : limit.isSome → (m₀.fiber f).canYield) (executed : Nat)
include hlimit

theorem step_tidy : Flows D m₀ f (step E f fuel limit executed ip)
    (step E' f fuel limit executed ip) := by
  rw [step_eq, step_eq]
  refine Tidies.then (A := fun i => ∀ j ∈ i, ∀ v ∈ j.value, D.Held v)
    (.read fun m hm i hi => hm.code i (Array.mem_of_getElem? hi)) fun i hi => ?_
  cases i with
  | none => exact joint_throw trivial
  | some i =>
    refine (Tidies.observes (observes_listening f ip i)).then fun _ _ => .ite (fun h => ?_)
      fun _ => execute_tidy hE fuel ip (hi i rfl)
    cases limit with
    | none => cases h
    | some n => exact suspendAt_tidy ip (hlimit rfl)

end Execution

section Rounds

variable {D : Discipline} {m₀ : Machine} {f : FiberId} {E E' : Engine} (hE : Polite D E E')
  {limit : Option Nat}

/-- The machine after a round of the loop obeys, but for the request that it may be left with. -/
def Round.Tidy (D : Discipline) (m₀ : Machine) (f : FiberId) (m : Machine) : Round → Prop
  | .again limit _ => (limit.isSome → (m₀.fiber f).canYield) ∧ m.Tidy D m₀
  | .leave => ∃ r : Resumption, r.Tidy D m₀ f m

def Value.Ends (D : Discipline) (m₀ : Machine) (f : FiberId) (v : Value) : Prop :=
  D.Answer v ∧ (D.Held v ∨ (m₀.fiber f).canYield)

theorem pop_tidy (r : Resumption) : Joint (fun m => r.Tidy D m₀ f m) (pop f) (pop f)
    (fun v m => v.Ends D m₀ f ∧ m.Tidy D m₀) (fun s m => s.Obeys D ∧ m.Tidy D m₀) := by
  have hheld : Tidies D m₀ (pop f) (pop f) fun v => v.Ends D m₀ f :=
    (tidies_pop f).mono fun _ hv => ⟨answer_of_held hv, .inl hv⟩
  cases r with
  | jump ip => exact hheld
  | done => exact hheld
  | yielded =>
    refine .of fun m ⟨hyields, hpopped, htop⟩ => ?_
    cases hback : (m.fiber f).values.back? with
    | none =>
      have hread : readFiber f (fun b => b.values.back?) m = (.ok none, m) := by
        rw [readFiber_apply, hback]
      rw [pop, bind_ok hread]
      exact ⟨trivial, hpopped.of_pop fun v hv => by rw [hback] at hv; cases hv⟩
    | some v =>
      rw [pop_apply hback]
      exact ⟨⟨htop v hback, .inr hyields⟩, hpopped⟩

include hE

theorem round_tidy (n : Nat) (hlimit : limit.isSome → (m₀.fiber f).canYield) (executed ip : Nat) :
    Joint (·.Tidy D m₀) (Exec.round E f n limit executed ip)
      (Exec.round E' f n limit executed ip) (fun r m => r.Tidy D m₀ f m)
      (fun s m => s.Obeys D ∧ m.Tidy D m₀) := by
  have hrecover {e : RuntimeError} (he : e.Obeys D) : Joint (·.Tidy D m₀) (recover E f n e ip)
      (recover E' f n e ip) (fun r m => r.Tidy D m₀ f m) (fun s m => s.Obeys D ∧ m.Tidy D m₀) := by
    refine .bind (unwind_tidy hE n he ip) fun r => ?_
    cases r with
    | jump target =>
      refine Tidies.then (A := fun limit => limit.isSome → (m₀.fiber f).canYield)
        (.read fun m hm hsome => ?_) fun limit hlimit => .of (.pure fun _ hm => ⟨hlimit, hm⟩)
      rw [← hm.canYield]
      exact Fiber.canYield_of_limit hsome
    | done => exact .of (.pure fun _ hm => ⟨.done, hm⟩)
    | yielded => exact .of (.pure fun _ hm => ⟨.yielded, hm⟩)
  refine .bind (Q := fun r m => match r with
    | .ok flow => flow.Tidy D m₀ f m
    | .error s => s.Obeys D ∧ m.Tidy D m₀) (.attempt (step_tidy hE n ip hlimit executed)) fun r => ?_
  rcases r with ((e | _) | _) | (_ | (_ | _ | _))
  case ok.next | ok.transfer.jump => exact .of (.pure fun _ hm => ⟨hlimit, hm⟩)
  case ok.transfer.done => exact .of (.pure fun _ hm => ⟨.done, hm⟩)
  case ok.transfer.yielded => exact .of (.pure fun _ hm => ⟨.yielded, hm⟩)
  case error.fault.runtime => exact .given hrecover
  all_goals exact .of (.throw fun _ hm => hm)

theorem loop_tidy (n : Nat) (hlimit : limit.isSome → (m₀.fiber f).canYield) (executed ip : Nat) :
    Tidies D m₀ (loop E f n limit executed ip) (loop E' f n limit executed ip)
      fun v => v.Ends D m₀ f := by
  induction n generalizing limit executed ip with
  | zero => exact .throw trivial
  | succ n ih =>
    rw [loop_succ, loop_succ]
    refine Joint.bind (round_tidy hE n hlimit executed ip) fun r => ?_
    cases r with
    | again limit ip => exact .given fun hlimit => ih hlimit _ ip
    | leave => exact .exists_ pop_tidy

theorem tidy_of_mem_trace {n : Nat} (hlimit : limit.isSome → (m₀.fiber f).canYield)
    {executed ip : Nat} (hm : m.Tidy D m₀) (ht : t ∈ trace E f n limit executed ip m) :
    t.machine.Tidy D m₀ := by
  induction n generalizing limit executed ip m with
  | zero => cases ht
  | succ n ih =>
    rw [trace, List.mem_cons] at ht
    have hround := (round_tidy hE n hlimit executed ip).triple m hm
    rcases ht with rfl | ht
    · exact hm
    · rcases hrun : Exec.round E f n limit executed ip m with ⟨s | r, m'⟩ <;> rw [hrun] at ht hround
      · cases ht
      · cases r with
        | again limit ip => exact ih hround.1 hround.2 ht
        | leave => cases ht

theorem drive_tidy (n : Nat) (r : Resumption) : Joint (fun m => r.Tidy D m₀ f m) (drive E f n r)
    (drive E' f n r) (fun v m => v.Ends D m₀ f ∧ m.Tidy D m₀) (fun s m => s.Obeys D ∧ m.Tidy D m₀) := by
  cases r with
  | jump ip =>
    refine Tidies.then (A := fun limit => limit.isSome → (m₀.fiber f).canYield)
      (.read fun m hm hsome => ?_) fun limit hlimit => loop_tidy hE n hlimit 0 ip
    rw [← hm.canYield]
    exact Fiber.canYield_of_limit hsome
  | done => exact pop_tidy .done
  | yielded => exact pop_tidy .yielded

end Rounds

section Serving

variable {D : Discipline} {m₀ : Machine} {f : FiberId} {arguments : List Value} {function : Value}

theorem tidies_entering {x x' : Exec α} {A : α → Prop} (h : Tidies D m₀ x x' A) :
    Tidies D m₀ (entering f x) (entering f x') A := by
  have hnesting (u : Nat → Nat) : Tidies D m₀
      (modifyFiber f fun b => { b with nesting := u b.nesting })
      (modifyFiber f fun b => { b with nesting := u b.nesting }) fun _ => True :=
    .modifyFiber (fun _ hb => ⟨hb.values, hb.frames, hb.closeError⟩) fun _ => rfl
  have hactive (u : List FiberId → List FiberId) : Tidies D m₀
      (modify fun m => { m with active := u m.active } : Exec Unit)
      (modify fun m => { m with active := u m.active }) fun _ => True :=
    .modify fun _ hm => ⟨⟨hm.code, hm.heap, hm.fibers⟩, hm.canYield⟩
  exact .bind (hnesting (· + 1)) fun _ _ => .first (hactive (f :: ·)) fun _ =>
    .ensuring h (.first (hactive (·.tail)) fun _ => hnesting (· - 1))

theorem Machine.Tidy.restored (hm : m.Tidy D m₀)
    (hm' : m'.Tidy D (m.withFiber f fun b => { b with canYield := false })) :
    (m'.withFiber f fun b => { b with canYield := (m.fiber f).canYield }).Tidy D m₀ := by
  refine ⟨hm'.toObeys.withFiber fun _ hb => ⟨hb.values, hb.frames, hb.closeError⟩, fun f' => ?_⟩
  rw [← hm.canYield f']
  have hbefore := hm'.canYield f'
  by_cases hEq : f' = f
  · subst hEq
    by_cases hsize : f'.index < m'.fibers.size
    · rw [fiber_withFiber_self hsize]
    · have hdefault : m'.fiber f' = default := by
        rw [fiber, Array.getD_eq_getD_getElem?, Array.getElem?_eq_none (by omega)]
        rfl
      rw [withFiber_of_le (by omega), hbefore]
      by_cases hf : f'.index < m.fibers.size
      · rw [fiber_withFiber_self hf, hdefault] at hbefore
        cases hbefore
      · rw [withFiber_of_le (by omega)]
  · rw [fiber_withFiber_ne hEq, hbefore, fiber_withFiber_ne hEq]

theorem guarded_tidy {x x' : Exec α} {A : α → Prop}
    (h : ∀ m : Machine, m.Obeys D → (f.index < m.fibers.size → (m.fiber f).canYield = false) →
      Joint (· = m) x x' (fun a m' => A a ∧ m'.Tidy D m) (fun s m' => s.Obeys D ∧ m'.Tidy D m)) :
    Tidies D m₀ (guarded f x) (guarded f x') A := by
  have hstart {m : Machine} (hm : m.Tidy D m₀) := h
    (m.withFiber f fun b => { b with canYield := false })
    (hm.toObeys.withFiber fun _ hb => ⟨hb.values, hb.frames, hb.closeError⟩) fun hf => by
      rw [fiber_withFiber_self (by simpa [withFiber] using hf)]
  refine ⟨fun m hm => ?_, fun m hm => ?_⟩
  · rw [guarded_apply, guarded_apply, (hstart hm).same _ rfl]
  · have hrun := (hstart hm).triple _ rfl
    rw [guarded_apply]
    rcases hx : x (m.withFiber f fun b => { b with canYield := false }) with ⟨s | a, m'⟩ <;>
      rw [hx] at hrun
    · refine ⟨hrun.1, (hm.restored hrun.2).withFiber (fun _ hb => ?_) fun _ => rfl⟩
      exact ⟨forall_mem_shrink hb.values _, forall_mem_shrink hb.frames _, hb.closeError⟩
    · exact ⟨hrun.1, hm.restored hrun.2⟩

theorem hostCall_outside (E : Engine) (n : Nat) (function : Value) (arguments : List Value) :
    Triple (fun m => m.fibers.size ≤ f.index) (hostCall E f n function arguments)
      (fun _ _ => False) (fun _ _ => True) := by
  have hmodify (u : Fiber → Fiber) : Triple (fun m => m.fibers.size ≤ f.index) (modifyFiber f u)
      (fun _ m => m.fibers.size ≤ f.index) (fun _ _ => True) :=
    .modifyFiber fun m hm => by rw [withFiber_of_le hm]; exact hm
  have hpeek (argc : Nat) : Triple (fun m => m.fibers.size ≤ f.index) (peek f argc)
      (fun _ _ => False) (fun _ _ => True) := by
    intro m hm
    have hdefault : m.fiber f = default := by
      rw [fiber, Array.getD_eq_getD_getElem?, Array.getElem?_eq_none hm]
      rfl
    have hempty : ¬argc < (default : Fiber).values.size := Nat.not_lt_zero argc
    rw [peek_eq, hdefault, if_neg hempty]
    trivial
  refine .bind (Q := fun _ _ => False) (.bind (hmodify _) fun _ => .bind (hmodify _) fun _ => ?_)
    fun _ _ h => h.elim
  cases n with
  | zero => exact .throw fun _ _ => trivial
  | succ n =>
    refine .bind (Q := fun _ _ => False) ?_ fun _ _ h => h.elim
    unfold resolveCallee
    exact .bind (hpeek _) fun _ _ h => h.elim

variable {E E' : Engine} (hE : Polite D E E') (n : Nat)
include hE

theorem beginCall_tidy (hf : D.Held function) (h : D.AllHeld arguments) :
    Settles D m₀ f (·.Tidy D m₀) (beginCall E f n function arguments)
      (beginCall E' f n function arguments) :=
  (tidies_push f hf).then fun _ _ => (tidies_pushAll f h).then fun _ _ =>
    performCall_tidy hE n _ Handlers.obeys_empty

theorem hostCall_tidy (hf : D.Held function) (h : D.AllHeld arguments) :
    Tidies D m₀ (hostCall E f n function arguments)
      (hostCall E' f n function arguments) fun v => v.Ends D m₀ f :=
  Joint.bind (beginCall_tidy hE n hf h) fun r => drive_tidy hE n r

theorem callFunction_tidy (hf : D.Held function) (h : D.AllHeld arguments) :
    Tidies D m₀ (callFunction E n function arguments)
      (callFunction E' n function arguments) D.Held := by
  have heq (E : Engine) : callFunction E n function arguments = (do
      let f ← read currentFiber
      ensuring (entering f (guarded f (hostCall E f n function arguments))) (reportEnd f)) :=
    funext fun m => callFunction_apply E n function arguments m
  rw [heq, heq]
  refine .bind .reads fun f _ => .ensuring (tidies_entering
    (guarded_tidy fun m hm hcanYield => ⟨fun m' hEq => ?_, fun m' hEq => ?_⟩))
      (.observes (observes_reportEnd f))
  · exact hEq ▸ (hostCall_tidy hE n hf h).same m (.refl hm)
  · subst m'
    have hrun := (hostCall_tidy (f := f) hE n hf h).triple m (.refl hm)
    have houtside := hostCall_outside (f := f) E n function arguments m
    rcases hcall : hostCall E f n function arguments m with ⟨s | v, m'⟩ <;>
      rw [hcall] at hrun houtside
    · exact hrun
    · obtain ⟨⟨-, hheld | hyields⟩, hm'⟩ := hrun
      · exact ⟨hheld, hm'⟩
      · have hsize := Nat.lt_of_not_le houtside
        rw [hcanYield hsize] at hyields
        cases hyields

omit hE in
theorem tidies_setStatus (s : Status) :
    Tidies D m₀ (setStatus f s) (setStatus f s) fun _ => True :=
  .modifyFiber (fun _ hb => ⟨hb.values, hb.frames, hb.closeError⟩) fun _ => rfl

theorem beginResume_tidy (h : D.AllParts arguments) (s : Status) :
    Settles D m₀ f (·.Tidy D m₀) (beginResume E f n arguments s) (beginResume E' f n arguments s) := by
  have hsaved : Settles D m₀ f (·.Tidy D m₀) (takeSaved f) (takeSaved f) := by
    refine Tidies.then (A := fun _ => True) (.read fun _ _ => trivial) fun ip _ => Tidies.then
      (.modifyFiber (fun _ hb => ⟨hb.values, hb.frames, hb.closeError⟩) fun _ => rfl) fun _ _ =>
        .of (.pure fun m hm => ?_)
    cases ip <;> exact hm
  unfold beginResume
  split
  · exact (tidies_pushAll f h.allHeld).then fun _ _ => performCall_tidy hE n _ Handlers.obeys_empty
  · exact (tidies_push f (D.held_tuple.2 h)).then fun _ _ => hsaved
  · exact hsaved

omit hE in
theorem runResumed_eq (E : Engine) (f : FiberId) (arguments : List Value) (s : Status) :
    runResumed E f n arguments s = if s.accepts arguments then
      (do setStatus f .running; proceed E f n arguments s)
    else complain .resumeForcedWithArguments := by
  cases s with
  | notStarted =>
    simp only [runResumed, Status.accepts, if_true, proceed, beginResume, runCall, bind_assoc]
  | suspended =>
    simp only [runResumed, Status.accepts, if_true, proceed, beginResume, continueSaved_eq,
      bind_assoc]
  | _ =>
    simp only [runResumed, Status.accepts, proceed, beginResume, continueSaved_eq]
    rfl

theorem resume_tidy (h : D.AllParts arguments) :
    Tidies D m₀ (Exec.resume E n f arguments) (Exec.resume E' n f arguments) D.Answer := by
  have hrun (s : Status) : Tidies D m₀ (runResumed E f n arguments s) (runResumed E' f n arguments s)
      fun v => v.Ends D m₀ f := by
    rw [runResumed_eq, runResumed_eq]
    exact .ite (fun _ => .bind (tidies_setStatus _) fun _ _ =>
      Joint.bind (beginResume_tidy hE n h s) fun r => drive_tidy hE n r) fun _ => .complain _
  refine .bind .reads fun s _ => .ite (fun _ =>
    tidies_entering (.bind (hrun s).attempt fun r hr => ?_)) fun _ => .complain _
  unfold concludeResume
  split
  · exact .bind (tidies_setStatus _) fun _ _ => .pure hr.1
  · exact .bind (.modifyFiber (fun _ hb => ⟨hb.values, hb.frames, D.part_of_isAtom rfl⟩)
      fun _ => rfl) fun _ _ => .pure (D.held_tuple.2 hr.1)
  · exact .bind (.modifyFiber (fun _ hb => ⟨hb.values, hb.frames, D.part_of_isAtom rfl⟩)
      fun _ => rfl) fun _ _ => .pure hr.1
  · refine .bind (tidies_setStatus _) fun _ _ => ?_
    split
    · exact .bind (.modifyFiber (fun _ hb => ⟨hb.values, hb.frames,
        RuntimeError.Obeys.toValue hr⟩) fun _ => rfl) fun _ _ => .throw hr
    · exact .throw hr

theorem close_tidy :
    Tidies D m₀ (Exec.close E n f) (Exec.close E' n f) D.Held := by
  have hframes (n : Nat) : Tidies D m₀ (closeFrames E f n) (closeFrames E' f n) fun _ => True := by
    induction n with
    | zero => exact .throw trivial
    | succ n ih =>
      exact .bind .reads fun _ _ => .ite
        (fun _ => .bind (tidies_closeBlocks hE (held_of_isAtom rfl) n) fun _ _ =>
          .bind (tidies_popFrame f).discard fun _ _ => ih) fun _ => .pure trivial
  have hreport {v : Value} (hv : D.Part v) : Tidies D m₀
      (modifyFiber f fun b => { b with closeError := v })
      (modifyFiber f fun b => { b with closeError := v }) fun _ => True :=
    .modifyFiber (fun _ hb => ⟨hb.values, hb.frames, hv⟩) fun _ => rfl
  have hpair {v : Value} (hv : D.Part v) : D.Held (.tuple [.bool false, v]) :=
    D.held_tuple.2 (allParts_cons.2 ⟨D.part_of_isAtom rfl, allParts_singleton.2 hv⟩)
  have hsuspended : Tidies D m₀ (closeSuspended E n f) (closeSuspended E' n f)
      D.Held := by
    refine tidies_entering (.bind (tidies_setStatus _) fun _ _ => .bind (hframes n).attempt
      fun r hr => .bind (.modifyFiber (fun _ hb => ⟨nofun, nofun, hb.closeError⟩) fun _ => rfl)
        fun _ _ => ?_)
    split
    · exact .bind (hreport (D.part_of_isAtom rfl)) fun _ _ => .atom rfl
    · exact .bind (hreport (RuntimeError.Obeys.toValue hr)) fun _ _ =>
        .pure (hpair (RuntimeError.Obeys.toValue hr))
    · exact .throw hr
  refine .bind .reads fun s _ => ?_
  split
  · exact .complain _
  · exact .complain _
  · refine .bind (A := D.Part) (.read fun _ hm => (hm.fiber f).closeError) fun v hv => .pure ?_
    unfold closeResult
    split
    · exact held_of_isAtom rfl
    · exact hpair hv
  · exact .bind (tidies_setStatus _) fun _ _ => .atom rfl
  · exact hsuspended
  · exact hsuspended

theorem invoke_tidy (id : NativeId) (site : CallSite) (h : D.AllHeld arguments) (method : Bool)
    (b : Builtin) (hgathered : D.AllParts (b.gathered (Value.spread arguments))) :
    Joint (fun m => (m.heap.native id).behavior = .builtin b ∧ m.Tidy D m₀)
      (serve E n (.invoke id site arguments method)) (serve E' n (.invoke id site arguments method))
      (fun v m => ((b = .resume → D.AdmitsRequests) → D.Answer v) ∧ m.Tidy D m₀)
      (fun s m => s.Obeys D ∧ m.Tidy D m₀) := by
  refine .bind (Q := fun f m => f.behavior = .builtin b ∧ m.Tidy D m₀) (.of (.read fun _ hm => hm))
    fun f => .given fun hb => ?_
  rw [hb]
  exact tidies_libraryRun (a := .ofStacked arguments method) h.spread site hE b hgathered

end Serving

section Engines

variable {strays : Request → Machine → Except Stop Value × Machine → Bool}

/-- The engine, except that it gives up where something strays: it is told so from a request and how
it is served. -/
def restrained (strays : Request → Machine → Except Stop Value × Machine → Bool) : Nat → Engine
  | 0, _ => throw .exhausted
  | n + 1, request => fun m =>
    if strays request m (serve (restrained strays n) n request m) then (.error .exhausted, m)
    else serve (restrained strays n) n request m

theorem restrained_succ_cases (n : Nat) (request : Request) (m : Machine) :
    restrained strays (n + 1) request m = (.error .exhausted, m) ∨
      restrained strays (n + 1) request m = serve (restrained strays n) n request m ∧
      strays request m (serve (restrained strays n) n request m) = false := by
  simp only [restrained]
  split
  · exact .inl rfl
  · exact .inr ⟨rfl, eq_false_of_ne_true ‹_›⟩

theorem agrees_restrained (n : Nat) : Agrees (restrained strays n) (engine n) :=
  agrees_of_serves (fun _ _ => rfl) (fun n r m => (restrained_succ_cases n r m).imp_right And.left) le_rfl

/-- What a discipline asks for of the calls of native functions holds if nothing strays. -/
structure Discipline.KeptBy (D : Discipline)
    (strays : Request → Machine → Except Stop Value × Machine → Bool) : Prop where
  gathered {id : NativeId} {site : CallSite} {arguments : List Value} {method : Bool} {m : Machine}
    {r : Except Stop Value × Machine} {b : Builtin} :
    strays (.invoke id site arguments method) m r = false →
      (m.heap.native id).behavior = .builtin b → D.AllHeld arguments →
      D.AllParts (b.gathered (Value.spread arguments))
  resumed {id : NativeId} {site : CallSite} {arguments : List Value} {method : Bool}
    {m m' : Machine} {v : Value} :
    strays (.invoke id site arguments method) m (.ok v, m') = false →
      (m.heap.native id).behavior = .builtin .resume → D.AdmitsRequests ∨ D.Held v
  yields {id : NativeId} {site : CallSite} {arguments : List Value} {method : Bool}
    {m m' : Machine} {v : Value} {items : List Value} {forced : Bool} :
    strays (.invoke id site arguments method) m (.ok v, m') = false →
      v = .yieldRequest items forced → D.Answer v →
      Library.isYieldable (m'.fiber site.fiber) ∨ D.Held v

variable {D : Discipline} (hkept : D.KeptBy strays)
include hkept

/-- A request that obeys is answered as it may be, if nothing strays. -/
theorem serve_tidy {m₀ : Machine} {E' : Engine} (hE : Polite D E E') (n : Nat)
    (hrequest : request.Obeys D) (hm : m.Tidy D m₀)
    (hserved : strays request m (serve E n request m) = false) :
    serve E' n request m = serve E n request m ∧ match serve E n request m with
      | (.ok v, m') => request.Answered D m' v ∧ m'.Tidy D m₀
      | (.error s, m') => s.Obeys D ∧ m'.Tidy D m₀ := by
  have hplain {A : Value → Prop} (h : Tidies D m₀ (serve E n request) (serve E' n request) A)
      (hA : ∀ v m', A v → request.Answered D m' v) : serve E' n request m = serve E n request m ∧
        match serve E n request m with
        | (.ok v, m') => request.Answered D m' v ∧ m'.Tidy D m₀
        | (.error s, m') => s.Obeys D ∧ m'.Tidy D m₀ := by
    refine ⟨h.same m hm, ?_⟩
    have hrun := h.triple m hm
    rcases hserve : serve E n request m with ⟨s | v, m'⟩ <;> rw [hserve] at hrun
    · exact hrun
    · exact ⟨hA v m' hrun.1, hrun.2⟩
  cases request with
  | call function arguments =>
    exact hplain (callFunction_tidy hE n hrequest.1 hrequest.2) fun _ _ hv => hv
  | resume f arguments => exact hplain (resume_tidy hE n hrequest) fun _ _ hv => hv
  | close f => exact hplain (close_tidy hE n) fun _ _ hv => hv
  | invoke id site arguments method =>
    obtain ⟨b, hb⟩ := hm.heap.native id
    have h := @invoke_tidy D m₀ _ _ _ hE n id site hrequest method b
      (hkept.gathered hserved hb hrequest)
    refine ⟨h.same m ⟨hb, hm⟩, ?_⟩
    have hrun := h.triple m ⟨hb, hm⟩
    rcases hserve : serve E n (.invoke id site arguments method) m with ⟨s | v, m'⟩ <;>
      rw [hserve] at hrun hserved
    · exact hrun
    · have hanswer : D.Answer v := by
        by_cases hadmits : b = .resume → D.AdmitsRequests
        · exact hrun.1 hadmits
        · obtain ⟨rfl, hstrict⟩ := Classical.not_imp.1 hadmits
          exact answer_of_held ((hkept.resumed hserved hb).resolve_left hstrict)
      exact ⟨⟨hanswer, fun items forced hv => hkept.yields hserved hv hanswer⟩, hrun.2⟩

/-- The restrained engine is polite, and so is any that does the same for requests and machines that
obey. -/
theorem polite_restrained {n : Nat} {E' : Engine} (h : ∀ request m, request.Obeys D → m.Obeys D →
    E' request m = restrained strays n request m) : Polite D (restrained strays n) E' := by
  induction n generalizing E' with
  | zero =>
    exact fun m₀ request hrequest => ⟨fun m hm => h request m hrequest hm.toObeys,
      fun m hm => ⟨trivial, hm⟩⟩
  | succ n ih =>
    refine fun m₀ request hrequest => ⟨fun m hm => h request m hrequest hm.toObeys, fun m hm => ?_⟩
    obtain hgives | ⟨hserves, hserved⟩ := restrained_succ_cases n request m
    · rw [hgives]
      exact ⟨trivial, hm⟩
    · have hrun := (serve_tidy hkept (ih fun _ _ _ _ => rfl) n hrequest hm hserved).2
      rw [hserves]
      rcases hserve : serve (restrained strays n) n request m with ⟨s | v, m'⟩ <;>
        rw [hserve] at hrun
      · exact hrun
      · exact hrun

end Engines

section Moments

variable {strays : Request → Machine → Except Stop Value × Machine → Bool} {D : Discipline}
  (hkept : D.KeptBy strays) {n : Nat} {m : Machine} {r : Request}

include hkept in
/-- A run whose requests all are given to the restrained engine comes only to requests and machines
that obey, and none of them is given up. -/
theorem obeys_of_asks {x : Engine → Exec α} (hmono : ∀ {E E'}, Agrees E E' → Refines (x E) (x E'))
    (hsame : ∀ {E'}, Polite D (restrained strays n) E' → x E' m = x (restrained strays n) m)
    (hserved : (x (restrained strays n) m).1 ≠ .error .exhausted) (h : Asks x (engine n) m r m') :
    (r.Obeys D ∧ m'.Obeys D) ∧ (restrained strays n r m').1 ≠ .error .exhausted :=
  served_of_asks (P := fun r m => r.Obeys D ∧ m.Obeys D) hmono (agrees_restrained n)
    (fun _ hV => hsame (polite_restrained hkept fun request s hrequest hs =>
      hV request s ⟨hrequest, hs⟩)) hserved h

theorem Machine.Obeys.entered (hm : m.Obeys D) (f : FiberId) : (m.entered f).Obeys D := by
  have hnesting : (m.withFiber f fun b => { b with nesting := b.nesting + 1 }).Obeys D :=
    hm.withFiber fun _ hb => ⟨hb.values, hb.frames, hb.closeError⟩
  unfold Machine.entered
  dsimp only
  split
  · exact ⟨hnesting.code, hnesting.heap, hnesting.fibers⟩
  · exact hnesting

theorem obeys_of_mem_drivenTurns (hE : Polite D E E) {f : FiberId} {x : Exec Resumption}
    (hx : Settles D m f (·.Tidy D m) x x) (hm : m.Obeys D) (ht : t ∈ drivenTurns E f n (x m)) :
    t.machine.Obeys D := by
  have hrun := hx.triple m (.refl hm)
  rcases hxm : x m with ⟨s | r, m'⟩ <;> rw [hxm] at hrun ht
  · cases ht
  · cases r with
    | jump ip =>
      refine (tidy_of_mem_trace hE (fun hsome => ?_) hrun ht).toObeys
      rw [← Tidy.canYield hrun]
      exact Fiber.canYield_of_limit hsome
    | done => cases ht
    | yielded => cases ht

theorem obeys_of_mem_turns (hE : Polite D E E) (hrequest : request.Obeys D) (hm : m.Obeys D)
    (ht : t ∈ turns E n m request) : t.machine.Obeys D := by
  obtain h | ⟨function, arguments, rfl⟩ | ⟨f, arguments, rfl, -, -, h⟩ := turns_cases E n m request
  · exact (List.not_mem_nil (h ▸ ht)).elim
  · have hprepared : (m.prepared m.currentFiber).Obeys D :=
      (hm.entered _).withFiber fun _ hb => ⟨hb.values, hb.frames, hb.closeError⟩
    exact obeys_of_mem_drivenTurns hE (beginCall_tidy hE n hrequest.1 hrequest.2) hprepared ht
  · have hbegun : (m.begun f).Obeys D :=
      (hm.entered _).withFiber fun _ hb => ⟨hb.values, hb.frames, hb.closeError⟩
    exact obeys_of_mem_drivenTurns hE (beginResume_tidy hE n hrequest _) hbegun (h ▸ ht)

variable {request : Request} (hrequest : request.Obeys D) (hm : m.Obeys D)
  (h : (restrained strays n request m).1 ≠ .error .exhausted)
include hkept hrequest hm h

theorem obeys_of_reached {k : Nat} (hr : Reached n (fun E => E request) m k r m') :
    (r.Obeys D ∧ m'.Obeys D) ∧ (restrained strays k r m').1 ≠ .error .exhausted := by
  induction hr with
  | outer hasks =>
    exact obeys_of_asks hkept (fun hE => hE request)
      (fun hE => (hE m request hrequest).same m (.refl hm)) h hasks
  | nested _ hasks ih =>
    rename_i k r m' _ _ _
    obtain ⟨⟨hobeys, hm'⟩, hgiven⟩ := ih
    obtain hgives | ⟨hserves, hserved⟩ := restrained_succ_cases k r m'
    · rw [hgives] at hgiven
      exact absurd rfl hgiven
    · rw [hserves] at hgiven
      exact obeys_of_asks hkept (fun hE => hE.serve le_rfl r)
        (fun hE => (serve_tidy hkept hE k hobeys (.refl hm') hserved).1) hgiven hasks

theorem obeys_of_userCode (hm' : UserCode n (fun E => E request) m m') : m'.Obeys D := by
  cases hm' with
  | request hr => exact (obeys_of_reached hkept hrequest hm h hr).1.2
  | turn hr ht =>
    rename_i k r m' t
    obtain ⟨⟨hobeys, hm'⟩, hgiven⟩ := obeys_of_reached hkept hrequest hm h hr
    obtain hgives | ⟨hserves, -⟩ := restrained_succ_cases k r m'
    · rw [hgives] at hgiven
      exact absurd rfl hgiven
    · rw [hserves] at hgiven
      rw [turns_eq (agrees_restrained k) hgiven] at ht
      exact obeys_of_mem_turns (polite_restrained hkept fun _ _ _ _ => rfl) hobeys hm' ht

/-- A run from a machine that obeys comes only to machines that obey, where user code runs and in the
end, unless something strays. -/
theorem obeys_of_restrained :
    engine n request m = restrained strays n request m ∧
      (∀ m', UserCode n (fun E => E request) m m' → m'.Obeys D) ∧ (engine n request m).2.Obeys D ∧
      (∀ v, (engine n request m).1 = .ok v → request.Answered D (engine n request m).2 v) ∧
      ∀ s, (engine n request m).1 = .error s → s.Obeys D := by
  have hsame := agrees_restrained n request m h
  have hrun := (polite_restrained hkept (n := n) (fun _ _ _ _ => rfl) m request hrequest).triple m
    (.refl hm)
  refine ⟨hsame, fun m' hm' => obeys_of_userCode hkept hrequest hm h hm', ?_⟩
  rw [hsame]
  rcases hserve : restrained strays n request m with ⟨s | v, m'⟩ <;> rw [hserve] at hrun
  · refine ⟨hrun.2.toObeys, nofun, fun s' hs => ?_⟩
    exact Except.error.inj hs ▸ hrun.1
  · refine ⟨hrun.2.toObeys, fun w hw => ?_, nofun⟩
    exact Except.ok.inj hw ▸ hrun.1

end Moments

end ScriptMachine
