import ScriptMachine.Proofs.Machine.ClosingCoroutines
import ScriptMachine.Proofs.Machine.Isolation
import ScriptMachine.Proofs.Machine.Remembering

namespace ScriptMachine

open Exec Machine

variable {v : Value}

/-- A step that raises no error that a script can catch. -/
def Exec.RaisesNothing {α : Type} (y : Exec α) : Prop :=
  ∀ m e, (y m).1 ≠ .error (.fault (.runtime e))

namespace Exec.RaisesNothing

variable {α β : Type} {f : FiberId}

theorem bind {y : Exec α} {g : α → Exec β} (hy : y.RaisesNothing) (hg : ∀ a, (g a).RaisesNothing) :
    (y >>= g).RaisesNothing := by
  intro m e
  have hfirst := hy m e
  rcases hrun : y m with ⟨s | a, m'⟩
  · rw [hrun] at hfirst
    rw [bind_error hrun]
    exact fun h => hfirst (congrArg Except.error (Except.error.inj h))
  · rw [bind_ok hrun]
    exact hg a m' e

theorem topFrame : (topFrame f).RaisesNothing := by
  refine .bind (fun _ _ => nofun) fun top? => ?_
  cases top? <;> exact fun _ _ => nofun

theorem popFrame : (popFrame f).RaisesNothing :=
  .bind topFrame fun _ _ _ => nofun

theorem takeClosable (s : Symbol) : (takeClosable f s).RaisesNothing := by
  refine .bind topFrame fun top => ?_
  split <;> exact fun _ _ => nofun

end Exec.RaisesNothing

/-- A run ends as its closings say. If one of them fails, it ends with that, and an error that a
script can catch is that of a closing. -/
structure Recorded.Faithful {α : Type} (x : Recorded Release α) : Prop where
  failed : ∀ m, ∀ c ∈ (x m).2, ∀ s, c.outcome = .error s → (x m).1.1 = .error s
  raised : ∀ m e, (x m).1.1 = .error (.fault (.runtime e)) →
    ∃ c ∈ (x m).2, c.outcome = .error (.fault (.runtime e))

namespace Recorded.Faithful

variable {α β : Type}

theorem bind {x : Recorded Release α} {g : α → Recorded Release β} (hx : x.Faithful)
    (hg : ∀ a, (g a).Faithful) : (x >>= g).Faithful := by
  refine ⟨fun m c hc s hs => ?_, fun m e he => ?_⟩
  · rcases hrun : x m with ⟨⟨s' | a, m'⟩, log⟩
    · rw [Recorded.bind_error hrun] at hc ⊢
      simpa only [hrun, Except.error.injEq] using hx.failed m c (hrun ▸ hc) s hs
    · rw [Recorded.bind_ok hrun] at hc ⊢
      rcases List.mem_append.1 hc with hc | hc
      · have hfailed := hx.failed m c (hrun ▸ hc) s hs
        rw [hrun] at hfailed
        cases hfailed
      · exact (hg a).failed m' c hc s hs
  · rcases hrun : x m with ⟨⟨s' | a, m'⟩, log⟩
    · rw [Recorded.bind_error hrun] at he ⊢
      have hraised := hx.raised m e
      rw [hrun] at hraised
      exact hraised (congrArg Except.error (Except.error.inj he))
    · rw [Recorded.bind_ok hrun] at he ⊢
      obtain ⟨c, hc, houtcome⟩ := (hg a).raised m' e he
      exact ⟨c, List.mem_append_right _ hc, houtcome⟩

theorem silent {y : Exec α} (hy : y.RaisesNothing) :
    (Recorded.silent y : Recorded Release α).Faithful :=
  ⟨fun _ => List.forall_mem_nil _, fun m e he => absurd he (hy m e)⟩

theorem pure (a : α) : (pure a : Recorded Release α).Faithful :=
  ⟨fun _ => List.forall_mem_nil _, fun _ _ => nofun⟩

end Recorded.Faithful

section Records

variable {E : Engine} {f : FiberId}

theorem faithful_releaseValue (depth : Nat) (s : Symbol) (v error : Value) :
    (releaseValue E depth s v error).Faithful := by
  refine ⟨fun m c hc s hs => ?_, fun m e he => ⟨_, List.mem_singleton_self _, he⟩⟩
  rw [List.mem_singleton.1 hc] at hs
  exact hs

theorem faithful_releaseSymbol (s : Symbol) (error : Value) : (releaseSymbol E f s error).Faithful := by
  refine .bind (.silent fun _ _ => nofun) fun depth => .bind (.silent (.takeClosable s)) ?_
  rintro (_ | v)
  · exact .pure ()
  · exact faithful_releaseValue depth s v error

theorem faithful_releaseBlock (error : Value) (n : Nat) : (releaseBlock E f error n).Faithful := by
  induction n with
  | zero => exact .silent fun _ _ => nofun
  | succ n ih =>
    refine .bind (.silent .topFrame) fun top => ?_
    match top.blocks with
    | [] => exact .pure ()
    | [] :: outer => exact .silent fun _ _ => nofun
    | (s :: rest) :: outer =>
      exact .bind (.silent fun _ _ => nofun) fun _ => .bind (faithful_releaseSymbol s error) fun _ => ih

theorem faithful_releaseBlocks (error : Value) (n : Nat) : (releaseBlocks E f error n).Faithful := by
  induction n with
  | zero => exact .silent fun _ _ => nofun
  | succ n ih =>
    refine .bind (.silent .topFrame) fun top => ?_
    split
    · exact .pure ()
    · exact .bind (faithful_releaseBlock error n) fun _ => ih

theorem faithful_releaseFrames (n : Nat) : (releaseFrames E f n).Faithful := by
  induction n with
  | zero => exact .silent fun _ _ => nofun
  | succ n ih =>
    refine .bind (.silent fun _ _ => nofun) fun busy => ?_
    split
    · exact .bind (faithful_releaseBlocks .nil n) fun _ => .bind (.silent (.bind .popFrame fun _ _ _ => nofun)) fun _ => ih
    · exact .pure ()

end Records

/-- What is left of a flow, by how its resumption ended. -/
def Fiber.ended (b : Fiber) : Except Stop Value → Fiber
  | .ok (.yieldRequest _ true) => { b with status := .forceSuspended }
  | .ok (.yieldRequest _ false) => { b with status := .suspended, closeError := .nil }
  | .ok _ => { b with status := .dead, closeError := .nil }
  | .error (.fault (.runtime e)) => { b with status := .dead, closeError := e.toValue }
  | .error _ => { b with status := .dead }

section Ends

variable {m : Machine} {f : FiberId} {n : Nat} {r : Except Stop Value}

theorem concludeResume_eq (f : FiberId) (r : Except Stop Value) (m : Machine) :
    (concludeResume f r m).2 = m.withFiber f fun b => b.ended r := by
  unfold concludeResume
  split
  · rfl
  · rfl
  · rename_i v htrue hfalse
    cases v with
    | yieldRequest items forced => cases forced <;> simp_all
    | _ => rfl
  · rename_i s
    rcases s with (e | _) | _
    · exact m.withFiber_withFiber f _ _
    all_goals rfl

theorem of_concludeResume_error {s : Stop} (h : (concludeResume f r m).1 = .error s) : r = .error s := by
  unfold concludeResume at h
  split at h
  · cases h
  · cases h
  · cases h
  · rename_i s'
    have hsame := Likeness.SameAt.concludeResume_error f s' m
    unfold concludeResume at hsame
    exact congrArg Except.error (Except.error.inj (hsame.symm.trans h))

theorem closeError_of_ok {b : Fiber} (h : (concludeResume f r m).1 = .ok v)
    (hdead : (b.ended r).status = .dead) : (b.ended r).closeError = .nil := by
  cases r with
  | ok w =>
    cases w with
    | yieldRequest items forced => cases forced <;> cases hdead
    | _ => rfl
  | error s => cases (Likeness.SameAt.concludeResume_error f s m).symm.trans h

theorem fiber_left {u : Fiber → Fiber} (hf : f.index < ((m.withFiber f u).exited f).fibers.size) :
    ((m.withFiber f u).exited f).fiber f =
      { u (m.fiber f) with nesting := (u (m.fiber f)).nesting - 1 } := by
  have hlt : f.index < (m.withFiber f u).fibers.size := by
    rw [size_exited] at hf
    exact hf
  rw [fiber_exited, fiber_withFiber_self hlt,
    fiber_withFiber_self (Array.size_modify ▸ hlt)]

theorem fiber_resume (hm : m.Attuned) (hf : (m.fiber f).status.isResumable) (arguments : List Value) :
    let q := engine (n + 1) (.resume f arguments) m
    ∃ r m', ∃ b : Fiber, q.1 = (concludeResume f r m').1 ∧
      (q.2.fiber f).status = (b.ended r).status ∧ (q.2.fiber f).closeError = (b.ended r).closeError := by
  intro q
  rcases hrun : runResumed (engine n) f n arguments (m.fiber f).status (m.entered f) with ⟨r, m'⟩
  have hq : q = ((concludeResume f r m').1, (concludeResume f r m').2.exited f) := resume_apply hf _ hrun
  have hlt : f.index < q.2.fibers.size :=
    Nat.lt_of_lt_of_le (lt_size_of_resumable hf)
      (engine_lives hm (n + 1) _).2.size_le
  rw [hq, concludeResume_eq] at hlt
  refine ⟨r, m', m'.fiber f, by rw [hq], ?_⟩
  rw [hq, concludeResume_eq, fiber_left hlt]
  exact ⟨rfl, rfl⟩

end Ends

/-- Closing a flow gives an answer and changes nothing, now and whenever it happens later. -/
def Session.ClosesWith (f : FiberId) (v : Value) (m : Machine) : Prop :=
  ∀ m', Later m m' → ∀ n, engine (n + 1) (.close f) m' = (.ok v, m')

section Answers

variable {m m' : Machine} {f : FiberId} {n : Nat} {arguments : List Value}

theorem answers_of_dead (hm : m.Attuned) (hdead : (m.fiber f).status = .dead) :
    Session.ClosesWith f (closeResult (m.fiber f).closeError) m := by
  intro m' hlater n
  obtain ⟨hdead', herror⟩ := ((hlater.remembers hm).2 f).dead hdead
  exact (close_apply (engine n) f n m').trans (by rw [hdead', herror])

theorem closeResult_ne (hv : v ≠ .nil) : closeResult v = .tuple [.bool false, v] := by
  cases v <;> first | rfl | exact absurd rfl hv

/-- What is kept of the first answer gives the same answer again. -/
theorem closeResult_of_closeAnswer {r : Except Stop Unit} {before : Value}
    (h : closeAnswer r = .ok v) (hnil : v ≠ .tuple [.bool false, .nil]) :
    closeResult (closeErrorOf r before) = v := by
  unfold closeAnswer at h
  split at h
  · exact Except.ok.inj h
  · obtain rfl := Except.ok.inj h
    exact closeResult_ne fun hEq => hnil (congrArg (fun v => Value.tuple [.bool false, v]) hEq)
  · cases h

theorem attuned_engine (hm : m.Attuned) (r : Request) : (engine (n + 1) r m).2.Attuned :=
  (engine_lives hm (n + 1) r).2.attuned hm

theorem answers_of_error (hm : m.Attuned) (hf : (m.fiber f).status.isResumable) {e : RuntimeError}
    (he : (engine (n + 1) (.resume f arguments) m).1 = .error (.fault (.runtime e))) :
    Session.ClosesWith f (closeResult e.toValue) (engine (n + 1) (.resume f arguments) m).2 := by
  obtain ⟨r, m', b, hanswer, hstatus, herror⟩ := fiber_resume hm hf arguments
  obtain rfl := of_concludeResume_error (hanswer.symm.trans he)
  have hanswers := answers_of_dead (attuned_engine hm _) hstatus
  rw [herror] at hanswers
  exact hanswers

theorem answers_of_return (hm : m.Attuned) (hv : (engine (n + 1) (.resume f arguments) m).1 = .ok v)
    (hdead : ((engine (n + 1) (.resume f arguments) m).2.fiber f).status = .dead) :
    Session.ClosesWith f (.bool true) (engine (n + 1) (.resume f arguments) m).2 := by
  by_cases hf : (m.fiber f).status.isResumable
  · obtain ⟨r, m', b, hanswer, hstatus, herror⟩ := fiber_resume hm hf arguments
    have hanswers := answers_of_dead (attuned_engine hm _) hdead
    rw [herror, closeError_of_ok (hanswer.symm.trans hv) (hstatus.symm.trans hdead)] at hanswers
    exact hanswers
  · have hrefused : engine (n + 1) (.resume f arguments) m =
        (.error (.fault (.complain (notResumable (m.fiber f).status))), m) :=
      (bind_ok (readFiber_apply _ _ _)).trans (congrFun (if_neg hf) m)
    rw [hrefused] at hv
    cases hv

theorem answers_of_suspended (hm : m.Attuned)
    (hf : (m.fiber f).status = .suspended ∨ (m.fiber f).status = .forceSuspended)
    (hv : (engine (n + 1) (.close f) m).1 = .ok v) (hnil : v ≠ .tuple [.bool false, .nil]) :
    Session.ClosesWith f v (engine (n + 1) (.close f) m).2 := by
  have hclose : engine (n + 1) (.close f) m = _ :=
    (close_of_suspended hf).trans (closeSuspended_eq (engine n) f n m)
  have hresumable : (m.fiber f).status.isResumable := by
    rcases hf with hf | hf <;> rw [hf] <;> rfl
  have hlt : f.index < (engine (n + 1) (.close f) m).2.fibers.size :=
    Nat.lt_of_lt_of_le (lt_size_of_resumable hresumable)
      (engine_lives hm (n + 1) _).2.size_le
  have hattuned := attuned_engine (n := n) hm (.close f)
  rw [hclose] at hlt hattuned hv ⊢
  have hanswers := answers_of_dead hattuned (by rw [fiber_left hlt]; rfl)
  rw [fiber_left hlt] at hanswers
  rw [← closeResult_of_closeAnswer hv hnil]
  exact hanswers

theorem answers_of_close (hm : m.Attuned) (hfresh : m.Fresh)
    (hv : (engine (n + 1) (.close f) m).1 = .ok v) (hnil : v ≠ .tuple [.bool false, .nil]) :
    Session.ClosesWith f v (engine (n + 1) (.close f) m).2 := by
  have hclose : engine (n + 1) (.close f) m = _ := close_apply (engine n) f n m
  cases hstatus : (m.fiber f).status with
  | suspended => exact answers_of_suspended hm (.inl hstatus) hv hnil
  | forceSuspended => exact answers_of_suspended hm (.inr hstatus) hv hnil
  | dead =>
    rw [hstatus] at hclose
    rw [hclose] at hv ⊢
    rw [← Except.ok.inj hv]
    exact answers_of_dead hm hstatus
  | notStarted =>
    have hattuned := attuned_engine (n := n) hm (.close f)
    rw [hstatus] at hclose
    rw [hclose] at hv hattuned ⊢
    have hfiber := fiber_withFiber_self (g := fun b : Fiber => { b with status := .dead })
      (lt_size_of_status (m := m) (f := f) (by rw [hstatus]; nofun))
    have hanswers := answers_of_dead hattuned (by rw [hfiber])
    rw [hfiber, hfresh f hstatus] at hanswers
    rw [← Except.ok.inj hv]
    exact hanswers
  | main =>
    rw [hstatus] at hclose
    rw [hclose] at hv
    cases hv
  | running =>
    rw [hstatus] at hclose
    rw [hclose] at hv
    cases hv

/-- How closing a coroutine that waits answers for its finalizers. -/
theorem close_answers_failure
    (hf : (m.fiber f).status = .suspended ∨ (m.fiber f).status = .forceSuspended) :
    let q := engine (n + 1) (.close f) m
    let log := (releaseFrames (engine n) f n (m.begun f)).2
    (∀ c ∈ log, ∀ e, c.outcome = .error (.fault (.runtime e)) →
      q.1 = .ok (.tuple [.bool false, e.toValue])) ∧
    ∀ v, q.1 = .ok v → (∀ c ∈ log, c.outcome = .ok ()) → v = .bool true := by
  intro q log
  have hfaithful := faithful_releaseFrames (E := engine n) (f := f) n
  have hframes : (releaseFrames (engine n) f n (m.begun f)).1 = _ := congrFun (plain_releaseFrames n) _
  have hanswer : q.1 = closeAnswer (releaseFrames (engine n) f n (m.begun f)).1.1 := by
    rw [hframes]
    exact congrArg Prod.fst ((close_of_suspended hf).trans (closeSuspended_eq (engine n) f n m))
  refine ⟨fun c hc e he => ?_, fun v hv hall => ?_⟩
  · rw [hanswer, hfaithful.failed _ c hc _ he]
    rfl
  · rw [hanswer] at hv
    unfold closeAnswer at hv
    split at hv
    · exact (Except.ok.inj hv).symm
    · rename_i e he
      obtain ⟨c, hc, houtcome⟩ := hfaithful.raised _ e he
      cases (hall c hc).symm.trans houtcome
    · cases hv

end Answers

open Session in
/-- Closing a coroutine answers for how it has ended, at any moment of a session. If it has died of an
error, or if a finalizer raises one, the answer is false and that error. If it has come to its end, or
if nothing has failed in closing it, the answer is true. The answer is the same from then on, and
nothing changes any more, unless the error is nil. -/
theorem close_answers_again {m₀ m : Machine} (hattuned : m₀.Attuned) (hfresh : m₀.Fresh)
    (hlater : Later m₀ m) (f : FiberId) (n : Nat) :
    (∀ arguments e, (m.fiber f).status.isResumable →
      (engine (n + 1) (.resume f arguments) m).1 = .error (.fault (.runtime e)) → e.toValue ≠ .nil →
        ClosesWith f (.tuple [.bool false, e.toValue]) (engine (n + 1) (.resume f arguments) m).2) ∧
    (∀ arguments v, (engine (n + 1) (.resume f arguments) m).1 = .ok v →
      ((engine (n + 1) (.resume f arguments) m).2.fiber f).status = .dead →
        ClosesWith f (.bool true) (engine (n + 1) (.resume f arguments) m).2) ∧
    (∀ v, (engine (n + 1) (.close f) m).1 = .ok v → v ≠ .tuple [.bool false, .nil] →
      ClosesWith f v (engine (n + 1) (.close f) m).2) ∧
    ((m.fiber f).status = .suspended ∨ (m.fiber f).status = .forceSuspended →
      let log := (releaseFrames (engine n) f n (m.begun f)).2
      (∀ c ∈ log, ∀ e, c.outcome = .error (.fault (.runtime e)) →
        (engine (n + 1) (.close f) m).1 = .ok (.tuple [.bool false, e.toValue])) ∧
      ∀ v, (engine (n + 1) (.close f) m).1 = .ok v → (∀ c ∈ log, c.outcome = .ok ()) →
        v = .bool true) := by
  obtain ⟨hm, hremembers⟩ := hlater.remembers hattuned
  refine ⟨fun arguments e hf he hnil => ?_, fun arguments v hv hdead => answers_of_return hm hv hdead,
    fun v hv hnil => answers_of_close hm (hremembers.fresh hfresh) hv hnil, close_answers_failure⟩
  rw [← closeResult_ne hnil]
  exact answers_of_error hm hf he

theorem attuned_faltering : faltering.Attuned := by
  refine ⟨⟨by decide, rfl⟩, fun ⟨i⟩ => ?_⟩
  match i with
  | 0 => exact ⟨nofun, nofun⟩
  | 1 => exact ⟨nofun, nofun⟩
  | i + 2 => exact ⟨nofun, nofun⟩

theorem fresh_faltering : faltering.Fresh := by
  rintro ⟨i⟩ h
  match i with
  | 0 => cases h
  | 1 => cases h
  | i + 2 => cases h

theorem faltering_answers_again :
    faltering.Attuned ∧ faltering.Fresh ∧
      (engine 10 (.close ⟨1⟩) faltering).1 = .ok (.tuple [.bool false, .table ⟨1⟩]) ∧
      Session.ClosesWith ⟨1⟩ (.tuple [.bool false, .table ⟨1⟩]) (engine 10 (.close ⟨1⟩) faltering).2 :=
  have hclose : (engine 10 (.close ⟨1⟩) faltering).1 = .ok (.tuple [.bool false, .table ⟨1⟩]) := rfl
  ⟨attuned_faltering, fresh_faltering, hclose,
    (close_answers_again attuned_faltering fresh_faltering .refl ⟨1⟩ 9).2.2.1 _ hclose
      fun h => by simp at h⟩

/-- A machine with a coroutine that raises nil. -/
def vacuous : Machine where
  code := { instructions := #[{ op := .preamble },
    { op := .literal, value := some (.native ⟨0⟩) },
    { op := .call, number := 0 },
    { op := .ret, number := 1 }] }
  heap := {
    closures := #[{ entry := 0 }]
    natives := #[{ name := "error", behavior := .builtin .error }] }
  fibers := #[{ status := .main, owner := ⟨0⟩ },
    { values := #[.closure ⟨0⟩], status := .notStarted, owner := ⟨1⟩ }]

/-- Whether a run ends with an error whose value is nil. -/
def Stop.raisesNil : Stop → Bool
  | .fault (.runtime e) => e.toValue.isNil
  | _ => false

/-- If nil is raised, it is forgotten that the coroutine has died of an error. -/
theorem vacuous_forgotten :
    let q := engine 10 (.resume ⟨1⟩ []) vacuous
    (∃ e : RuntimeError, q.1 = .error (.fault (.runtime e)) ∧ e.toValue = .nil) ∧
      (engine 10 (.close ⟨1⟩) q.2).1 = .ok (.bool true) := by
  intro q
  have hraises : (match q.1 with | .error s => s.raisesNil | .ok _ => false) = true := by decide +kernel
  have hdead : (q.2.fiber ⟨1⟩).status = .dead := by decide +kernel
  have hnil : (q.2.fiber ⟨1⟩).closeError.isNil = true := by decide +kernel
  constructor
  · match hq : q.1 with
    | .error (.fault (.runtime e)) =>
      rw [hq] at hraises
      refine ⟨e, rfl, ?_⟩
      cases hv : e.toValue <;> simp_all [Stop.raisesNil, Value.isNil]
    | .ok _ => rw [hq] at hraises; cases hraises
    | .error .crash | .error .exhausted | .error (.fault (.internal _))
    | .error (.fault (.invalidOperation _)) | .error (.fault (.invalidArgument _))
    | .error (.fault (.chunk _)) | .error (.fault (.configuration _)) => rw [hq] at hraises; cases hraises
  · have hclose : engine 10 (.close ⟨1⟩) q.2 = _ := close_apply (engine 9) ⟨1⟩ 9 q.2
    rw [hclose, hdead]
    exact congrArg Except.ok (if_pos hnil)

end ScriptMachine
