import ScriptMachine.Proofs.Machine.Endings
import ScriptMachine.Proofs.Machine.Protection

namespace ScriptMachine

open Exec Machine

variable {m₀ m : Machine} {f : FiberId} {E : Engine} {n : Nat} {arguments : List Value}
  {S : Stop → Machine → Prop} {calls : List Frame}

theorem pushFrame_rests {outer : List Frame} (frame : Frame) :
    Triple (Rests f m₀ outer) (pushFrame f frame) (fun _ => Rests f m₀ (frame :: outer)) S :=
  .modifyFiber fun _ hm => hm.withFiber (.stacks ..)
    ((Fiber.calls_push _ _).trans (congrArg _ hm.calls))

theorem Rests.sits_ground (h : Rests f m₀ calls m) (hchained : Chained calls) :
    (m₀.ground f).Sits calls (fun _ => True) m :=
  ⟨h.alone, h.sound, h.busy, ⟨[], rfl, h.calls.trans (List.append_nil _).symm⟩,
    Footing.routed_ground.2 hchained, False.elim⟩

theorem performCall_begins {id : ClosureId} : Triple (Poised f m₀ [] (.closure id) arguments)
    (performCall E f n arguments.length { isEntry := true }) (m₀.ground f).Rests
    (fun s m => s.isCatchable → (m.fiber f).calls = []) := by
  cases n with
  | zero => exact .throw fun _ _ h => nomatch h
  | succ n =>
    rw [performCall_succ]
    refine .bind (resolveCallee_poised rfl _ _) fun argc => .given fun hargc => ?_
    subst hargc
    have hreplace : Triple (Poised f m₀ [] (.closure id) arguments)
        (replaceFrame f arguments.length { isEntry := true })
        (fun setup m => setup = { isEntry := true } ∧ Poised f m₀ [] (.closure id) arguments m)
        (fun s m => s.isCatchable → (m.fiber f).calls = []) := by
      refine (replaceFrame_poised _).conseq (fun _ h => h) (fun setup m h => ?_)
        fun s m h hs => nomatch h.symm.trans hs
      exact h.resolve_right fun ⟨_, _, hnil, _⟩ => nomatch hnil
    refine .bind hreplace fun setup => .given fun hsetup => ?_
    subst hsetup
    refine Triple.bind (Q := fun _ => Poised f m₀ [] (.closure id) arguments) (.read fun _ h => h)
      fun calledFrom => Triple.bind (Q := fun _ => Poised f m₀ [] (.closure id) arguments)
        (.read fun _ h => h) fun deep => .first (.throw fun m hm _ => hm.calls) fun _ => ?_
    refine Triple.bind (Q := fun size m => size = (m.fiber f).values.size ∧
        Poised f m₀ [] (.closure id) arguments m) (.read fun _ h => ⟨rfl, h⟩) fun size =>
      Triple.bind (Q := fun v m => v = .closure id ∧ Rests f m₀ [] m)
        (.read fun m hm => ⟨?_, hm.2.toRests⟩) fun callee => .given fun hcallee => ?_
    · rw [hm.1]
      exact congrArg Value.toScalar hm.2.slots.2.1
    · subst hcallee
      refine Triple.bind (Q := fun _ => Rests f m₀ []) (.read fun _ h => h) fun closure =>
        Triple.bind (Q := fun _ => Rests f m₀ []) (.modifyFiber fun m hm =>
          (steady_rests f m₀ []).values m (fun vs => vs.push _) hm) fun _ =>
        .bind (pushFrame_rests _) fun _ => .pure fun m hm => ?_
      refine ⟨_, ?_, hm.sits_ground ⟨rfl, rfl⟩⟩
      exact rfl

theorem takeSaved_rests :
    Triple (fun m => Rests f m₀ calls m ∧ (m.fiber f).Parked) (takeSaved f) (m₀.ground f).Rests S := by
  rintro m ⟨hm, hparked⟩
  have hrun : takeSaved f m = (.ok (.after (m.fiber f).savedIp),
      m.withFiber f fun b => { b with savedIp := none }) := rfl
  have hrests : Rests f m₀ calls (m.withFiber f fun b => { b with savedIp := none }) :=
    hm.withFiber (.stacks ..) hm.calls
  obtain ⟨hchained, hsaved⟩ := hparked
  rw [hm.calls] at hchained hsaved
  rw [hrun]
  cases hip : (m.fiber f).savedIp with
  | none =>
    rw [hip] at hsaved
    subst hsaved
    have hself : (m.withFiber f fun b => { b with savedIp := none }).fiber f =
        { m.fiber f with savedIp := none } := fiber_withFiber_self hm.busy.1
    intro v _
    rw [show (m₀.ground f).fiber = f from rfl, hself]
    exact ⟨fun _ => ⟨hm.calls ▸ hchained, hm.calls⟩, fun _ => hm.calls⟩
  | some ip =>
    rw [hip] at hsaved
    obtain ⟨top, outer, rfl, hscript⟩ := hsaved
    exact ⟨top :: outer, hscript, hrests.sits_ground hchained⟩

theorem turns_resume (hf : (m.fiber f).status.isResumable)
    (haccepts : (m.fiber f).status.accepts arguments) : turns E n m (.resume f arguments) =
      drivenTurns E f n (beginResume E f n arguments (m.fiber f).status (m.begun f)) := by
  unfold turns
  exact if_pos (Bool.and_eq_true_iff.2 ⟨hf, haccepts⟩)

section Resumption

variable (hm : Sound m) (hf : (m.fiber f).status.isResumable)
include hm hf

theorem Sound.of_resumable : f.index < m.fibers.size ∧ f ≠ mainFiber :=
  hm.idle fun h => by rw [h] at hf; cases hf

theorem Sound.begun : Sound (m.begun f) ∧ Busy (m.begun f) f :=
  sound_entered hm (hm.of_resumable hf).1 (hm.of_resumable hf).2

theorem Sound.fiber_begun : (m.begun f).fiber f =
    { m.fiber f with nesting := (m.fiber f).nesting + 1, status := .running } := by
  have hsize := (hm.of_resumable hf).1
  rw [Machine.begun, Machine.fiber_withFiber_self (by rw [Machine.size_entered]; exact hsize),
    Machine.fiber_entered, Machine.fiber_withFiber_self hsize]

theorem Sound.rests_begun : Rests f (m.begun f) (m.fiber f).calls (m.begun f) := by
  obtain ⟨hsound, hbusy⟩ := hm.begun hf
  refine ⟨.refl f _, hsound, hbusy, ?_⟩
  rw [hm.fiber_begun hf]
  rfl

/-- How the stacks of a coroutine are left by a resumption. -/
theorem resume_stacks (hE : Quiet E) (haccepts : (m.fiber f).status.accepts arguments) :
    let p := proceed E f n arguments (m.fiber f).status (m.begun f)
    let q := Exec.resume E n f arguments m
    q.1 = (concludeResume f p.1 p.2).1 ∧ (q.2.fiber f).calls = (p.2.fiber f).calls ∧
      (q.2.fiber f).savedIp = (p.2.fiber f).savedIp ∧
      (q.2.fiber f).status = match p.1 with
        | .ok (.yieldRequest _ true) => .forceSuspended
        | .ok (.yieldRequest _ false) => .suspended
        | _ => .dead := by
  intro p q
  obtain ⟨hlt, hne⟩ := hm.of_resumable hf
  have hrun := runResumed_of_accepts (E := E) (f := f) (n := n) (m := m) haccepts
  have hsize := (hm.keeps_of_alike hf (x := proceed E f n arguments (m.fiber f).status)
    (Likeness.alike_proceed hE.keepsTo (.inl rfl) _ _)).size
  rw [size_entered] at hsize
  have hlt : f.index < p.2.fibers.size := hlt.trans_le hsize
  have hq : q = ((concludeResume f p.1 p.2).1, (concludeResume f p.1 p.2).2.exited f) :=
    resume_apply hf _ hrun
  obtain ⟨u, happly, hu⟩ := concludeResume_apply f p.1 p.2
  have hfiber : q.2.fiber f = { u (p.2.fiber f) with nesting := (u (p.2.fiber f)).nesting - 1 } := by
    rw [hq, happly, fiber_exited, fiber_withFiber_self (Array.size_modify.symm ▸ hlt),
      fiber_withFiber_self hlt]
  obtain ⟨hstatus, hframes, hsaved⟩ := hu (p.2.fiber f)
  rw [hfiber]
  exact ⟨(Prod.ext_iff.1 hq).1, congrArg (fun frames => frames.toList.reverse) hframes, hsaved, hstatus⟩

variable (hformed : (m.fiber f).Formed)
include hformed

theorem beginResume_rests (E : Engine) (n : Nat) (arguments : List Value) :
    Triple (· = m.begun f) (beginResume E f n arguments (m.fiber f).status)
    ((m.begun f).ground f).Rests (fun s m => s.isCatchable → (m.fiber f).calls = []) := by
  have hrests := hm.rests_begun hf
  have hself := hm.fiber_begun hf
  have hparked : ((m.begun f).fiber f).Parked := by
    rw [hself]
    exact ⟨hformed.chained, hformed.saved⟩
  have htake : Triple (fun m' => Rests f (m.begun f) (m.fiber f).calls m' ∧ (m'.fiber f).Parked)
      (takeSaved f) ((m.begun f).ground f).Rests (fun s m => s.isCatchable → (m.fiber f).calls = []) :=
    takeSaved_rests
  cases hstatus : (m.fiber f).status with
  | notStarted =>
    obtain ⟨hframes, id, hvalues⟩ := hformed.fresh hstatus
    refine .bind (Triple.modifyFiber (Q := fun _ => Poised f (m.begun f) [] (.closure id) arguments)
      fun m' h => ?_) fun _ => performCall_begins
    subst h
    have hcalls : (m.fiber f).calls = [] := by rw [Fiber.calls, hframes]; rfl
    rw [hcalls] at hrests
    refine ⟨(steady_rests f _ []).values _ (fun vs => vs.appendList arguments) hrests, [], ?_⟩
    rw [fiber_withFiber_self hrests.busy.1, hself]
    simp [hvalues]
  | suspended =>
    refine .bind (Triple.modifyFiber fun m' h => ?_) fun _ => htake
    subst h
    refine ⟨(steady_rests f _ _).values _ (fun vs => vs.push _) hrests, ?_⟩
    rw [fiber_withFiber_self hrests.busy.1]
    exact ⟨hparked.chained, hparked.saved⟩
  | _ =>
    rintro _ rfl
    exact htake _ ⟨hrests, hparked⟩

theorem proceed_rests (hE : Quiet E) (n : Nat) (arguments : List Value) :
    Triple (· = m.begun f) (proceed E f n arguments (m.fiber f).status)
    (fun v m => (m.fiber f).Ends v)
    (fun s m' => (∀ t ∈ drivenTurns E f n (beginResume E f n arguments (m.fiber f).status (m.begun f)),
      t.answered E f) → s.isCatchable → (m'.fiber f).calls = []) := by
  rintro _ rfl
  have hbegin := beginResume_rests hm hf hformed E n arguments _ rfl
  rcases hrun : beginResume E f n arguments (m.fiber f).status (m.begun f) with ⟨s | r, m'⟩ <;>
    rw [hrun] at hbegin
  · rw [proceed, bind_error hrun]
    exact fun _ => hbegin
  · rw [proceed, bind_ok hrun]
    cases r with
    | jump ip =>
      obtain ⟨own, hopen, hsits⟩ := hbegin
      exact Footing.loop_rests hE hopen hsits m' rfl
    | done => exact Triple.failing pop_leaves (fun _ _ h _ => h) m' hbegin
    | yielded => exact Triple.failing pop_leaves (fun _ _ h _ => h) m' hbegin

/-- A coroutine that a resumption leaves suspended is in order again. If it is dead instead, by a return
or an error that scripts can catch, it has no frames left. -/
theorem resume_leaves (hE : Quiet E) (haccepts : (m.fiber f).status.accepts arguments) :
    let q := Exec.resume E n f arguments m
    ((q.2.fiber f).status.isResumable → (q.2.fiber f).Formed) ∧
      ((q.2.fiber f).status = .dead → (∀ s, q.1 = .error s → s.isCatchable) →
        (∀ t ∈ turns E n m (.resume f arguments), t.answered E f) → (q.2.fiber f).calls = []) := by
  intro q
  obtain ⟨houtcome, hcalls, hsaved, hstatus⟩ := resume_stacks (n := n) hm hf hE haccepts
  change q.1 = _ at houtcome
  change (q.2.fiber f).calls = _ at hcalls
  change (q.2.fiber f).savedIp = _ at hsaved
  change (q.2.fiber f).status = _ at hstatus
  have hends := proceed_rests hm hf hformed hE n arguments _ rfl
  rw [hcalls, turns_resume hf haccepts]
  rcases hproceed : proceed E f n arguments (m.fiber f).status (m.begun f) with ⟨r, p⟩
  rw [hproceed] at hends houtcome hcalls hsaved hstatus
  cases r with
  | error s =>
    refine ⟨fun h => ?_, fun _ hcaught hanswered => hends hanswered (hcaught s ?_)⟩
    · rw [hstatus] at h
      cases h
    · rw [houtcome]
      exact Likeness.SameAt.concludeResume_error f s p
  | ok v =>
    by_cases hv : v.IsYield
    · obtain ⟨hchained, hparked⟩ := hends.1 hv
      obtain ⟨items, forced, rfl⟩ := hv
      refine ⟨fun _ => ⟨⟨hcalls ▸ hchained, ?_⟩, fun h => ?_⟩, fun h => ?_⟩
      · rw [hsaved, hcalls]
        exact hparked
      · rw [hstatus] at h
        cases forced <;> cases h
      · rw [hstatus] at h
        cases forced <;> cases h
    · refine ⟨fun h => ?_, fun _ _ _ => hends.2 hv⟩
      have hdead : (q.2.fiber f).status = .dead := by
        rw [hstatus]
        cases v with
        | yieldRequest items forced => exact (hv ⟨items, forced, rfl⟩).elim
        | _ => rfl
      rw [hdead] at h
      cases h

end Resumption

end ScriptMachine
