import ScriptMachine.Proofs.Machine.LikeNatives
import ScriptMachine.Proofs.Machine.Resuming

namespace ScriptMachine

open Exec Machine

def Machine.begun (m : Machine) (f : FiberId) : Machine :=
  (m.entered f).withFiber f fun b => { b with status := .running }

/-- Whether a flow in a state can go on with some arguments. -/
def Status.accepts : Status → List Value → Bool
  | .notStarted, _ | .suspended, _ => true
  | _, arguments => arguments.isEmpty

/-- Whether a flow in a state has been left. -/
def Status.isLeft : Status → Bool
  | .suspended | .forceSuspended | .dead => true
  | _ => false

namespace Exec

variable {E : Engine} {f : FiberId} {n : Nat} {arguments : List Value} {status : Status} {m : Machine}

def takeSaved (f : FiberId) : Exec Resumption := do
  let ip ← readFiber f fun b => b.savedIp
  modifyFiber f fun b => { b with savedIp := none }
  return .after ip

/-- Hands the arguments of a resumption to a flow, and tells where it goes on. -/
def beginResume (E : Engine) (f : FiberId) (fuel : Nat) (arguments : List Value) :
    Status → Exec Resumption
  | .notStarted => do
    pushAll f arguments
    performCall E f fuel arguments.length { isEntry := true }
  | .suspended => do
    push f (.tuple arguments)
    takeSaved f
  | _ => takeSaved f

/-- What a flow that was set running does. -/
def proceed (E : Engine) (f : FiberId) (fuel : Nat) (arguments : List Value) (s : Status) :
    Exec Value := beginResume E f fuel arguments s >>= drive E f fuel

theorem continueSaved_eq (E : Engine) (f : FiberId) (n : Nat) :
    continueSaved E f n = takeSaved f >>= drive E f n := by
  simp only [continueSaved, takeSaved, bind_assoc, pure_bind]
  congr 1
  funext ip
  cases ip <;> rfl

theorem runResumed_of_accepts (h : status.accepts arguments) :
    runResumed E f n arguments status (m.entered f) = proceed E f n arguments status (m.begun f) := by
  have hset : setStatus f .running (m.entered f) = (.ok (), m.begun f) := rfl
  cases status with
  | notStarted =>
    simp only [runResumed, proceed, beginResume, bind_assoc]
    rw [bind_ok hset]
    rfl
  | suspended =>
    simp only [runResumed, proceed, beginResume, bind_assoc, continueSaved_eq]
    rw [bind_ok hset]
  | _ =>
    have hempty : arguments.isEmpty := h
    simp only [runResumed, if_pos hempty, proceed, beginResume, continueSaved_eq]
    rw [bind_ok hset]

theorem runResumed_of_not_accepts (h : ¬ status.accepts arguments) :
    runResumed E f n arguments status = complain .resumeForcedWithArguments := by
  cases status with
  | notStarted => exact absurd rfl h
  | suspended => exact absurd rfl h
  | _ =>
    have hempty : ¬ arguments.isEmpty := h
    simp only [runResumed, if_neg hempty]

theorem concludeResume_apply (f : FiberId) (r : Except Stop Value) (m : Machine) :
    ∃ u : Fiber → Fiber, (concludeResume f r m).2 = m.withFiber f u ∧
      ∀ b, ((u b).status = match r with
        | .ok (.yieldRequest _ true) => .forceSuspended
        | .ok (.yieldRequest _ false) => .suspended
        | _ => .dead) ∧ (u b).frames = b.frames ∧ (u b).savedIp = b.savedIp := by
  unfold concludeResume
  split
  · exact ⟨_, rfl, fun _ => ⟨rfl, rfl, rfl⟩⟩
  · exact ⟨_, rfl, fun _ => ⟨rfl, rfl, rfl⟩⟩
  · exact ⟨_, rfl, fun _ => ⟨by split <;> simp_all, rfl, rfl⟩⟩
  · split
    · exact ⟨_, m.withFiber_withFiber f _ _, fun _ => ⟨rfl, rfl, rfl⟩⟩
    · exact ⟨_, rfl, fun _ => ⟨rfl, rfl, rfl⟩⟩

theorem concludeResume_isLeft (f : FiberId) (r : Except Stop Value) (m : Machine) :
    ∃ u : Fiber → Fiber, (concludeResume f r m).2 = m.withFiber f u ∧
      ∀ b, (u b).status.isLeft ∧ (u b).frames = b.frames := by
  obtain ⟨u, happly, hu⟩ := concludeResume_apply f r m
  refine ⟨u, happly, fun b => ⟨?_, (hu b).2.1⟩⟩
  rw [(hu b).1]
  split <;> rfl

theorem resume_apply (hf : (m.fiber f).status.isResumable) (r : Except Stop Value × Machine)
    (hr : runResumed E f n arguments (m.fiber f).status (m.entered f) = r) :
    Exec.resume E n f arguments m =
      ((concludeResume f r.1 r.2).1, (concludeResume f r.1 r.2).2.exited f) := by
  rw [Exec.resume, bind_ok (readFiber_apply _ _ _), if_pos hf, entering_apply,
    bind_ok (attempt_apply hr)]

theorem resume_refused (hf : ¬ (m.fiber f).status.isResumable) : Exec.resume E n f arguments m =
    (.error (.fault (.complain (notResumable (m.fiber f).status))), m) := by
  rw [Exec.resume, bind_ok (readFiber_apply _ _ _), if_neg hf]
  rfl

/-- Where a resumption can leave the machine. -/
theorem resume_ends {P : Machine → Prop}
    (hleft : (m.fiber f).status.isResumable → (m.fiber f).status.accepts arguments →
      ∀ u : Fiber → Fiber, (∀ b, (u b).status.isLeft ∧ (u b).frames = b.frames) →
      P (((proceed E f n arguments (m.fiber f).status (m.begun f)).2.withFiber f u).exited f))
    (hrefused : (m.fiber f).status.isResumable → ¬ (m.fiber f).status.accepts arguments →
      ∀ u : Fiber → Fiber, (∀ b, (u b).status = .dead ∧ (u b).frames = b.frames) →
      P (((m.entered f).withFiber f u).exited f))
    (hsame : ¬ (m.fiber f).status.isResumable → P m) : P (Exec.resume E n f arguments m).2 := by
  by_cases hf : (m.fiber f).status.isResumable
  · by_cases haccepts : (m.fiber f).status.accepts arguments
    · have hrun := runResumed_of_accepts (E := E) (f := f) (n := n) (m := m) haccepts
      obtain ⟨u, happly, hu⟩ := concludeResume_isLeft f
        (proceed E f n arguments (m.fiber f).status (m.begun f)).1
        (proceed E f n arguments (m.fiber f).status (m.begun f)).2
      rw [congrArg Prod.snd (resume_apply hf _ hrun), happly]
      exact hleft hf haccepts u hu
    · have hrun := runResumed_of_not_accepts (E := E) (f := f) (n := n) haccepts
      obtain ⟨u, happly, hu⟩ := concludeResume_apply f
        (.error (.fault (.complain .resumeForcedWithArguments))) (m.entered f)
      rw [congrArg Prod.snd (resume_apply hf _ (congrFun hrun _))]
      exact (congrArg (fun m' => P (exited m' f)) happly).mpr
        (hrefused hf haccepts u fun b => ⟨(hu b).1, (hu b).2.1⟩)
  · rw [resume_refused hf]
    exact hsame hf

theorem closeSuspended_apply (E : Engine) (f : FiberId) (n : Nat) (m : Machine) :
    ∃ u : Fiber → Fiber, (closeSuspended E n f m).2 =
      ((closeFrames E f n (m.begun f)).2.withFiber f u).exited f ∧
        ∀ b, (u b).status = .dead ∧ (u b).frames = #[] := by
  rw [closeSuspended, entering_apply, setStatus, bind_ok (modifyFiber_apply _ _ _), ← begun]
  rcases hrun : closeFrames E f n (m.begun f) with ⟨r, m'⟩
  rw [bind_ok (attempt_apply hrun), bind_ok (modifyFiber_apply _ _ _)]
  split
  · exact ⟨_, congrArg (exited · f) (m'.withFiber_withFiber f _ _), fun _ => ⟨rfl, rfl⟩⟩
  · exact ⟨_, congrArg (exited · f) (m'.withFiber_withFiber f _ _), fun _ => ⟨rfl, rfl⟩⟩
  · exact ⟨_, rfl, fun _ => ⟨rfl, rfl⟩⟩

theorem close_apply (E : Engine) (f : FiberId) (n : Nat) (m : Machine) :
    Exec.close E n f m = match (m.fiber f).status with
      | s@.main | s@.running => (.error (.fault (.complain (notClosable s))), m)
      | .dead => (.ok (closeResult (m.fiber f).closeError), m)
      | .notStarted => (.ok (.bool true), m.withFiber f fun b => { b with status := .dead })
      | .suspended | .forceSuspended => closeSuspended E n f m := by
  rw [Exec.close, bind_ok (readFiber_apply _ _ _)]
  cases (m.fiber f).status <;> rfl

/-- Where a close can leave the machine. -/
theorem close_ends {P : Machine → Prop}
    (hleft : (m.fiber f).status.isResumable → ∀ u : Fiber → Fiber,
      (∀ b, (u b).status = .dead ∧ (u b).frames = #[]) →
      P (((closeFrames E f n (m.begun f)).2.withFiber f u).exited f))
    (hdead : (m.fiber f).status = .notStarted → P (m.withFiber f fun b => { b with status := .dead }))
    (hsame : ¬ (m.fiber f).status.isResumable → P m) : P (Exec.close E n f m).2 := by
  have hsuspended (hf : (m.fiber f).status.isResumable) : P (closeSuspended E n f m).2 := by
    obtain ⟨u, happly, hu⟩ := closeSuspended_apply E f n m
    rw [happly]
    exact hleft hf u hu
  rw [congrArg Prod.snd (close_apply E f n m)]
  cases hstatus : (m.fiber f).status with
  | suspended => exact hsuspended (by rw [hstatus]; rfl)
  | forceSuspended => exact hsuspended (by rw [hstatus]; rfl)
  | notStarted => exact hdead hstatus
  | _ => exact hsame (by rw [hstatus]; decide)

theorem callFunction_leaves (E : Engine) (n : Nat) (function : Value) (arguments : List Value)
    (m : Machine) : ∃ u : Fiber → Fiber, (callFunction E n function arguments m).2 =
      (reportEnd m.currentFiber (((hostCall E m.currentFiber n function arguments
        (m.prepared m.currentFiber)).2.withFiber m.currentFiber u).exited m.currentFiber)).2 ∧
        ∀ b, SameRole { b with canYield := (m.fiber m.currentFiber).canYield } (u b) ∧
          (u b).savedIp = b.savedIp ∧ (u b).frames.size ≤ b.frames.size := by
  rw [callFunction_apply, ensuring_apply fun m' => (reportEnd_apply m.currentFiber m').1,
    entering_apply, guarded_apply, ← prepared]
  have hyield : ((m.entered m.currentFiber).fiber m.currentFiber).canYield =
      (m.fiber m.currentFiber).canYield := by
    rw [fiber_entered]
    exact fiber_withFiber_of (v := Fiber.canYield) rfl _
  rcases hostCall E m.currentFiber n function arguments (m.prepared m.currentFiber) with ⟨s | a, m'⟩
  · refine ⟨_, congrArg (fun m' => (reportEnd m.currentFiber (exited m' m.currentFiber)).2)
      (m'.withFiber_withFiber m.currentFiber _ _), fun b => ⟨?_, rfl, ?_⟩⟩
    · exact ⟨rfl, hyield, rfl, rfl, rfl, rfl⟩
    · exact Array.size_shrink.trans_le (Nat.min_le_right _ _)
  · exact ⟨_, rfl, fun b => ⟨⟨rfl, hyield, rfl, rfl, rfl, rfl⟩, rfl, le_rfl⟩⟩

end Exec

namespace Likeness

variable {c : Likeness} [c.Lawful] {α : Type} {f : FiberId} {m : Machine} {x y : Exec α}
  {arguments : List Value} {u : Fiber → Fiber}

theorem of_withFiber (hu : ∀ b budget, u { b with budget } = { u b with budget }) (m : Machine)
    (f : FiberId) : (c.of m).withFiber f u = c.of (m.withFiber f u) := by
  rw [of, of, withFiber, withFiber, Lawful.modify _ _ hu]

theorem of_entered (m : Machine) (f : FiberId) : (c.of m).entered f = c.of (m.entered f) := by
  unfold entered
  rw [of_withFiber fun _ _ => rfl]
  dsimp only
  split <;> rfl

theorem of_exited (m : Machine) (f : FiberId) : (c.of m).exited f = c.of (m.exited f) := by
  unfold exited
  split
  · exact of_withFiber (u := fun b => { b with nesting := b.nesting - 1 }) (fun _ _ => rfl)
      { m with active := m.active.tail } f
  · exact of_withFiber (fun _ _ => rfl) m f

namespace SameAt

variable [c.Blind] {E' E : Engine} {n' n : Nat}

omit [c.Blind] in
theorem modifyFiber (hu : ∀ b budget, u { b with budget } = { u b with budget }) :
    c.SameAt m (modifyFiber f u) (Exec.modifyFiber f u) := by
  refine .inr ?_
  rw [modifyFiber_apply, modifyFiber_apply, of_withFiber hu]

omit [c.Lawful] in
theorem lax_elsewhere {r : Except Stop α} (m m' : Machine) (h : ∃ s, r = .error s ∧ c.lax s m) :
    ∃ s, r = .error s ∧ c.lax s m' := by
  obtain ⟨s, hs, hlax⟩ := h
  exact ⟨s, hs, Blind.lax m' hlax⟩

omit [c.Lawful] in
theorem ensuring {after : Exec Unit} {g : Machine → Machine} (hx : c.SameAt m x y)
    (hafter : ∀ m, after m = (.ok (), g m)) (hg : ∀ m, g (c.of m) = c.of (g m)) :
    c.SameAt m (ensuring x after) (Exec.ensuring y after) := by
  rw [SameAt, ensuring_apply hafter, ensuring_apply hafter]
  refine hx.imp (lax_elsewhere _ _) fun hy => ?_
  rw [hy, hg]

theorem entering (hx : c.SameAt (m.entered f) x y) :
    c.SameAt m (entering f x) (Exec.entering f y) := by
  rw [SameAt, entering_apply, entering_apply, of_entered]
  refine hx.imp (lax_elsewhere _ _) fun hy => ?_
  rw [hy, of_exited]

theorem guarded (hx : c.SameAt (m.withFiber f fun b => { b with canYield := false }) x y) :
    c.SameAt m (guarded f x) (Exec.guarded f y) := by
  obtain ⟨budget, hfiber⟩ := Lawful.fiber (c := c) m f
  rw [SameAt, guarded_apply, guarded_apply, hfiber, of_withFiber fun _ _ => rfl]
  rcases hrun : x (m.withFiber f fun b => { b with canYield := false }) with ⟨s | a, m'⟩ <;>
    rw [SameAt, hrun] at hx
  · refine hx.imp (lax_elsewhere _ _) fun hy => ?_
    rw [hy]
    dsimp only
    rw [of_withFiber fun _ _ => rfl, of_withFiber fun _ _ => rfl]
  · refine hx.imp (lax_elsewhere _ _) fun hy => ?_
    rw [hy]
    dsimp only
    rw [of_withFiber fun _ _ => rfl]

omit [c.Blind] in
theorem readFiber {g : Fiber → α} (hg : ∀ b budget, g { b with budget } = g b) :
    c.SameAt m (readFiber f g) (Exec.readFiber f g) := by
  refine .inr ?_
  obtain ⟨budget, hfiber⟩ := Lawful.fiber (c := c) m f
  rw [readFiber_apply, readFiber_apply, hfiber, hg]

theorem callFunction {function : Value}
    (h : c.SameAt (m.prepared m.currentFiber) (hostCall E m.currentFiber n function arguments)
      (hostCall E' m.currentFiber n' function arguments)) :
    c.SameAt m (callFunction E n function arguments) (Exec.callFunction E' n' function arguments) := by
  have hcurrent : (c.of m).currentFiber = m.currentFiber := rfl
  rw [SameAt, callFunction_apply, callFunction_apply, hcurrent]
  exact SameAt.ensuring (entering (guarded h)) (fun m => (reportEnd_apply _ m).1)
    (Lawful.reportEnd m.currentFiber)

omit [c.Blind] in
theorem concludeResume (r : Except Stop Value) :
    c.SameAt m (concludeResume f r) (Exec.concludeResume f r) := by
  have hset {u : Fiber → Fiber} {x : Exec Value} (hx : ∀ m, c.SameAt m x x)
      (hu : ∀ b budget, u { b with budget } = { u b with budget }) (m : Machine) :
      c.SameAt m (Exec.modifyFiber f u >>= fun _ => x) (Exec.modifyFiber f u >>= fun _ => x) :=
    .bind (modifyFiber hu) fun _ m' _ => hx m'
  unfold Exec.concludeResume
  split
  · exact hset (fun _ => .inr rfl) (fun _ _ => rfl) m
  · exact hset (fun _ => .inr rfl) (fun _ _ => rfl) m
  · exact hset (fun _ => .inr rfl) (fun _ _ => rfl) m
  · refine hset (fun m => ?_) (fun _ _ => rfl) m
    split
    · exact hset (fun _ => .inr rfl) (fun _ _ => rfl) m
    · exact .inr rfl

omit [c.Lawful] [c.Blind] in
theorem concludeResume_error (f : FiberId) (s : Stop) (m : Machine) :
    (Exec.concludeResume f (.error s) m).1 = .error s := by
  match s with
  | .fault (.runtime _) | .fault (.internal _) | .fault (.invalidOperation _)
  | .fault (.invalidArgument _) | .fault (.chunk _) | .fault (.configuration _) | .crash
  | .exhausted => rfl

theorem resume (h : (m.fiber f).status.isResumable →
      c.SameAt (m.entered f) (runResumed E f n arguments (m.fiber f).status)
        (runResumed E' f n' arguments (m.fiber f).status)) :
    c.SameAt m (resume E n f arguments) (Exec.resume E' n' f arguments) := by
  refine .bind (readFiber fun _ _ => rfl) fun status m' hrun => ?_
  obtain ⟨hstatus, rfl⟩ := Prod.mk.inj hrun
  obtain rfl := Except.ok.inj hstatus
  by_cases hres : (m.fiber f).status.isResumable
  · rw [if_pos hres, if_pos hres]
    exact entering ((h hres).attempt_bind (fun s m hlax => ⟨_, Prod.ext (concludeResume_error f s m) rfl,
      Blind.lax _ hlax⟩) (concludeResume _))
  · rw [if_neg hres, if_neg hres]
    exact .inr rfl

theorem closeSuspended (h : c.SameAt (m.begun f) (closeFrames E f n) (closeFrames E' f n')) :
    c.SameAt m (closeSuspended E n f) (Exec.closeSuspended E' n' f) := by
  refine entering (.bind (modifyFiber fun _ _ => rfl) fun _ m' hrun => ?_)
  obtain ⟨-, rfl⟩ := Prod.mk.inj hrun
  refine h.attempt_bind (fun s m hlax => ⟨_, Prod.ext ?_ rfl, Blind.lax _ hlax⟩)
    (.bind (modifyFiber fun _ _ => rfl) fun _ m' _ => ?_)
  · rcases s with (_ | _) | _
    · cases Lawful.passed hlax
    all_goals rfl
  · split
    · exact .bind (modifyFiber fun _ _ => rfl) fun _ _ _ => .inr rfl
    · exact .bind (modifyFiber fun _ _ => rfl) fun _ _ _ => .inr rfl
    · exact .inr rfl

theorem close (h : (m.fiber f).status = .suspended ∨ (m.fiber f).status = .forceSuspended →
      c.SameAt (m.begun f) (closeFrames E f n) (closeFrames E' f n')) :
    c.SameAt m (close E n f) (Exec.close E' n' f) := by
  refine .bind (readFiber fun _ _ => rfl) fun status m' hrun => ?_
  obtain ⟨hstatus, rfl⟩ := Prod.mk.inj hrun
  obtain rfl := Except.ok.inj hstatus
  dsimp only
  cases hstatus : (m.fiber f).status with
  | main => exact .inr rfl
  | running => exact .inr rfl
  | dead => exact .bind (readFiber fun _ _ => rfl) fun _ _ _ => .inr rfl
  | notStarted => exact .bind (modifyFiber fun _ _ => rfl) fun _ _ _ => .inr rfl
  | suspended => exact closeSuspended (h (.inl hstatus))
  | forceSuspended => exact closeSuspended (h (.inr hstatus))

omit [c.Blind] in
theorem runResumed {status : Status}
    (h : status.accepts arguments → c.SameAt (m.begun f) (proceed E f n arguments status)
      (proceed E' f n' arguments status)) :
    c.SameAt (m.entered f) (runResumed E f n arguments status)
      (Exec.runResumed E' f n' arguments status) := by
  by_cases haccepts : status.accepts arguments
  · have hof : c.of (m.begun f) = (c.of m).begun f := by
      rw [begun, begun, of_entered, of_withFiber fun _ _ => rfl]
    rw [SameAt, runResumed_of_accepts haccepts, ← of_entered, runResumed_of_accepts haccepts, ← hof]
    exact h haccepts
  · rw [runResumed_of_not_accepts haccepts, runResumed_of_not_accepts haccepts]
    exact .inr rfl

end SameAt

section Serving

variable [c.Blind] {E E' : Engine} {n n' : Nat}

theorem AlikeAt.resume (hsame : (m.fiber f).status.isResumable →
      ¬ c.Over (proceed E f n arguments (m.fiber f).status (m.begun f)).2 →
      c.SameAt (m.begun f) (proceed E f n arguments (m.fiber f).status)
        (proceed E' f n' arguments (m.fiber f).status))
    (hleft : (m.fiber f).status.isResumable → ∀ u : Fiber → Fiber,
      (∀ b, (u b).status.isLeft ∧ (u b).frames = b.frames) →
      let m' := (proceed E f n arguments (m.fiber f).status (m.begun f)).2
      c.Rel m ((m'.withFiber f u).exited f) ∧ (c.Over m' → c.Over ((m'.withFiber f u).exited f)))
    (hrefused : (m.fiber f).status.isResumable → ∀ u : Fiber → Fiber,
      (∀ b, (u b).status = .dead ∧ (u b).frames = b.frames) →
      c.Rel m (((m.entered f).withFiber f u).exited f)) (hrefl : c.Rel m m) :
    c.AlikeAt m (resume E n f arguments) (Exec.resume E' n' f arguments) := by
  refine resume_ends (P := fun m' => c.Rel m m' ∧ (¬ c.Over m' → _)) (fun hf _ u hu => ?_)
    (fun hf haccepts u hu => ⟨hrefused hf u hu,
      fun _ => .resume fun _ => .runResumed fun h => absurd h haccepts⟩)
    fun hf => ⟨hrefl, fun _ => .resume fun h => absurd h hf⟩
  obtain ⟨hrel, hover⟩ := hleft hf u hu
  exact ⟨hrel, fun h => .resume fun _ => .runResumed fun _ => hsame hf fun hp => h (hover hp)⟩

theorem AlikeAt.close
    (hsame : (m.fiber f).status.isResumable → ¬ c.Over (closeFrames E f n (m.begun f)).2 →
      c.SameAt (m.begun f) (closeFrames E f n) (closeFrames E' f n'))
    (hleft : (m.fiber f).status.isResumable → ∀ u : Fiber → Fiber,
      (∀ b, (u b).status = .dead ∧ (u b).frames = #[]) →
      let m' := (closeFrames E f n (m.begun f)).2
      c.Rel m ((m'.withFiber f u).exited f) ∧ (c.Over m' → c.Over ((m'.withFiber f u).exited f)))
    (hdead : (m.fiber f).status.isResumable →
      c.Rel m (m.withFiber f fun b => { b with status := .dead }))
    (hrefl : c.Rel m m) : c.AlikeAt m (close E n f) (Exec.close E' n' f) := by
  refine close_ends (P := fun m' => c.Rel m m' ∧ (¬ c.Over m' → _)) (fun hf u hu => ?_)
    (fun hf => ⟨hdead (by rw [hf]; rfl), fun _ => .close fun h => by simp [hf] at h⟩)
    fun hf => ⟨hrefl, fun _ => .close fun h => (hf (by rcases h with h | h <;> rw [h] <;> rfl)).elim⟩
  obtain ⟨hrel, hover⟩ := hleft hf u hu
  exact ⟨hrel, fun h => .close fun _ => hsame hf fun hp => h (hover hp)⟩

end Serving

section Running

variable [c.Hosts f] {E E' : Engine} (hE : c.Agree E E') {n n' : Nat} (hn : c.Enough n n')
include hE hn

theorem alike_beginCall (function : Value) (arguments : List Value) :
    c.AlikeRun (beginCall E f n function arguments) (beginCall E' f n' function arguments) :=
  .bind (alike_push _) fun _ => .bind (alike_pushAll _) fun _ => alike_performCall hE hn _ _

/-- What a call or a resumption has set in motion goes on alike. -/
theorem alike_driven {x y : Exec Resumption} (hx : c.AlikeRun x y) :
    c.AlikeRun (x >>= drive E f n) (y >>= drive E' f n') := by
  refine hx.follow (fun r => ?_) (fun r hp => ?_) nofun
  · cases r with
    | jump ip => exact alike_runFrom hE hn ip
    | _ => exact .of alike_pop
  · cases r with
    | yielded => exact ⟨alike_pop, fun _ => rfl⟩
    | _ => cases hp

theorem alike_hostCall (function : Value) (arguments : List Value) :
    c.AlikeRun (hostCall E f n function arguments) (hostCall E' f n' function arguments) :=
  alike_driven hE hn (alike_beginCall hE hn function arguments)

variable [c.Frees]

theorem alike_beginResume (arguments : List Value) (status : Status) :
    c.Alike (beginResume E f n arguments status) (beginResume E' f n' arguments status) := by
  have hforget : c.Alike (modifyFiber f fun b => { b with savedIp := none })
      (modifyFiber f fun b => { b with savedIp := none }) := fun m hm =>
    ⟨Frees.rel (Carries.parks none hm), fun _ => .modifyFiber fun _ _ => rfl⟩
  have hsaved : c.Alike (takeSaved f) (takeSaved f) :=
    .bind (.readFiber fun _ _ => rfl) fun _ => hforget.bind fun _ => .pure _
  cases status with
  | notStarted => exact .bind (alike_pushAll _) fun _ => (alike_performCall hE hn _ _).alike
  | suspended => exact .bind (alike_push _) fun _ => hsaved
  | _ => exact hsaved

theorem alike_proceed (arguments : List Value) (status : Status) :
    c.Alike (proceed E f n arguments status) (proceed E' f n' arguments status) :=
  (alike_driven hE hn (.of (alike_beginResume hE hn arguments status))).alike

end Running

end Likeness

section KeepingTo

variable {E : Engine} {f : FiberId} {n : Nat} {m m' : Machine}

theorem Status.idle_of_isResumable {s : Status} (h : s.isResumable) : s ≠ .main ∧ s ≠ .running := by
  constructor <;> rintro rfl <;> cases h

theorem Sound.left (hm : Sound m) (hf : (m.fiber f).status.isResumable) (hkeeps : Keeps (· ≠ f) (m.entered f) m')
    (u : Fiber → Fiber) : (keepingTo fun _ => False).Rel m ((m'.withFiber f u).exited f) :=
  Undisturbed.keepsTo (fun _ => ((hkeeps.trans (.withFiber _ f u)).exited).undisturbed
    (Status.idle_of_isResumable hf)) ⟨hm, nofun⟩

theorem Sound.keeps_of_alike {α : Type} {x : Exec α} (hm : Sound m) (hf : (m.fiber f).status.isResumable)
    (hx : (keepingTo (· = f)).Alike x x) : Keeps (· ≠ f) (m.entered f) (x (m.begun f)).2 := by
  obtain ⟨hlt, hne⟩ := hm.idle (Status.idle_of_isResumable hf).1
  obtain ⟨hsound, hbusy⟩ := sound_entered hm hlt hne
  exact (Keeps.withFiber _ f _).trans (alone_of_alike hsound hbusy hx).keeps

theorem undisturbed_resumeFiber (hE : Quiet E) (n : Nat) (f : FiberId) (arguments : List Value) :
    Preserves Undisturbed (Exec.resume E n f arguments) := fun m hm => by
  have halike : (keepingTo fun _ => False).AlikeAt m (Exec.resume E n f arguments)
      (Exec.resume E n f arguments) := .resume (fun _ _ => .inr rfl)
    (fun hf u _ => ⟨hm.left hf (hm.keeps_of_alike hf (Likeness.alike_proceed hE.keepsTo (.inl rfl) _ _)) u, id⟩)
    (fun hf u _ => hm.left hf (.refl _) u) (Likeness.Lawful.refl m)
  exact halike.1.1.mono fun _ _ h => h

theorem undisturbed_closeFiber (hE : Quiet E) (n : Nat) (f : FiberId) :
    Preserves Undisturbed (Exec.close E n f) := fun m hm => by
  have halike : (keepingTo fun _ => False).AlikeAt m (Exec.close E n f) (Exec.close E n f) := .close
    (fun _ _ => .inr rfl)
    (fun hf u _ => ⟨hm.left hf (hm.keeps_of_alike hf (Likeness.alike_closeFrames hE.keepsTo (.inl rfl))) u, id⟩)
    (fun hf => Undisturbed.keepsTo (fun _ => (Keeps.withFiber m f _).undisturbed
      (Status.idle_of_isResumable hf)) ⟨hm, nofun⟩) (Likeness.Lawful.refl m)
  exact halike.1.1.mono fun _ _ h => h

end KeepingTo

end ScriptMachine
