import ScriptMachine.Proofs.Machine.Finishing
import ScriptMachine.Proofs.Machine.Isolation

namespace ScriptMachine

open Exec Machine Likeness

/-- All coroutines that can be resumed are in order. -/
structure Machine.Ordered (m : Machine) : Prop where
  sound : Sound m
  formed : ∀ f, (m.fiber f).status.isResumable → (m.fiber f).Formed

section Ordered

variable {m m' : Machine} {f : FiberId}

theorem Status.not_resumable_of_busy (hf : Busy m f) : ¬ (m.fiber f).status.isResumable := by
  rcases hf.2 with h | h <;> rw [h] <;> decide

theorem Machine.Ordered.change (hm : m.Ordered) (hsound : Sound m')
    (hf : (m'.fiber f).status.isResumable → (m'.fiber f).Formed)
    (hsame : ∀ g, g ≠ f → m'.fiber g = m.fiber g) : m'.Ordered := by
  refine ⟨hsound, fun g hg => ?_⟩
  by_cases hEq : g = f
  · exact hEq ▸ hf (hEq ▸ hg)
  · rw [hsame g hEq] at hg ⊢
    exact hm.formed g hg

theorem Machine.Ordered.withFiber {u : Fiber → Fiber} (hm : m.Ordered) (hf : Busy m f)
    (hrole : SameRole (m.fiber f) (u (m.fiber f))) :
    (m.withFiber f u).Ordered ∧ Busy (m.withFiber f u) f := by
  have halone : Alone f m (m.withFiber f u) := .withFiber hf.1 hrole
  have hbusy := halone.busy hf
  exact ⟨hm.change (halone.sound hm.sound) (fun h => (Status.not_resumable_of_busy hbusy h).elim)
    fun g hg => fiber_withFiber_ne hg, hbusy⟩

theorem Machine.Ordered.of_fibers (hm : m.Ordered) (hactive : m'.active = m.active)
    (hfibers : m'.fibers = m.fibers) : m'.Ordered := by
  have hfiber (g : FiberId) : m'.fiber g = m.fiber g := by rw [fiber, fiber, hfibers]
  refine ⟨⟨?_, fun g hg => ?_⟩, fun g hg => ?_⟩
  · rw [hfibers, hfiber]
    exact hm.sound.main
  · rw [hactive] at hg
    rw [hfibers, hfiber]
    exact hm.sound.active g hg
  · rw [hfiber] at hg ⊢
    exact hm.formed g hg

theorem Machine.Ordered.spawned (hm : m.Ordered) (id : ClosureId) : (m.spawned (.closure id)).Ordered := by
  have hsize : (m.spawned (.closure id)).fibers.size = m.fibers.size + 1 := Array.size_push _
  have hold (g : FiberId) (hg : g.index < m.fibers.size) :
      (m.spawned (.closure id)).fiber g = m.fiber g := Machine.fiber_spawned hg _
  refine ⟨⟨?_, fun g hg => ?_⟩, fun g hg => ?_⟩
  · rw [hsize, hold Machine.mainFiber hm.sound.main.1]
    exact ⟨Nat.succ_pos _, hm.sound.main.2⟩
  · obtain ⟨hlt, hrunning⟩ := hm.sound.active g hg
    rw [hsize, hold g hlt]
    exact ⟨hlt.trans (Nat.lt_succ_self _), hrunning⟩
  · by_cases hlt : g.index < m.fibers.size
    · rw [hold g hlt] at hg ⊢
      exact hm.formed g hg
    · by_cases hnew : g.index = m.fibers.size
      · obtain ⟨budget, owner, hfiber⟩ : ∃ budget owner, (m.spawned (.closure id)).fiber g =
            { values := #[.closure id], status := .notStarted, budget, owner } := by
          simp [Machine.fiber, Machine.spawned, Array.getD_eq_getD_getElem?, hnew]
        rw [hfiber]
        exact ⟨⟨trivial, rfl⟩, fun _ => ⟨rfl, id, rfl⟩⟩
      · have hnone : (m.spawned (.closure id)).fiber g = default := by
          rw [Machine.fiber, Array.getD_eq_getD_getElem?, Array.getElem?_eq_none (by omega)]
          rfl
        rw [hnone] at hg
        cases hg

end Ordered

/-- A run on a flow during which all coroutines stay in order. -/
def ordering (f : FiberId) : Likeness where
  image := id
  Good m := m.Ordered ∧ Busy m f
  Rel m m' := m.Ordered ∧ Busy m f → m'.Ordered ∧ Busy m' f
  lax _ _ := False

section Ordering

variable {f : FiberId}

theorem Busy.of_fibers {m m' : Machine} (hf : Busy m f) (hfibers : m'.fibers = m.fibers) : Busy m' f := by
  rw [Busy, fiber, hfibers]
  exact hf

instance : (ordering f).Lawful := Reflexive.lawful {
  refl _ := id
  trans h h' hm := h' (h hm)
  good hm h := h hm
  beside _ h hm := ⟨hm.1.of_fibers h.active h.fibers, hm.2.of_fibers h.fibers⟩
  observed _ _ _ hm := ⟨hm.1.of_fibers rfl rfl, hm.2⟩
  spawned {m} id _ hm := by
    refine ⟨hm.1.spawned id, ?_⟩
    rw [Busy, fiber_spawned hm.2.1]
    exact ⟨hm.2.1.trans_le ((Nat.le_succ _).trans_eq (Array.size_push _).symm), hm.2.2⟩
  callback _ _ hm := ⟨hm.1.of_fibers rfl rfl, hm.2⟩
  spent _ _ hm := ⟨hm.1.of_fibers rfl rfl, hm.2⟩ }

instance : (ordering f).Hosts f where
  onStacks _ hrole _ _ hm := hm.1.withFiber hm.2 hrole
  parks _ _ hm := hm.1.withFiber hm.2 (.stacks ..)
  canYield _ _ := trivial
  budget _ _ := ⟨id, fun _ => .inr rfl⟩

instance : (ordering f).Frees where
  rel h := h

instance : (ordering f).Blind where
  lax _ h := h

end Ordering

section Serving

variable {E E' : Engine} {m : Machine} {n : Nat} {r : Request} {f : FiberId} {arguments : List Value}

theorem Machine.Ordered.prepared (hm : m.Ordered) :
    (ordering m.currentFiber).Good (m.prepared m.currentFiber) := by
  obtain ⟨hsound, hbusy⟩ := hm.sound.prepared hm.sound.busy_current hm.sound.running_current
  refine ⟨hm.change hsound (fun h => (Status.not_resumable_of_busy hbusy h).elim) fun g hg => ?_, hbusy⟩
  rw [Machine.prepared, Machine.fiber_withFiber_ne hg, fiber_entered_ne hg]

theorem Machine.Ordered.begun (hm : m.Ordered) (hf : (m.fiber f).status.isResumable) :
    (ordering f).Good (m.begun f) := by
  obtain ⟨hsound, hbusy⟩ := hm.sound.begun hf
  refine ⟨hm.change hsound (fun h => (Status.not_resumable_of_busy hbusy h).elim) fun g hg => ?_, hbusy⟩
  rw [Machine.begun, Machine.fiber_withFiber_ne hg, fiber_entered_ne hg]

theorem Status.isResumable_of_suspended {s : Status} (h : s = .suspended ∨ s = .forceSuspended) :
    s.isResumable := by
  rcases h with rfl | rfl <;> rfl

/-- A request is served in the same way if all that comes up in a flow in order is. -/
theorem same_serve (hm : m.Ordered) (hE : (ordering (r.flow m)).Agree E E') :
    (ordering (r.flow m)).SameAt m (serve E n r) (serve E' n r) := by
  cases r with
  | call function arguments =>
    have hE : (ordering m.currentFiber).Agree E E' := hE
    exact .callFunction ((alike_hostCall (f := m.currentFiber) hE (.inl rfl) function
      arguments _ hm.prepared).2 id)
  | resume f arguments =>
    have hE : (ordering f).Agree E E' := hE
    exact .resume fun hf => .runResumed fun _ =>
      (alike_proceed (f := f) hE (.inl rfl) arguments _ _ (hm.begun hf)).2 id
  | close f =>
    have hE : (ordering f).Agree E E' := hE
    exact .close fun hs => (alike_closeFrames (f := f) hE (.inl rfl) _
      (hm.begun (Status.isResumable_of_suspended hs))).2 id
  | invoke native site arguments method =>
    exact (alike_invoke hE site _ native m ⟨hm, hm.sound.busy_current⟩).2 id

/-- If all is in order while a flow runs, it is so when the flow has been left, but for the flow. -/
theorem Machine.Ordered.left {p : Machine} (hp : (ordering f).Good p) {u : Fiber → Fiber} {m' : Machine}
    (hm' : m' = (p.withFiber f u).exited f) (hsound : Sound m')
    (hf : (m'.fiber f).status.isResumable → (m'.fiber f).Formed) : m'.Ordered := by
  refine hp.1.change hsound hf fun g hg => ?_
  rw [hm', fiber_exited_ne hg, fiber_withFiber_ne hg]

section

variable (hm : m.Ordered) (hquiet : Quiet E)
include hm hquiet

theorem ordered_resume (hE : (ordering f).Agree E E) : (Exec.resume E n f arguments m).2.Ordered := by
  have hsound := (undisturbed_resumeFiber hquiet n f arguments m hm.sound).sound hm.sound
  refine resume_ends (E := E) (n := n) (P := (· = (Exec.resume E n f arguments m).2 → Ordered _))
    (fun hf haccepts u _ hfinal => ?_) (fun hf _ u hu hfinal => ?_) (fun _ hfinal => hfinal ▸ hm) rfl
  · have hproceed := (alike_proceed (f := f) hE (.inl (rfl : n = n)) arguments
      (m.fiber f).status _ (hm.begun hf)).1 (hm.begun hf)
    exact .left hproceed hfinal.symm hsound
      (resume_leaves (n := n) hm.sound hf (hm.formed f hf) hquiet haccepts).1
  · refine hm.change (f := f) hsound (fun h => ?_) fun g hg => ?_
    · have hlt : f.index < (m.entered f).fibers.size := by
        rw [size_entered]
        exact (hm.sound.of_resumable hf).1
      rw [← hfinal, fiber_exited, fiber_withFiber_self (Array.size_modify.symm ▸ hlt),
        fiber_withFiber_self hlt, (hu _).1] at h
      cases h
    · rw [← hfinal, fiber_exited_ne hg, fiber_withFiber_ne hg, fiber_entered_ne hg]

theorem ordered_close (hE : (ordering f).Agree E E) : (Exec.close E n f m).2.Ordered := by
  have hsound := (undisturbed_closeFiber hquiet n f m hm.sound).sound hm.sound
  refine close_ends (E := E) (n := n) (P := (· = (Exec.close E n f m).2 → Ordered _))
    (fun hf u hu hfinal => ?_) (fun hf hfinal => ?_) (fun _ hfinal => hfinal ▸ hm) rfl
  · have hclose := (alike_closeFrames (f := f) hE (.inl (rfl : n = n)) _ (hm.begun hf)).1
      (hm.begun hf)
    refine .left (u := u) hclose hfinal.symm hsound fun h => ?_
    rw [← hfinal, fiber_exited, fiber_withFiber_self (Array.size_modify.symm ▸ hclose.2.1),
      fiber_withFiber_self hclose.2.1, (hu _).1] at h
    cases h
  · refine hm.change (f := f) hsound (fun h => ?_) fun g hg => ?_
    · rw [← hfinal, fiber_withFiber_self (hm.sound.of_resumable (by rw [hf]; rfl)).1] at h
      cases h
    · rw [← hfinal, fiber_withFiber_ne hg]

omit hquiet in
theorem ordered_callFunction (hE : (ordering m.currentFiber).Agree E E) {function : Value}
    (hkeeps : Keeps (fun _ => True) m (callFunction E n function arguments m).2) :
    (callFunction E n function arguments m).2.Ordered := by
  have hcall := ((alike_hostCall (f := m.currentFiber) hE (.inl (rfl : n = n)) function
    arguments _ hm.prepared).alikeAt fun _ _ h => h).1 hm.prepared
  obtain ⟨u, hleft, -⟩ := callFunction_leaves E n function arguments m
  refine hcall.1.change (f := m.currentFiber) (hkeeps.sound hm.sound) (fun h => ?_) fun g hg => ?_
  · rw [hkeeps.fiber _ trivial hm.sound.busy_current] at h
    exact (Status.not_resumable_of_busy hm.sound.busy_current h).elim
  · have hend := (reportEnd_apply m.currentFiber (((hostCall E m.currentFiber n function arguments
      (m.prepared m.currentFiber)).2.withFiber m.currentFiber u).exited m.currentFiber)).2.fibers
    rw [hleft, fiber, hend]
    exact (fiber_exited_ne hg).trans (fiber_withFiber_ne hg)

end

end Serving

section Watched

/-- Under watch, all coroutines stay in order. -/
theorem ordering_watched (n : Nat) (f : FiberId) : (ordering f).Agree (watched n) (watched n) := by
  induction n generalizing f with
  | zero => exact fun _ => .throw _
  | succ n ih =>
    intro r m hm
    refine ⟨fun _ => ⟨?_, ?_⟩, fun _ => .inr rfl⟩
    · obtain hgiven | ⟨hserved, horderly⟩ := watched_succ_cases n r m
      · rw [hgiven]
        exact hm.1
      · rw [hserved]
        cases r with
        | call function arguments =>
          exact ordered_callFunction hm.1 (ih _)
            (callFunction_keeps (quiet_watched n) hm.1.sound (horderly _ _ rfl))
        | resume f arguments => exact ordered_resume hm.1 (quiet_watched n) (ih f)
        | close f => exact ordered_close hm.1 (quiet_watched n) (ih f)
        | invoke native site arguments method =>
          exact ((alike_invoke (ih m.currentFiber) site _ native m
            ⟨hm.1, hm.1.sound.busy_current⟩).1 ⟨hm.1, hm.1.sound.busy_current⟩).1
    · have hkeeps := quiet_watched (n + 1) r m hm.1.sound
      exact ⟨hm.2.1.trans_le hkeeps.size, by rw [hkeeps.fiber f trivial hm.2]; exact hm.2.2⟩

variable {m : Machine} {n : Nat} {request : Request} (hm : m.Ordered)
  (hserved : (watched n request m).1 ≠ .error .exhausted)
include hm hserved

theorem ordered_of_watched : (engine n request m).2.Ordered := by
  rw [agrees_watched n request m hserved]
  have hgood : (ordering m.currentFiber).Good m := ⟨hm, hm.sound.busy_current⟩
  exact ((ordering_watched n m.currentFiber request m hgood).1 hgood).1

/-- In a run that is served under watch, all coroutines are in order whenever a request comes up, and
it is served under watch. -/
theorem ordered_of_reached {k : Nat} {r : Request} {m' : Machine}
    (hr : Reached n (fun E => E request) m k r m') :
    m'.Ordered ∧ (watched k r m').1 ≠ .error .exhausted := by
  induction hr with
  | outer hasks =>
    exact served_of_asks (P := fun _ m => m.Ordered) (fun hE => hE request) (agrees_watched n)
      (fun V hV => hV request m hm) hserved hasks
  | nested _ hasks ih =>
    rename_i k r m' _ _ _
    obtain ⟨hm', hgiven⟩ := ih
    obtain hgives | ⟨hserves, -⟩ := watched_succ_cases k r m'
    · rw [hgives] at hgiven
      exact absurd rfl hgiven
    · rw [hserves] at hgiven
      refine served_of_asks (P := fun _ m => m.Ordered) (fun hE => hE.serve le_rfl r) (agrees_watched k)
        (fun V hV => ?_) hgiven hasks
      have hagree : (ordering (r.flow m')).Agree (watched k) V := fun r' s hs =>
        ⟨(ordering_watched k _ r' s hs).1, fun _ => .inr (hV r' s hs.1)⟩
      rcases same_serve (n := k) hm' hagree with ⟨_, _, hlax⟩ | hsame
      · exact hlax.elim
      · exact hsame

end Watched

end ScriptMachine
