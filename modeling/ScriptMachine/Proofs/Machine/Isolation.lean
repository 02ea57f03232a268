import ScriptMachine.Proofs.Machine.Agreement
import ScriptMachine.Proofs.Machine.Lifetimes

namespace ScriptMachine

open Exec Relation Machine Likeness

variable {f : FiberId} {m m' : Machine} {request : Request} {x : Exec Resumption}

/-- Whether a request is one to resume or to close a flow. -/
def Request.wakes (p : FiberId) : Request → Bool
  | .resume f _ | .close f => f = p
  | _ => false

open Classical in
/-- The engine, except that it gives up when it is to resume or to close a flow that waits just as
given. -/
noncomputable def sparing (p : FiberId) (b : Fiber) : Nat → Engine
  | 0, _ => throw .exhausted
  | fuel + 1, request => fun m =>
    if request.wakes p && b.status.isResumable && decide (m.fiber p = b) then (.error .exhausted, m)
    else serve (sparing p b fuel) fuel request m

/-- A request is served to its end, on the way to which nothing resumes or closes a flow that waits
just as given. -/
def Request.Spares (request : Request) (p : FiberId) (b : Fiber) (n : Nat) (m : Machine) : Prop :=
  (sparing p b n request m).1 ≠ .error .exhausted

section Sparing

theorem sparing_succ_cases (p : FiberId) (b : Fiber) (n : Nat) (request : Request) (m : Machine) :
    sparing p b (n + 1) request m = (.error .exhausted, m) ∨
    ¬ (request.wakes p ∧ b.status.isResumable ∧ m.fiber p = b) ∧
      sparing p b (n + 1) request m = serve (sparing p b n) n request m := by
  simp only [sparing]
  split
  · exact .inl rfl
  · rename_i h
    refine .inr ⟨fun ⟨hwakes, hres, hb⟩ => h ?_, rfl⟩
    simp only [hwakes, hres, hb, Bool.and_self, decide_true]

theorem agrees_sparing (p : FiberId) (b : Fiber) (n : Nat) : Agrees (sparing p b n) (engine n) :=
  agrees_of_serves (fun _ _ => rfl) (fun n r m => (sparing_succ_cases p b n r m).imp_right And.right)
    le_rfl

theorem living_sparing (start : Machine) (past : Set Machine) (p : FiberId) (b : Fiber) (n : Nat) :
    (living start past).Agree (sparing p b n) (sparing p b n) := by
  induction n with
  | zero => exact fun _ => .throw _
  | succ n ih =>
    refine fun request m hm => ⟨?_, fun _ => .inr rfl⟩
    obtain hgives | ⟨-, hserves⟩ := sparing_succ_cases p b n request m
    · rw [hgives]
      exact Lawful.refl m
    · rw [hserves]
      exact (tracking_serve ih n request m hm).1

end Sparing

theorem Lives.size_le (h : Lives m m') : m.fibers.size ≤ m'.fibers.size := by
  induction h with
  | refl => exact le_rfl
  | tail _ hstep ih => exact ih.trans hstep.size

theorem Machine.fiber_spawned (hf : f.index < m.fibers.size) (function : Value) :
    (m.spawned function).fiber f = m.fiber f := by
  simp only [fiber, spawned, Array.getD_eq_getD_getElem?, Array.getElem?_push, hf.ne, if_false]

/-- A run that leaves a flow as it is, once the flow is just as given. That may be a flow in the
middle of a run only if another one runs now. -/
def isolating (p : FiberId) (b : Fiber) : Likeness where
  image := id
  Good m := m.Attuned ∧ p.index < m.fibers.size ∧
    (m.currentFiber = p → b.status ≠ .main ∧ b.status ≠ .running)
  Rel m m' := (living m ∅).Rel m m' ∧ (m.fiber p = b → m'.fiber p = b)
  lax s _ := s = .exhausted

section Isolating

variable {p : FiberId} {b : Fiber}

theorem isolating_lives (h : (living m ∅).Rel m m') (hm : (isolating p b).Good m) :
    (isolating p b).Good m' := by
  obtain ⟨hattuned, hlt, hcurrent⟩ := hm
  refine ⟨h.2.lives.attuned hattuned, hlt.trans_le h.2.lives.size_le, ?_⟩
  rw [currentFiber, h.1]
  exact hcurrent

theorem isolating_of_same (hm : (isolating p b).Good m)
    (hlives : (living m ∅).Good m → (living m ∅).Rel m m') (hsame : m'.fiber p = m.fiber p) :
    (isolating p b).Rel m m' :=
  ⟨hlives ⟨hm.1, .refl m⟩, fun h => hsame.trans h⟩

instance : (isolating p b).Lawful := Reflexive.lawful {
  refl m := ⟨Lawful.refl m, id⟩
  trans h h' := ⟨⟨h'.1.1.trans h.1.1, h.1.2.trans h'.1.2⟩, fun hb => h'.2 (h.2 hb)⟩
  good hm h := isolating_lives h.1 hm
  passed h := h ▸ rfl
  beside hm h := isolating_of_same hm (Lawful.beside · h) (by
    simp only [fiber, h.fibers])
  observed _ _ hm := isolating_of_same hm (reflexive_tracking.observed _ _) rfl
  spawned id hm :=
    isolating_of_same hm (Lawful.spawned id) (fiber_spawned hm.2.1 (.closure id))
  callback id hm := isolating_of_same hm (Lawful.callback id) rfl
  spent hm h := isolating_of_same hm (Lawful.spent · h) rfl }

instance : (isolating p b).Frees where
  rel h := h

instance : (isolating p b).Blind where
  lax _ h := h

theorem hosts_isolating (hf : f ≠ p) : (isolating p b).Hosts f where
  onStacks hm hu hsaved hframes :=
    isolating_of_same hm (Carries.onStacks · hu hsaved hframes)
    (fiber_withFiber_ne hf.symm)
  parks savedIp hm := isolating_of_same hm (Carries.parks savedIp)
    (fiber_withFiber_ne hf.symm)
  canYield _ _ := trivial
  budget _ _ := ⟨⟨Lawful.refl _, id⟩, fun _ => .inr rfl⟩

theorem fiber_entered_ne {f' : FiberId} (hf : f' ≠ f) : (m.entered f).fiber f' = m.fiber f' := by
  rw [fiber_entered, fiber_withFiber_ne hf]

theorem fiber_exited_ne {f' : FiberId} (hf : f' ≠ f) : (m.exited f).fiber f' = m.fiber f' := by
  rw [fiber_exited, fiber_withFiber_ne hf]

theorem currentFiber_entered (hf : f = mainFiber → m.currentFiber = f) :
    (m.entered f).currentFiber = f := by
  rw [currentFiber, active_entered]
  split
  · rfl
  · rename_i h
    exact hf (not_not.1 h)

variable {E : Engine} (hE : (isolating p b).Agree E E) (hlives : ∀ m, (living m ∅).Agree E E)
  (n : Nat) {m : Machine} (hm : (isolating p b).Good m)
include hE hlives hm

omit hE hlives in
theorem currentFiber_ne_of_isolating (hb : m.fiber p = b) : m.currentFiber ≠ p := by
  intro hcurrent
  obtain ⟨hmain, hrunning⟩ := hm.2.2 hcurrent
  rw [← hb] at hmain hrunning
  refine hrunning ((hm.1.running p).2 (hcurrent ▸ mem_active_current fun h => ?_))
  exact hmain (hcurrent.symm.trans h ▸ hm.1.main.2)

theorem isolating_callFunction (function : Value) (arguments : List Value) :
    (isolating p b).Rel m (callFunction E n function arguments m).2 := by
  refine ⟨(callFunction_trails (hlives m) n ⟨hm.1, .refl m⟩ function arguments).1, fun hb => ?_⟩
  have hne := currentFiber_ne_of_isolating hm hb
  have := hosts_isolating (b := b) hne
  have hprepared : (m.prepared m.currentFiber).fiber p = m.fiber p := by
    rw [prepared, fiber_withFiber_ne hne.symm, fiber_entered_ne hne.symm]
  have hgood : (isolating p b).Good (m.prepared m.currentFiber) :=
    ⟨hm.1.advance_prepared.attuned, hm.2.1.trans_le hm.1.advance_prepared.size, fun h =>
      absurd ((currentFiber_entered fun h => rfl).symm.trans h) hne⟩
  have hcall := ((alike_hostCall (f := m.currentFiber) hE (.inl (rfl : n = n)) function
    arguments).alike _ hgood).1.2 (hprepared.trans hb)
  obtain ⟨u, hleft, -⟩ := callFunction_leaves E n function arguments m
  rw [hleft, fiber, (reportEnd_apply _ _).2.fibers, ← fiber,
    fiber_exited_ne hne.symm, fiber_withFiber_ne hne.symm]
  exact hcall

omit hE hlives in
theorem isolating_begun (hf : (m.fiber f).status.isResumable) (hne : f ≠ p) :
    (isolating p b).Good (m.begun f) ∧ (m.begun f).fiber p = m.fiber p := by
  have hadvance := hm.1.advance_begun hf
  refine ⟨⟨hadvance.attuned, hm.2.1.trans_le hadvance.size, fun h => ?_⟩, ?_⟩
  · exact absurd ((currentFiber_entered fun h => absurd h (hm.1.ne_main_of_resumable hf)).symm.trans h)
      hne
  · rw [begun, fiber_withFiber_ne hne.symm, fiber_entered_ne hne.symm]

omit hE hlives in
theorem isolating_inside (hf : (m.fiber f).status.isResumable) (hne : f ≠ p)
    (hrel : (isolating p b).Rel (m.begun f) m') {u : Fiber → Fiber}
    (hu : Status.running.mayBecome (u (m'.fiber f)).status) :
    (isolating p b).Rel m ((m'.withFiber f u).exited f) := by
  have hgood : (living m ∅).Good m := ⟨hm.1, .refl m⟩
  refine ⟨(tracking_inside hgood hf hrel.1 hu).1, fun hb => ?_⟩
  rw [fiber_exited_ne (Ne.symm hne), fiber_withFiber_ne (Ne.symm hne)]
  exact hrel.2 ((isolating_begun hm hf hne).2.trans hb)

theorem isolating_resume (f : FiberId) (arguments : List Value)
    (hspared : ¬ (f = p ∧ b.status.isResumable ∧ m.fiber p = b)) :
    (isolating p b).Rel m (Exec.resume E n f arguments m).2 := by
  by_cases hne : f = p
  · subst hne
    refine ⟨(tracking_resume (hlives m) n ⟨hm.1, .refl m⟩ f arguments).1, fun hb => ?_⟩
    have hres : ¬ (m.fiber f).status.isResumable := fun h => hspared ⟨rfl, hb ▸ h, hb⟩
    rw [resume_refused hres]
    exact hb
  · have := hosts_isolating (b := b) hne
    suffices h : (isolating p b).AlikeAt m (Exec.resume E n f arguments)
      (Exec.resume E n f arguments) from h.1
    refine .resume (fun _ _ => .inr rfl) (fun hf u hu => ⟨?_, id⟩) (fun hf u hu => ?_)
      (Lawful.refl m)
    · exact isolating_inside hm hf hne (alike_proceed hE (.inl rfl) arguments _ _
        (isolating_begun hm hf hne).1).1 (Status.mayBecome_of_isLeft (hu _).1)
    · obtain ⟨hrefused, hactive⟩ := hm.1.advance_refused hf fun b => (hu b).1
      refine isolating_of_same hm (fun _ => ⟨hactive, .single hrefused fun _ => trivial⟩) ?_
      rw [fiber_exited_ne (Ne.symm hne), fiber_withFiber_ne (Ne.symm hne),
        fiber_entered_ne (Ne.symm hne)]

theorem isolating_close (f : FiberId)
    (hspared : ¬ (f = p ∧ b.status.isResumable ∧ m.fiber p = b)) :
    (isolating p b).Rel m (Exec.close E n f m).2 := by
  have hliving := (tracking_close (hlives m) n ⟨hm.1, .refl m⟩ f).1
  by_cases hne : f = p
  · subst hne
    refine ⟨hliving, fun hb => ?_⟩
    have hres : ¬ (m.fiber f).status.isResumable := fun h => hspared ⟨rfl, hb ▸ h, hb⟩
    rw [close_apply]
    cases hstatus : (m.fiber f).status with
    | main => exact hb
    | running => exact hb
    | dead => exact hb
    | _ => exact absurd (by rw [hstatus]; rfl) hres
  · have := hosts_isolating (b := b) hne
    suffices h : (isolating p b).AlikeAt m (Exec.close E n f) (Exec.close E n f) from h.1
    refine .close (fun _ _ => .inr rfl) (fun hf u hu => ⟨?_, id⟩) (fun hf => ?_)
      (Lawful.refl m)
    · exact isolating_inside hm hf hne (alike_closeFrames hE (.inl rfl) _
        (isolating_begun hm hf hne).1).1 (by rw [(hu _).1]; rfl)
    · refine isolating_of_same hm (fun _ => ⟨rfl, .single (hm.1.advance_dead hf Array.size_modify
        ?_ (fun f' hEq => ?_) rfl rfl) fun _ => trivial⟩) (fiber_withFiber_ne (Ne.symm hne))
      · rw [fiber_withFiber_self (lt_size_of_resumable hf)]
      · rw [fiber_withFiber_ne hEq]

/-- A request that does not wake the flow leaves it as it is. -/
theorem isolating_serve (request : Request)
    (hspared : ¬ (request.wakes p ∧ b.status.isResumable ∧ m.fiber p = b)) :
    (isolating p b).Rel m (serve E n request m).2 := by
  cases request with
  | call function arguments => exact isolating_callFunction hE hlives n hm function arguments
  | resume f arguments =>
    exact isolating_resume hE hlives n hm f arguments fun ⟨hf, h⟩ => hspared ⟨decide_eq_true hf, h⟩
  | close f => exact isolating_close hE hlives n hm f fun ⟨hf, h⟩ => hspared ⟨decide_eq_true hf, h⟩
  | invoke id site arguments method => exact (alike_invoke hE site _ id m hm).1

omit hE hlives hm in
theorem isolating_sparing (p : FiberId) (b : Fiber) (n : Nat) :
    (isolating p b).Agree (sparing p b n) (sparing p b n) := by
  induction n with
  | zero => exact fun _ => .throw _
  | succ n ih =>
    refine fun request m hm => ⟨?_, fun _ => .inr rfl⟩
    obtain hgives | ⟨hspared, hserves⟩ := sparing_succ_cases p b n request m
    · rw [hgives]
      exact Lawful.refl m
    · rw [hserves]
      exact isolating_serve ih (living_sparing · ∅ p b n) n hm request hspared

omit hE hlives in
/-- A request that spares a flow leaves it as it is. -/
theorem fiber_of_spares (hspared : request.Spares p b n m) (hb : m.fiber p = b) :
    (engine n request m).2.fiber p = b := by
  rw [agrees_sparing p b n request m hspared]
  exact (isolating_sparing p b n request m hm).1.2 hb

end Isolating

section Turns

variable {E E' : Engine} (hE : Agrees E E') {n : Nat} {m : Machine}
include hE

theorem drivenTurns_eq {y : Exec Resumption} (hxy : Refines x y)
    (h : ((x >>= drive E f n) m).1 ≠ .error .exhausted) :
    drivenTurns E' f n (y m) = drivenTurns E f n (x m) := by
  rcases hrun : x m with ⟨s | r, m'⟩
  · rw [bind_error hrun] at h
    rw [hxy m (by rw [hrun]; exact fun hs => h (congrArg _ (Except.error.inj hs))), hrun]
    rfl
  · rw [bind_ok hrun] at h
    rw [hxy m (by rw [hrun]; nofun), hrun]
    cases r with
    | jump ip => exact trace_eq hE f n _ 0 ip m' h
    | done => rfl
    | yielded => rfl

theorem turns_eq (h : (serve E n request m).1 ≠ .error .exhausted) :
    turns E' n m request = turns E n m request := by
  cases request with
  | call function arguments =>
    refine drivenTurns_eq hE (refines_beginCall hE (le_refl n) _ function arguments) fun hs => h ?_
    exact (outcome_callFunction E n function arguments m).trans hs
  | resume f arguments =>
    unfold turns
    dsimp only
    split
    · rename_i hf
      rw [Bool.and_eq_true] at hf
      refine drivenTurns_eq hE (alike_iff_refines.1 (alike_beginResume hE.agree
        (enough_of_le (le_refl n)) arguments _)) fun hs => h ?_
      have hrun := runResumed_of_accepts (E := E) (f := f) (n := n) (m := m) hf.2
      have hresume := congrArg Prod.fst (resume_apply hf.1 _ hrun)
      rw [proceed, hs, SameAt.concludeResume_error] at hresume
      exact hresume
    · rfl
  | close f => rfl
  | invoke id site arguments method => rfl

end Turns

/-- A run that an engine serves to its end comes only to requests on which that depends, and all of
them are served. -/
theorem served_of_asks {α : Type} {x : Engine → Exec α} {W : Engine} {n : Nat} {r : Request}
    {P : Request → Machine → Prop} (hmono : ∀ {E E'}, Agrees E E' → Refines (x E) (x E'))
    (hW : Agrees W (engine n))
    (hsame : ∀ V : Engine, (∀ request s, P request s → V request s = W request s) → x V m = x W m)
    (hserved : (x W m).1 ≠ .error .exhausted) (h : Asks x (engine n) m r m') :
    P r m' ∧ (W r m').1 ≠ .error .exhausted := by
  obtain ⟨E', hE', hdiffers⟩ := h
  have hengine := hmono hW m hserved
  have hclash {V : Engine} (hV : x V m = x W m) (hagrees : Agrees V E') : False := by
    have hrun := hmono hagrees m (by rw [hV]; exact hserved)
    exact hdiffers (by rw [hrun, hV, hengine])
  have helsewhere {request : Request} {s : Machine} (h : ¬(request = r ∧ s = m'))
      (hgiven : (W request s).1 ≠ .error .exhausted) : E' request s = W request s := by
    by_contra hne
    refine h (hE' request s fun hEq => hne ?_)
    rw [hEq]
    exact hW request s hgiven
  constructor
  · by_contra hP
    -- an engine that gives up where the other one differs, and else is the one that serves
    obtain ⟨V, hgives, hV⟩ : ∃ V : Engine, (V r m').1 = .error .exhausted ∧
        ∀ request s, ¬(request = r ∧ s = m') → V request s = W request s := by
      classical
      refine ⟨fun request s => if request = r ∧ s = m' then (.error .exhausted, s)
        else W request s, ?_, fun request s h => if_neg h⟩
      dsimp only
      rw [if_pos ⟨rfl, rfl⟩]
    refine hclash (hsame V fun request s hrequest => hV request s
      fun hEq => hP (hEq.1 ▸ hEq.2 ▸ hrequest)) fun request s hgiven => ?_
    by_cases hEq : request = r ∧ s = m'
    · rw [hEq.1, hEq.2] at hgiven
      exact absurd hgives hgiven
    · rw [hV request s hEq] at hgiven ⊢
      exact helsewhere hEq hgiven
  · intro hgives
    refine hclash rfl fun request s hgiven => helsewhere (fun hEq => hgiven ?_) hgiven
    rw [hEq.1, hEq.2]
    exact hgives

section Waiting

variable {p : FiberId} {b : Fiber} (hb : b.status.isResumable) {n : Nat} {m : Machine}
  (hm : m.Attuned) (hp : p.index < m.fibers.size)
include hb hm hp

theorem good_isolating : (isolating p b).Good m := by
  refine ⟨hm, hp, fun _ => ⟨fun h => ?_, fun h => ?_⟩⟩
  · rw [h] at hb
    cases hb
  · rw [h] at hb
    cases hb

omit hm hp in
theorem pairwise_turns_own (hm : m.Attuned) (hactive : p ∈ m.active ∨ p = mainFiber) {E : Engine}
    (hE : (living m ∅).Agree E E) (hx : (living m ∅).Alike x x) (f : FiberId) :
    (drivenTurns E f n (x m)).Pairwise fun t t' =>
      t.machine.fiber p = b → t'.machine.fiber p = b := by
  refine List.pairwise_of_forall_mem_list fun t ht t' _ hfiber => ?_
  obtain ⟨⟨hsame, hlives⟩, -⟩ := rel_of_mem_drivenTurns (c := living m ∅) (f := f) hE
    ⟨hm, .refl m⟩ hx ht
  have hattuned := hlives.lives.attuned hm
  have hbusy : (t.machine.fiber p).status = .running ∨ (t.machine.fiber p).status = .main := by
    rcases hactive with h | rfl
    · exact .inl ((hattuned.running p).2 (hsame ▸ h))
    · exact .inr hattuned.main.2
  rw [hfiber] at hbusy
  rcases hbusy with h | h <;> rw [h] at hb <;> cases hb

/-- Once a flow waits it does so at every later turn of a loop, also if it ran before. -/
theorem pairwise_turns_of_spares (hspared : request.Spares p b (n + 1) m) :
    (turns (engine n) n m request).Pairwise fun t t' =>
      t.machine.fiber p = b → t'.machine.fiber p = b := by
  have hgood := good_isolating hb hm hp
  have hE := isolating_sparing p b n
  have hlives (m : Machine) := living_sparing m ∅ p b n
  obtain hgives | ⟨-, hserves⟩ := sparing_succ_cases p b n request m
  · exact absurd (congrArg Prod.fst hgives) hspared
  rw [Request.Spares, hserves] at hspared
  rw [turns_eq (agrees_sparing p b n) hspared]
  obtain h | ⟨function, arguments, rfl⟩ | ⟨f, arguments, rfl, hf, -, h⟩ :=
    turns_cases (sparing p b n) n m request
  · rw [h]
    exact .nil
  · have hattuned := hm.advance_prepared.attuned
    have hcurrent : (m.prepared m.currentFiber).currentFiber = m.currentFiber :=
      currentFiber_entered fun _ => rfl
    by_cases hne : m.currentFiber = p
    · refine pairwise_turns_own hb hattuned ?_ (hlives _)
        (alike_beginCall (f := m.currentFiber) (hlives _) (.inl rfl) function
          arguments).alike _
      by_cases hmain : p = mainFiber
      · exact .inr hmain
      · rw [← hcurrent] at hne
        exact .inl (hne ▸ mem_active_current (hne ▸ hmain))
    · have := hosts_isolating (b := b) hne
      refine (pairwise_drivenTurns hE ?_ (alike_beginCall hE (.inl rfl)
        function arguments).alike).imp And.right
      exact ⟨hattuned, hp.trans_le hm.advance_prepared.size, fun h => absurd (hcurrent.symm.trans h) hne⟩
  · rw [h]
    by_cases hne : f = p
    · subst hne
      refine pairwise_turns_own hb (hm.advance_begun hf).attuned (.inl ?_) (hlives _)
        (alike_beginResume (hlives _) (.inl rfl) arguments _) _
      rw [active_begun (hm.ne_main_of_resumable hf)]
      exact List.mem_cons_self
    · have := hosts_isolating (b := b) hne
      exact (pairwise_drivenTurns hE (isolating_begun hgood hf hne).1
        (alike_beginResume hE (.inl rfl) arguments _)).imp And.right

end Waiting

namespace Session

namespace Operation

def Spares (p : FiberId) (b : Fiber) (n : Nat) (m : Machine) : Operation → Prop
  | other x _ => (x m).2.fiber p = m.fiber p
  | op => (op.run (sparing p b n) m).1 ≠ .error .exhausted

def SparesAll (p : FiberId) (b : Fiber) (n : Nat) : List Operation → Machine → Prop
  | [], _ => True
  | op :: ops, m => op.Spares p b n m ∧ SparesAll p b n ops (op.run (engine n) m).2

variable {p : FiberId} {b : Fiber} (hb : b.status.isResumable) {n : Nat} {m : Machine}

theorem fiber_recycle (hp : p.index < m.fibers.size) (hdead : (m.fiber p).status ≠ .dead)
    (co : CoroutineId) (function : Value) : (Exec.recycle co function m).2.fiber p = m.fiber p := by
  obtain h | ⟨f, id, -, hf, h⟩ := recycle_cases co function m <;> rw [h]
  have hne : p ≠ f := fun h => hdead (h ▸ hf)
  exact (fiber_spawned (Array.size_modify.symm ▸ hp) (.closure id)).trans
    (fiber_withFiber_ne hne)

include hb in
theorem fiber_run {op : Operation} (hm : m.Attuned) (hp : p.index < m.fibers.size)
    (hspared : op.Spares p b n m) (hfiber : m.fiber p = b) :
    (op.run (engine n) m).2.fiber p = b := by
  have hgood := good_isolating hb hm hp
  have hE := isolating_sparing p b n
  have hagree := (agrees_sparing p b n).agree
  have hrun (op : Operation) (hrecycle : ∀ co function, op ≠ .recycle co function)
      (hother : ∀ x h, op ≠ .other x h)
      (hserved : (op.run (sparing p b n) m).1 ≠ .error .exhausted) :
      (op.run (engine n) m).2.fiber p = b := by
    have hx := alike_run hE op (fun _ _ h => absurd h (hrecycle _ _))
      fun _ _ h => absurd h (hother _ _)
    have hsame := alike_run hagree op (fun _ _ h => absurd h (hrecycle _ _))
      fun _ _ h => absurd h (hother _ _)
    rw [alike_iff_refines.1 hsame m hserved]
    exact (hx m hgood).1.2 hfiber
  cases op with
  | recycle co function =>
    have hsame : (Session.recycle co function m).2 = (Exec.recycle co function m).2 := by
      rw [Session.recycle]
      rcases hrecycle : Exec.recycle co function m with ⟨s | co', m'⟩
      · rw [bind_error hrecycle]
      · rw [bind_ok hrecycle]
        rfl
    have hdead : (m.fiber p).status ≠ .dead := fun h => by
      rw [← hfiber, h] at hb
      cases hb
    exact (congrArg (fiber · p) hsame).trans ((fiber_recycle hp hdead co function).trans hfiber)
  | other x h => exact hspared.trans hfiber
  | _ => exact hrun _ (by rintro _ _ ⟨⟩) (by rintro _ _ ⟨⟩) hspared

include hb in
/-- A flow that waits does so just as before, whatever else the host does. -/
theorem fiber_runAll {ops : List Operation} (hm : m.Attuned) (hp : p.index < m.fibers.size)
    (hspared : SparesAll p b n ops m) (hfiber : m.fiber p = b) : (runAll n ops m).fiber p = b := by
  induction ops generalizing m with
  | nil => exact hfiber
  | cons op ops ih =>
    have hlives := ((heeds_run op).rel hm n).2.lives
    exact ih (hlives.attuned hm) (hp.trans_le hlives.size_le) hspared.2
      (fiber_run hb hm hp hspared.1 hfiber)

end Operation

end Session

end ScriptMachine
