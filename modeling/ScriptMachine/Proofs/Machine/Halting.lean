import ScriptMachine.Proofs.Machine.Tending
import ScriptMachine.Proofs.Machine.Uncaught

namespace ScriptMachine

open Exec

/-- An engine that is stopped at requests of some kind and serves all others as another one does. -/
structure HaltsAt (P : Request → Machine → Prop) (s : Stop) (E E' : Engine) : Prop where
  here : ∀ request m, P request m → E' request m = (.error s, m)
  elsewhere : ∀ request m, ¬ P request m → E' request m = E request m

/-- A run comes to a request of some kind: it is stopped if those are. -/
def Exec.ComesTo {α : Type} (y : Engine → Exec α) (E : Engine) (m : Machine)
    (P : Request → Machine → Prop) : Prop :=
  ∀ s E', s.isCatchable = false → s ≠ .exhausted → HaltsAt P s E E' → (y E' m).1 = .error s

/-- A run does not come to requests of some kind: it goes the same way if those are stopped. -/
def Exec.Avoids {α : Type} (y : Engine → Exec α) (E : Engine) (m : Machine)
    (P : Request → Machine → Prop) : Prop :=
  ∀ s E', s.isCatchable = false → s ≠ .exhausted → HaltsAt P s E E' → y E' m = y E m

section Halting

variable {P Q : Request → Machine → Prop} {s s' : Stop} {E E' E₀ E₀' : Engine}

theorem exists_haltsAt (P : Request → Machine → Prop) (s : Stop) (E : Engine) :
    ∃ E', HaltsAt P s E E' := by
  classical
  exact ⟨fun request m => if P request m then (.error s, m) else E request m,
    fun _ _ h => if_pos h, fun _ _ h => if_neg h⟩

/-- There are enough ways to stop a run for one to be told from two others. -/
theorem exists_stop (s : Stop) {α : Type} (r : Except Stop α) :
    ∃ s' : Stop, s'.isCatchable = false ∧ s' ≠ .exhausted ∧ s' ≠ s ∧ r ≠ .error s' := by
  by_cases hcrash : .crash = s ∨ r = .error .crash
  · by_cases hinternal : .fault (.internal "") = s ∨ r = .error (.fault (.internal ""))
    · refine ⟨.fault (.invalidOperation ""), rfl, nofun, ?_, ?_⟩
      · rcases hcrash with rfl | rfl
        · nofun
        · exact fun h => nomatch (hinternal.resolve_right nofun).trans h.symm
      · rcases hcrash with rfl | rfl
        · exact fun h => nomatch (hinternal.resolve_left nofun).symm.trans h
        · nofun
    · rw [not_or] at hinternal
      exact ⟨.fault (.internal ""), rfl, nofun, hinternal⟩
  · rw [not_or] at hcrash
    exact ⟨.crash, rfl, nofun, hcrash⟩

namespace HaltsAt

theorem agree (h : HaltsAt P s E E') (hs : s.isCatchable = false) : (unlessStopped s).Agree E' E := by
  intro request m _
  refine ⟨trivial, fun _ => ?_⟩
  by_cases hP : P request m
  · exact .inl ⟨s, congrArg Prod.fst (h.here request m hP), hs, rfl⟩
  · exact .inr (h.elsewhere request m hP).symm

theorem quiet (h : HaltsAt P s E E') (hE : Quiet E) : Quiet E' := by
  intro request m
  by_cases hP : P request m
  · rw [h.here request m hP]
    exact Std.Refl.refl m
  · rw [h.elsewhere request m hP]
    exact hE request m

theorem agrees (h : HaltsAt P s E E') (h₀ : HaltsAt P s E₀ E₀') (hE : Agrees E E₀) : Agrees E' E₀' := by
  intro request m hserved
  by_cases hP : P request m
  · rw [h.here request m hP, h₀.here request m hP]
  · rw [h.elsewhere request m hP] at hserved ⊢
    rw [h₀.elsewhere request m hP]
    exact hE request m hserved

/-- Where a run is stopped in another way, it does not matter whether it may also be stopped in this
one. -/
theorem drop {E₂ : Engine} (h : HaltsAt P s E₂ E₀') (h₂ : HaltsAt Q s' E E₂) (h₁ : HaltsAt P s E E')
    (hs' : s'.isCatchable = false) : (unlessStopped s').Agree E₀' E' := by
  intro request m _
  refine ⟨trivial, fun _ => ?_⟩
  by_cases hP : P request m
  · exact .inr ((h₁.here request m hP).trans (h.here request m hP).symm)
  · have hrun := h.elsewhere request m hP
    by_cases hQ : Q request m
    · exact .inl ⟨s', congrArg Prod.fst (hrun.trans (h₂.here request m hQ)), hs', rfl⟩
    · exact .inr ((h₁.elsewhere request m hP).trans ((h₂.elsewhere request m hQ).symm.trans hrun.symm))

end HaltsAt

end Halting

/-- The instruction of a turn empties no slot of the frame on top that waits, but by closing it. -/
def Turn.minds (t : Turn) (f : FiberId) : Prop :=
  ∀ i, t.machine.code.get? t.ip = some i → ∀ top, (t.machine.fiber f).frames.back? = some top →
    ∀ slot ∈ top.pending, ¬ i.forgets (top.blocks.headD []) slot

namespace Variable

/-- The variable is not lost at a turn: its slot is minded, and what it holds can be closed then and
where the instruction fails. -/
structure KeptAt (x : Variable) (E : Engine) (t : Turn) : Prop where
  minds : t.minds x.fiber
  closable : x.IsClosable t.machine.heap
  raised : ∀ e m, t.ends E x.fiber = (.error (.fault (.runtime e)), m) → x.IsClosable m.heap

variable {x : Variable} {Stops : Stop → Prop} {E : Engine}

theorem KeptAt.congr {E' : Engine} {t : Turn} (h : x.KeptAt E t)
    (hends : t.ends E' x.fiber = t.ends E x.fiber) : x.KeptAt E' t :=
  ⟨h.minds, h.closable, fun e m he => h.raised e m (hends.symm.trans he)⟩

theorem outcome_of_triple {α : Type} {P : Machine → Prop} {y : Exec α} {K : Heap → Prop}
    {D : List Frame → Prop} (h : Triple P y (fun _ => x.Stands K D)
      (fun s m => Stops s ∨ x.Stands K x.WaitsIn m)) {m : Machine} (hm : P m) :
    x.Outcome Stops K D (y m).1 (y m).2 := by
  have h := h m hm
  rcases hrun : y m with ⟨s | a, m'⟩ <;> rw [hrun] at h <;> exact h

section Running

variable (hE : x.Guards Stops E)
include hE

theorem outcome_step {t : Turn} (hm : x.Stands (fun _ => True) x.WaitsIn t.machine) (hkept : x.KeptAt E t) :
    x.Outcome Stops (fun _ => True) x.WaitsIn (t.ends E x.fiber).1 (t.ends E x.fiber).2 := by
  cases hi : t.machine.code.get? t.ip with
  | none =>
    have hread : read (fun m => m.code.get? t.ip) t.machine = (.ok none, t.machine) :=
      congrArg (Except.ok ·, t.machine) hi
    rw [Turn.ends, step_eq, bind_ok hread]
    exact .inr hm
  | some i =>
    have hread : read (fun m => m.code.get? t.ip) t.machine = (.ok (some i), t.machine) :=
      congrArg (Except.ok ·, t.machine) hi
    rw [Turn.ends, step_eq, bind_ok hread]
    cases hcalls : (t.machine.fiber x.fiber).calls with
    | nil =>
      have hwaits := hm.calls
      rw [hcalls] at hwaits
      exact (not_waitsIn_nil hwaits).elim
    | cons top rest =>
      have hback : (t.machine.fiber x.fiber).frames.back? = some top := by
        rw [Fiber.back?_frames, hcalls]
        rfl
      have hover : x.WaitsOver (¬ i.forgets (top.blocks.headD []) x.slot) top.blocks
          (t.machine.fiber x.fiber).calls := by
        have hwaits := hm.calls
        rw [hcalls] at hwaits ⊢
        refine ⟨waitsWith_cons.2 ((waitsIn_cons.1 hwaits).imp_right fun ⟨hlen, htop⟩ => ?_), rfl⟩
        exact ⟨hlen, htop, hkept.minds i hi top hback x.slot htop.pending⟩
      have hsuspend : x.Tends Stops (suspendAt x.fiber t.ip) :=
        .bind (.still (still_modifyFiber fun _ => ⟨.stacks .., rfl⟩)) fun _ =>
          .bind (.still (still_push _)) fun _ => .pure _
      have hstep : x.Brings Stops (x.WaitsOver (¬ i.forgets (top.blocks.headD []) x.slot) top.blocks)
          (do
            listening x.fiber t.ip i
            if t.limit.any (· ≤ t.executed) then suspendAt x.fiber t.ip
            else execute E x.fiber t.fuel t.ip i) :=
        (Leads.observes (fun _ h => h.1.1) (observes_listening _ _ _)).then_brings fun _ =>
          .ite (fun _ => hsuspend.brings fun _ h => h.1.1) fun _ => brings_execute hE t.fuel t.ip i
      exact outcome_of_triple hstep ⟨hm.sound, hm.busy, hkept.closable, hover⟩

theorem outcome_round {t : Turn} (hm : x.Stands (fun _ => True) x.WaitsIn t.machine) (hkept : x.KeptAt E t) :
    x.Outcome Stops (fun _ => True) x.WaitsIn
      (Exec.round E x.fiber t.fuel t.limit t.executed t.ip t.machine).1
      (Exec.round E x.fiber t.fuel t.limit t.executed t.ip t.machine).2 := by
  have hstep := outcome_step hE hm hkept
  rcases hends : t.ends E x.fiber with ⟨s | flow, m'⟩ <;> rw [hends] at hstep
  · by_cases hs : s.isCatchable
    · obtain ⟨e, rfl⟩ := Stop.eq_runtime hs
      have hm' := Or.resolve_left hstep fun hstops => Bool.noConfusion (hs.symm.trans (hE.uncaught _ hstops))
      rw [round_of_runtime hends]
      have hrecover : x.Brings Stops x.WaitsIn (recover E x.fiber t.fuel e t.ip) := by
        have hagain (target : Nat) : x.Tends Stops (do return Round.again (← budget x.fiber) target) :=
          .bind (.still (.readFiber _ _)) fun _ => .pure _
        refine Triple.bind (brings_unwind hE t.fuel e t.ip) fun r => ?_
        cases r with
        | jump target => exact hagain target
        | done | yielded => exact Triple.pure fun _ h => h
      exact outcome_of_triple hrecover ⟨hm'.sound, hm'.busy, hkept.raised e m' hends, hm'.calls⟩
    · rw [round_of_error hends (by simpa using hs)]
      exact hstep
  · rw [round_of_ok hends]
    exact hstep

/-- As long as the variable is not lost it waits, unless the loop comes to its finalizer. -/
theorem outcome_loop {n executed ip : Nat} {limit : Option Nat} {m : Machine}
    (hm : x.Stands (fun _ => True) x.WaitsIn m)
    (hkept : ∀ t ∈ trace E x.fiber n limit executed ip m, x.KeptAt E t) :
    x.Outcome Stops (fun _ => True) x.WaitsIn (loop E x.fiber n limit executed ip m).1
      (loop E x.fiber n limit executed ip m).2 := by
  induction n generalizing limit executed ip m with
  | zero => exact .inr hm
  | succ n ih =>
    have hround := outcome_round hE (t := ⟨n, limit, executed, ip, m⟩) hm
      (hkept _ List.mem_cons_self)
    dsimp only at hround
    rw [trace] at hkept
    rw [loop_succ]
    rcases hrun : Exec.round E x.fiber n limit executed ip m with ⟨s | r, m'⟩ <;>
      rw [hrun] at hround hkept
    · rw [bind_error hrun]
      exact hround
    · rw [bind_ok hrun]
      cases r with
      | again limit' ip' => exact ih hround fun t ht => hkept t (List.mem_cons_of_mem _ ht)
      | leave => exact outcome_of_triple (Tends.still still_pop) hround

end Running

/-- A request spoils the variable: what it holds could be closed before and cannot afterwards. -/
def Spoils (x : Variable) (E : Engine) (request : Request) (m : Machine) : Prop :=
  x.IsClosable m.heap ∧ ¬ x.IsClosable (E request m).2.heap

section Coming

variable {E₀ : Engine} {n executed ip : Nat} {limit : Option Nat} {m : Machine}

/-- An engine that is stopped where the variable is finalized or spoilt guards it. -/
theorem guards_of_haltsAt {E₁ E₂ : Engine} {s s' : Stop} (hE : Quiet E) (hagrees : Agrees E E₀)
    (hs : s.isCatchable = false) (hs' : s'.isCatchable = false) (h₂ : HaltsAt (x.Spoils E₀) s' E E₂)
    (h₁ : HaltsAt x.Closes s E₂ E₁) :
    x.Guards (fun stop => stop = s ∨ stop = s' ∨ stop = .exhausted) E₁ where
  quiet := h₁.quiet (h₂.quiet hE)
  uncaught := by rintro _ (rfl | rfl | rfl) <;> first | assumption | rfl
  closes request m h := ⟨s, .inl rfl, congrArg Prod.fst (h₁.here request m h)⟩
  keeps request m hm := by
    by_cases hcloses : x.Closes request m
    · exact .inr ⟨s, .inl rfl, congrArg Prod.fst (h₁.here request m hcloses)⟩
    · rw [h₁.elsewhere request m hcloses]
      by_cases hspoils : x.Spoils E₀ request m
      · exact .inr ⟨s', .inr (.inl rfl), congrArg Prod.fst (h₂.here request m hspoils)⟩
      · rw [h₂.elsewhere request m hspoils]
        by_cases hserved : (E request m).1 = .error .exhausted
        · exact .inr ⟨.exhausted, .inr (.inr rfl), hserved⟩
        · rw [← hagrees request m hserved]
          exact .inl (by_contra fun h => hspoils ⟨hm, h⟩)

/-- A variable that waits, is not lost on the way, and at the end of a loop no longer waits has come
to be finalized. -/
theorem loop_comesTo (hE : Quiet E) (hagrees : Agrees E E₀)
    (hserved : (loop E x.fiber n limit executed ip m).1 ≠ .error .exhausted)
    (hm : x.Stands (fun _ => True) x.WaitsIn m)
    (hkept : ∀ t ∈ trace E₀ x.fiber n limit executed ip m, x.KeptAt E₀ t)
    (hspared : Avoids (fun E => loop E x.fiber n limit executed ip) E₀ m (x.Spoils E₀))
    (hgone : ¬ x.Waits (loop E₀ x.fiber n limit executed ip m).2) :
    ComesTo (fun E => loop E x.fiber n limit executed ip) E₀ m x.Closes := by
  intro s E' hs hne hE'
  obtain ⟨s', hs', hne', hss', hrun⟩ := exists_stop s (loop E₀ x.fiber n limit executed ip m).1
  obtain ⟨E₂, h₂⟩ := exists_haltsAt (x.Spoils E₀) s' E
  obtain ⟨E₁, h₁⟩ := exists_haltsAt x.Closes s E₂
  obtain ⟨F₂, hF₂⟩ := exists_haltsAt (x.Spoils E₀) s' E₀
  obtain ⟨F₁, hF₁⟩ := exists_haltsAt x.Closes s E
  have hsame := loop_of_agree hagrees.agree hserved
  -- Nothing spoils the variable, so it does not matter that the run would be stopped there.
  have hspared₂ : (loop E₂ x.fiber n limit executed ip m).1 ≠ .error s' := by
    intro hstop
    have hexhausted : (loop E₂ x.fiber n limit executed ip m).1 ≠ .error .exhausted :=
      fun h => hne' (Except.error.inj (hstop.symm.trans h))
    have hloop := loop_of_agree (h₂.agrees hF₂ hagrees).agree hexhausted
    have hreal := hspared s' F₂ hs' hne' hF₂
    exact hrun ((congrArg Prod.fst (hreal.symm.trans hloop)).trans hstop)
  have hsame₂ := loop_of_agree (h₂.agree hs') hspared₂
  have hstopped : (loop E₁ x.fiber n limit executed ip m).1 = .error s := by
    by_contra hstop
    have hsame₁ := loop_of_agree (h₁.agree hs) hstop
    have htrace₁ := trace_of_agree (h₁.agree hs) _ _ _ _ _ _ hstop
    have htrace₂ := trace_of_agree (h₂.agree hs') _ _ _ _ _ _ hspared₂
    have htrace := trace_of_agree hagrees.agree _ _ _ _ _ _ hserved
    have hout := outcome_loop (guards_of_haltsAt hE hagrees hs hs' h₂ h₁) hm fun t ht => by
      have hends₁ := ends_of_agree hs (h₁.agree hs) hstop ht
      rw [← htrace₁] at ht
      have hends₂ := ends_of_agree hs' (h₂.agree hs') hspared₂ ht
      rw [← htrace₂] at ht
      have hends := ends_of_agree rfl hagrees.agree hserved ht
      rw [← htrace] at ht
      exact (hkept t ht).congr (hends₁.symm.trans (hends₂.symm.trans hends.symm))
    rw [← hsame₁, ← hsame₂, ← hsame] at hout
    rcases hloop : loop E₀ x.fiber n limit executed ip m with ⟨stop | v, m'⟩ <;>
      rw [hloop] at hout hgone
    · rcases hout with (rfl | rfl | rfl) | hwaits
      · exact hstop (congrArg Prod.fst (hsame₁.symm.trans (hsame₂.symm.trans (hsame.symm.trans hloop))))
      · exact hspared₂ (congrArg Prod.fst (hsame₂.symm.trans (hsame.symm.trans hloop)))
      · exact hserved (congrArg Prod.fst (hsame.symm.trans hloop))
      · exact hgone hwaits.calls
    · exact hgone hout.calls
  have hother : (loop E₁ x.fiber n limit executed ip m).1 ≠ .error s' :=
    fun h => hss' (Except.error.inj (h.symm.trans hstopped))
  have hloop₁ := loop_of_agree (HaltsAt.drop h₁ h₂ hF₁ hs') hother
  have hexhausted : (loop F₁ x.fiber n limit executed ip m).1 ≠ .error .exhausted := by
    rw [hloop₁, hstopped]
    exact fun h => hne (Except.error.inj h)
  have hloop := loop_of_agree (hF₁.agrees hE' hagrees).agree hexhausted
  exact (congrArg Prod.fst (hloop.trans hloop₁)).trans hstopped

end Coming

end Variable

end ScriptMachine
