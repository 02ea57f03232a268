import ScriptMachine.Proofs.Machine.Formation
import ScriptMachine.Proofs.Machine.Halting
import ScriptMachine.Proofs.Machine.Leaving

namespace ScriptMachine

open Exec

/-- From a turn on, the variable is not lost. -/
structure Variable.KeptFrom (x : Variable) (E : Engine) (t : Turn) : Prop where
  kept : ∀ t' ∈ trace E x.fiber (t.fuel + 1) t.limit t.executed t.ip t.machine, x.KeptAt E t'
  spared : Avoids (t.onward x.fiber) E t.machine (x.Spoils E)

section Turns

variable {E E₀ : Engine} {f : FiberId} {n executed ip : Nat} {limit : Option Nat} {m m₀ : Machine}
  {t : Turn} {own : List Frame}

theorem Turn.answered_of_agrees (hagrees : Agrees E E₀)
    (hserved : (loop E f n limit executed ip m).1 ≠ .error .exhausted)
    (ht : t ∈ trace E f n limit executed ip m) (h : t.answered E₀ f) : t.answered E f := by
  intro e m' hends e' hunwind
  have hsame := ends_of_agree rfl hagrees.agree hserved ht
  have hrefines : Refines (unwind E f t.fuel e t.ip) (unwind E₀ f t.fuel e t.ip) :=
    alike_iff_refines.1 (Likeness.alike_unwind hagrees.agree (.inl rfl) t.ip e).alike
  refine h e m' (hsame.trans hends) e' ?_
  rw [hrefines m' (by rw [hunwind]; nofun)]
  exact hunwind

end Turns

section Resumption

variable {E E₀ : Engine} {f : FiberId} {n : Nat} {m : Machine} {arguments : List Value} {t : Turn}
  {x : Variable}

theorem proceed_of_mem_drivenTurns
    (ht : t ∈ drivenTurns E f n (beginResume E f n arguments (m.fiber f).status (m.begun f))) :
    ∃ ip m₁, beginResume E f n arguments (m.fiber f).status (m.begun f) = (.ok (.jump ip), m₁) ∧
      t ∈ trace E f n (m₁.fiber f).limit 0 ip m₁ ∧
      proceed E f n arguments (m.fiber f).status (m.begun f) =
        loop E f n (m₁.fiber f).limit 0 ip m₁ := by
  rcases hrun : beginResume E f n arguments (m.fiber f).status (m.begun f) with ⟨s | r, m₁⟩ <;>
    rw [hrun] at ht
  · cases ht
  · cases r with
    | jump ip =>
      refine ⟨ip, m₁, rfl, ht, ?_⟩
      rw [proceed, bind_ok hrun, drive, runFrom, bind_ok (budget_apply f m₁)]
    | done => cases ht
    | yielded => cases ht

theorem beginResume_saved {ip : Nat} (hm : Sound m) (hf : (m.fiber f).status.isResumable)
    (hstarted : (m.fiber f).status ≠ .notStarted) (hsaved : (m.fiber f).savedIp = some ip) (E : Engine)
    (n : Nat) (arguments : List Value) :
    ∃ m₁, beginResume E f n arguments (m.fiber f).status (m.begun f) = (.ok (.jump ip), m₁) ∧
      (m₁.fiber f).calls = (m.fiber f).calls := by
  have hself := hm.fiber_begun hf
  have hlt := (hm.begun hf).2.1
  have htake (m' : Machine) (hip : (m'.fiber f).savedIp = some ip) :
      takeSaved f m' = (.ok (.jump ip), m'.withFiber f fun b => { b with savedIp := none }) := by
    rw [takeSaved, bind_ok (readFiber_apply _ _ _), bind_ok (modifyFiber_apply _ _ _), hip]
    rfl
  have hcalls (u : Fiber → Fiber) (hu : ∀ b, (u b).frames = b.frames) :
      (((m.begun f).withFiber f u).fiber f).calls = (m.fiber f).calls := by
    rw [Machine.fiber_withFiber_self hlt, Fiber.calls, hu, hself]
    rfl
  cases hstatus : (m.fiber f).status with
  | notStarted => exact (hstarted hstatus).elim
  | suspended =>
    rw [beginResume, push, bind_ok (modifyFiber_apply _ _ _), htake, Machine.withFiber_withFiber]
    · exact ⟨_, rfl, hcalls _ fun _ => rfl⟩
    · rw [Machine.fiber_withFiber_self hlt, hself]
      exact hsaved
  | _ => exact ⟨_, htake _ (by rw [hself]; exact hsaved), hcalls _ fun _ => rfl⟩

section

variable (hm : Sound m) (hf : (m.fiber f).status.isResumable) (hformed : (m.fiber f).Formed)
  (haccepts : (m.fiber f).status.accepts arguments)
include hm hf hformed haccepts

variable (hserved : (Exec.resume E n f arguments m).1 ≠ .error .exhausted)
include hserved

omit hformed hm in
theorem proceed_served :
    (proceed E f n arguments (m.fiber f).status (m.begun f)).1 ≠ .error .exhausted := by
  intro h
  have hrun := runResumed_of_accepts (E := E) (f := f) (n := n) (m := m) haccepts
  rw [(Prod.ext_iff.1 (resume_apply hf _ hrun)).1, h] at hserved
  exact hserved (Likeness.SameAt.concludeResume_error f _ _)

/-- A coroutine with a variable that waits goes on in its loop, and it still waits there. -/
theorem waits_at_first (hx : x.fiber = f) (hwaits : x.Waits m) :
    ∃ t ∈ (turns E n m (.resume f arguments)).head?, x.Waits t.machine := by
  subst hx
  have hcalls : (m.fiber x.fiber).calls ≠ [] := fun h => by
    rw [Variable.Waits, h] at hwaits
    exact Variable.not_waitsIn_nil hwaits
  have hstarted : (m.fiber x.fiber).status ≠ .notStarted := fun h => by
    rw [Fiber.calls, (hformed.fresh h).1] at hcalls
    exact hcalls rfl
  have hparked := hformed.saved
  cases hsaved : (m.fiber x.fiber).savedIp with
  | none =>
    rw [hsaved] at hparked
    exact (hcalls hparked).elim
  | some ip =>
    obtain ⟨m₁, hbegin, hsame⟩ := beginResume_saved hm hf hstarted hsaved E n arguments
    have hproceed := proceed_served hf haccepts hserved
    rw [proceed, bind_ok hbegin] at hproceed
    rw [turns_resume hf haccepts, hbegin]
    cases n with
    | zero => exact (hproceed rfl).elim
    | succ n =>
      refine ⟨⟨n, (m₁.fiber x.fiber).limit, 0, ip, m₁⟩, rfl, ?_⟩
      rw [Variable.Waits, hsame]
      exact hwaits

variable (hE : Quiet E) (hagrees : Agrees E E₀)
include hE hagrees

/-- A variable that waits at a turn of a resumption that leaves the coroutine without frames, and is
not lost from then on, is finalized. -/
theorem comesTo_of_resumed (hx : x.fiber = f) (ht : t ∈ turns E n m (.resume f arguments))
    (hempty : ((Exec.resume E n f arguments m).2.fiber f).calls = []) (hwaits : x.Waits t.machine)
    (hkept : x.KeptFrom E₀ t) : ComesTo (t.onward f) E₀ t.machine x.Closes := by
  subst hx
  have hproceed := proceed_served hf haccepts hserved
  have hcalls := (resume_stacks (n := n) hm hf hE haccepts).2.1
  rw [hempty] at hcalls
  rw [turns_resume hf haccepts] at ht
  obtain ⟨ip, m₁, hbegin, htrace, hloop⟩ := proceed_of_mem_drivenTurns ht
  have hrests := beginResume_rests hm hf hformed E n arguments _ rfl
  rw [hbegin] at hrests
  obtain ⟨own, hopen, hsits⟩ := hrests
  obtain ⟨own', -, hsits'⟩ := Footing.sits_of_mem_trace hE hopen hsits htrace
  have honward := loop_of_mem_trace htrace
  rw [hloop, honward] at hproceed hcalls
  have hsame : t.onward x.fiber E₀ t.machine = t.onward x.fiber E t.machine :=
    loop_of_agree hagrees.agree hproceed
  refine Variable.loop_comesTo hE hagrees hproceed ⟨hsits'.sound, hsits'.busy, trivial, hwaits⟩
    hkept.kept hkept.spared ?_
  change ¬ x.Waits (t.onward x.fiber E₀ t.machine).2
  rw [hsame, Variable.Waits, ← hcalls]
  exact Variable.not_waitsIn_nil

/-- A coroutine that has died of its script has no frames left. -/
theorem calls_of_dead (hdead : ((Exec.resume E n f arguments m).2.fiber f).status = .dead)
    (hcaught : ∀ s, (Exec.resume E n f arguments m).1 = .error s → s.isCatchable)
    (hanswered : ∀ t ∈ turns E n m (.resume f arguments), t.answered E₀ f) :
    ((Exec.resume E n f arguments m).2.fiber f).calls = [] := by
  refine (resume_leaves hm hf hformed hE haccepts).2 hdead hcaught fun t ht => ?_
  have hproceed := proceed_served hf haccepts hserved
  have hmem := ht
  rw [turns_resume hf haccepts] at hmem
  obtain ⟨ip, m₁, -, htrace, hloop⟩ := proceed_of_mem_drivenTurns hmem
  rw [hloop] at hproceed
  exact Turn.answered_of_agrees hagrees hproceed htrace (hanswered t ht)

end

end Resumption

/-- Coroutines die finalized, in a run that is served under watch from a machine in which all of them
are in order. All requests of the run find them so, and so they are in the end. A coroutine that is
resumed then, accepts the arguments and dies, by a return or an error that scripts can catch, while its
error handlers do not fail, has no frames left. Its variables that waited to be closed in the beginning
do so at the first turn, and a variable that waits at any turn and is not lost comes to be closed. -/
theorem coroutines_finalized {n : Nat} {request : Request} {m : Machine} (hm : m.Ordered)
    (hserved : (watched n request m).1 ≠ .error .exhausted) :
    (engine n request m).2.Ordered ∧
    ∀ k r m', Reached n (fun E => E request) m (k + 1) r m' → m'.Ordered ∧
      ∀ f arguments, r = .resume f arguments → (m'.fiber f).status.isResumable →
        (m'.fiber f).status.accepts arguments →
        (∀ t ∈ turns (engine k) k m' r, t.answered (engine k) f) →
        let q := engine (k + 1) r m'
        (q.2.fiber f).status = .dead → (∀ s, q.1 = .error s → s.isCatchable) →
          (q.2.fiber f).calls = [] ∧ ∀ x : Variable, x.fiber = f →
            (x.Waits m' → ∃ t ∈ (turns (engine k) k m' r).head?, x.Waits t.machine) ∧
            ∀ t ∈ turns (engine k) k m' r, x.Waits t.machine → x.KeptFrom (engine k) t →
              ComesTo (t.onward f) (engine k) t.machine x.Closes := by
  refine ⟨ordered_of_watched hm hserved, fun k r m' hr => ?_⟩
  obtain ⟨hm', hgiven⟩ := ordered_of_reached hm hserved hr
  refine ⟨hm', ?_⟩
  rintro f arguments rfl hf haccepts hanswered q hdead hcaught
  have hformed := hm'.formed f hf
  have hsame := agrees_watched (k + 1) _ m' hgiven
  change q = Exec.resume (watched k) k f arguments m' at hsame
  change (Exec.resume (watched k) k f arguments m').1 ≠ .error .exhausted at hgiven
  have hturns : turns (engine k) k m' (.resume f arguments) =
      turns (watched k) k m' (.resume f arguments) := turns_eq (agrees_watched k) hgiven
  rw [hturns] at hanswered ⊢
  rw [hsame] at hdead hcaught ⊢
  have hempty := calls_of_dead hm'.sound hf hformed haccepts hgiven (quiet_watched k)
    (agrees_watched k) hdead hcaught hanswered
  refine ⟨hempty, fun x hx => ⟨fun hwaits => ?_, fun t ht hwaits hkept => ?_⟩⟩
  · exact waits_at_first hm'.sound hf hformed haccepts hgiven hx hwaits
  · exact comesTo_of_resumed hm'.sound hf hformed haccepts hgiven (quiet_watched k) (agrees_watched k) hx
      ht hempty hwaits hkept

/-- A machine with a coroutine that has spent its budget before a return. A variable is to be closed
then, and its finalizer is a native function. -/
def lingering : Machine where
  code := { instructions := #[{ op := .ret }] }
  heap := {
    tables := #[({} : Table).append (.string "__close") (.string "__close") (.native ⟨0⟩),
      { metatable := some ⟨0⟩ }]
    cells := #[.table ⟨1⟩]
    natives := #[{ name := "type", behavior := .builtin .type }] }
  fibers := #[{ status := .main, owner := ⟨0⟩ }, {
    values := #[.closure ⟨0⟩, .ofNat 0]
    frames := #[{
      entry := 0, base := 2, locals := #[some ⟨0⟩], isEntry := true, pending := [0]
      blocks := [[.localVar "x" 0 false true]] }]
    status := .forceSuspended, savedIp := some 0, owner := ⟨1⟩ }]

theorem ordered_lingering : lingering.Ordered := by
  refine ⟨⟨⟨by decide, rfl⟩, List.forall_mem_nil _⟩, fun ⟨i⟩ h => ?_⟩
  match i with
  | 0 => cases h
  | 1 => exact ⟨⟨⟨rfl, rfl⟩, _, _, rfl, rfl⟩, nofun⟩
  | i + 2 => cases h

def lingeringAt (frame : Frame) : Machine :=
  { lingering with
    fibers := #[{ status := .main, owner := ⟨0⟩ }, {
      values := #[.closure ⟨0⟩, .ofNat 0], frames := #[frame]
      status := .running, owner := ⟨1⟩, nesting := 1 }]
    active := [⟨1⟩] }

def lingeringTurn : Turn := ⟨8, none, 0, 0, lingeringAt {
  entry := 0, base := 2, locals := #[some ⟨0⟩], isEntry := true, pending := [0]
  blocks := [[.localVar "x" 0 false true]] }⟩

def lingeringCall : Machine := lingeringAt {
  entry := 0, base := 2, locals := #[none], isEntry := true, blocks := [[]] }

def lingeringClosed : Machine := lingeringAt {
  entry := 0, base := 2, locals := #[none], isEntry := true }

def lingeringLeft : Machine := lingeringClosed.backTo ⟨1⟩ #[.tuple []]

def lingeringVariable : Variable := ⟨⟨1⟩, 0, 0, ⟨0⟩⟩

section Lingering

variable {E : Engine}

section

variable (hE : E (.call (.native ⟨0⟩) [.table ⟨1⟩, .nil]) lingeringCall =
  (.ok (.string "table"), lingeringCall))
include hE

theorem ends_lingering :
    lingeringTurn.ends E ⟨1⟩ = (.ok (.transfer (.after none)), lingeringLeft) := by
  have hblock : closeBlock E ⟨1⟩ .nil 7 lingeringTurn.machine = (.ok (), lingeringClosed) := by
    have hstart : closeBlock E ⟨1⟩ .nil 7 lingeringTurn.machine = (do
        discard (E (.call (.native ⟨0⟩) [.table ⟨1⟩, .nil]))
        closeBlock E ⟨1⟩ .nil 6) lingeringCall := rfl
    have hcall : (discard (E (.call (.native ⟨0⟩) [.table ⟨1⟩, .nil])) : Exec Unit) lingeringCall =
        (.ok (), lingeringCall) := bind_ok hE
    rw [hstart, bind_ok hcall]
    rfl
  have hclose : closeBlocks E ⟨1⟩ .nil 8 lingeringTurn.machine = (.ok (), lingeringClosed) := by
    have hstart : closeBlocks E ⟨1⟩ .nil 8 lingeringTurn.machine = (do
        closeBlock E ⟨1⟩ .nil 7; closeBlocks E ⟨1⟩ .nil 7) lingeringTurn.machine := rfl
    exact hstart.trans (bind_ok hblock)
  have hruns : (lingeringClosed.fiber ⟨1⟩).Runs
      { entry := 0, base := 2, locals := #[none], isEntry := true } [] #[] :=
    ⟨rfl, ⟨0, rfl, rfl⟩, by decide, nofun⟩
  have hfinish :=
    hruns.finishReturn rfl (by decide) rfl (i := { op := .ret }) (.inl ⟨rfl, rfl⟩) rfl E 8 0
  have hreturn : performReturn E ⟨1⟩ 8 { op := .ret } 0 lingeringTurn.machine =
      (.ok (.after none), lingeringLeft) := (bind_ok hclose).trans hfinish
  have hstep : lingeringTurn.ends E ⟨1⟩ = (do
      return Flow.transfer (← performReturn E ⟨1⟩ 8 { op := .ret } 0)) lingeringTurn.machine := rfl
  rw [hstep, bind_ok hreturn]
  rfl

theorem round_lingering :
    Exec.round E ⟨1⟩ 8 none 0 0 lingeringTurn.machine = (.ok .leave, lingeringLeft) :=
  bind_ok (attempt_apply (ends_lingering hE))

theorem onward_lingering :
    lingeringTurn.onward ⟨1⟩ E lingeringTurn.machine = pop ⟨1⟩ lingeringLeft :=
  (congrFun loop_succ _).trans (bind_ok (round_lingering hE))

theorem trace_lingering : trace E ⟨1⟩ 9 none 0 0 lingeringTurn.machine = [lingeringTurn] := by
  rw [trace, round_lingering hE]
  rfl

theorem turns_lingering : turns E 9 lingering (.resume ⟨1⟩ []) = [lingeringTurn] :=
  trace_lingering hE

end

theorem engine_lingering : engine 9 (.call (.native ⟨0⟩) [.table ⟨1⟩, .nil]) lingeringCall =
    (.ok (.string "table"), lingeringCall) := rfl

theorem waits_lingering : lingeringVariable.Waits lingering := by
  refine ⟨[], _, [], rfl, rfl, ?_, ?_, ?_, rfl⟩ <;> decide

theorem kept_lingering : lingeringVariable.KeptFrom (engine 9) lingeringTurn := by
  have hclosable : lingeringVariable.IsClosable lingering.heap := ⟨rfl, rfl⟩
  refine ⟨fun t (ht : t ∈ trace (engine 9) ⟨1⟩ 9 none 0 0 lingeringTurn.machine) => ?_,
    fun s E' hs hne hE' => ?_⟩
  · rw [trace_lingering engine_lingering, List.mem_singleton] at ht
    subst ht
    refine ⟨?_, hclosable, fun e m h => ?_⟩
    · rintro i hi top htop slot hslot
      cases hi
      exact id
    · cases (ends_lingering engine_lingering).symm.trans h
  · have hcall := hE'.elsewhere (.call (.native ⟨0⟩) [.table ⟨1⟩, .nil]) lingeringCall fun hspoils =>
      hspoils.2 hclosable
    exact (onward_lingering hcall).trans (onward_lingering engine_lingering).symm

end Lingering

theorem Reached.self (n : Nat) (request : Request) (m : Machine) :
    Reached n (fun E => E request) m n request m := by
  obtain ⟨s, -, -, -, hs⟩ := exists_stop .exhausted (engine n request m).1
  obtain ⟨E', hhere, helse⟩ := exists_haltsAt (fun r m' => r = request ∧ m' = m) s (engine n)
  refine .outer ⟨E', fun r m' hne => ?_, fun h => ?_⟩
  · by_contra hother
    exact hne (helse r m' hother)
  · exact hs (congrArg Prod.fst (h.symm.trans (hhere _ _ ⟨rfl, rfl⟩)))

theorem lingering_finalized :
    lingering.Ordered ∧ lingeringVariable.Waits lingering ∧
      ((engine 10 (.resume ⟨1⟩ []) lingering).2.fiber ⟨1⟩).calls = [] ∧
      lingeringVariable.KeptFrom (engine 9) lingeringTurn ∧
      ComesTo (lingeringTurn.onward ⟨1⟩) (engine 9) lingeringTurn.machine lingeringVariable.Closes := by
  have hserved : (watched 10 (.resume ⟨1⟩ []) lingering).1 ≠ .error .exhausted :=
    fun h => absurd (congrArg Ending.of h) (by decide +kernel)
  have hresumed : ((engine 10 (.resume ⟨1⟩ []) lingering).2.fiber ⟨1⟩).status = .dead := by decide +kernel
  have hvalue : Ending.of (engine 10 (.resume ⟨1⟩ []) lingering).1 = .value := by decide +kernel
  have hanswered (t : Turn) (ht : t ∈ turns (engine 9) 9 lingering (.resume ⟨1⟩ [])) :
      t.answered (engine 9) ⟨1⟩ := by
    rw [turns_lingering engine_lingering, List.mem_singleton] at ht
    subst ht
    intro e m h
    cases (ends_lingering engine_lingering).symm.trans h
  obtain ⟨hcalls, hvariable⟩ := ((coroutines_finalized ordered_lingering hserved).2 9 _ lingering
    (Reached.self ..)).2 ⟨1⟩ [] rfl rfl rfl hanswered hresumed fun s hs => by
      rw [hs] at hvalue
      rcases s with (_ | _) | _ | _ <;> cases hvalue
  exact ⟨ordered_lingering, waits_lingering, hcalls, kept_lingering, (hvariable lingeringVariable rfl).2 _
    (turns_lingering engine_lingering ▸ List.mem_singleton_self _) waits_lingering kept_lingering⟩

/-- A coroutine that has spent its budget does not accept arguments. It dies of them with its frames,
and with variables that wait to be closed. -/
theorem lingering_rejected :
    let q := engine 10 (.resume ⟨1⟩ [.bool true]) lingering
    q.1 = .error (.fault (.complain .resumeForcedWithArguments)) ∧
      (q.2.fiber ⟨1⟩).status = .dead ∧ lingeringVariable.Waits q.2 := by
  refine ⟨rfl, rfl, [], _, [], rfl, rfl, ?_, ?_, ?_, rfl⟩ <;> decide

end ScriptMachine
