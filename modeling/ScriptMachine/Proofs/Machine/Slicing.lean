import ScriptMachine.Proofs.Machine.Slices

namespace ScriptMachine

namespace Exec

def resumeWithin (n : Nat) (f : FiberId) (budget : Nat) (arguments : List Value) : Exec Value := do
  modifyFiber f fun b => { b with budget }
  engine n (.resume f arguments)

def resumeSliced (n : Nat) (f : FiberId) : List Nat → List Value → Exec Value
  | [], _ => throw .exhausted
  | budget :: budgets, arguments => do
    match ← resumeWithin n f budget arguments with
    | .yieldRequest _ true => resumeSliced n f budgets []
    | v => return v

example {co : CoroutineId} {f : FiberId} {m : Machine} (h : m.heap.coroutine co = .fiber f)
    (n budget : Nat) (arguments : List Value) :
    (do Session.setBudget co budget; Session.resume n co arguments) m =
      resumeWithin n f budget arguments m := by
  have hfiber (m : Machine) (h : m.heap.coroutine co = .fiber f) : fiberOf co m = (.ok f, m) := by
    have hread : read (fun m => m.heap.coroutine co) m = (.ok (.fiber f), m) :=
      congrArg (fun body => (Except.ok body, m)) h
    rw [fiberOf, bind_ok hread]
    rfl
  have hset : Session.setBudget co budget m = (.ok (), m.withBudget f budget) := by
    rw [Session.setBudget, bind_ok (hfiber m h)]
    rfl
  rw [bind_ok hset, Session.resume]
  exact bind_ok (hfiber (m.withBudget f budget) h)

def resumeInTurn (n : Nat) (f : FiberId) :
    List (List Nat × List Value) → Machine → List (Except Stop Value) × Machine
  | [], m => ([], m)
  | (budgets, arguments) :: rounds, m =>
    let (r, m) := resumeSliced n f budgets arguments m
    let (rs, m) := resumeInTurn n f rounds m
    (r :: rs, m)

def leave (f : FiberId) (r : Except Stop Value × Machine) : Except Stop Value × Machine :=
  ((concludeResume f r.1 r.2).1, (concludeResume f r.1 r.2).2.exited f)

def afterSlice (n : Nat) (f : FiberId) (budgets : List Nat) :
    Except Stop Value × Machine → Except Stop Value × Machine
  | (.ok (.yieldRequest _ true), m) => resumeSliced n f budgets [] m
  | r => r

end Exec

def Machine.cut (m : Machine) (f : FiberId) (ip : Nat) : Machine :=
  (m.withFiber f fun b => { b with savedIp := some ip, status := .forceSuspended }).exited f

/-- A coroutine that the host may resume, with no debugger around. -/
structure Idle (f : FiberId) (m : Machine) : Prop where
  notMain : f ≠ Machine.mainFiber
  debugger : m.debug.debugger = none
  fresh : (m.fiber f).status = .notStarted → (m.fiber f).savedIp = none

open Exec Machine Likeness

section Budgets

variable {f : FiberId} {m : Machine} {b c : Nat} {r : Except Stop Value}

theorem Machine.withBudget_withBudget (m : Machine) (f : FiberId) (b c : Nat) :
    (m.withBudget f b).withBudget f c = m.withBudget f c := m.withFiber_withFiber f _ _

theorem Machine.withBudget_self (h : (m.fiber f).budget = b) : m.withBudget f b = m := by
  have hid : m.withFiber f id = m := by
    have hmodify : m.fibers.modify f.index id = m.fibers := by
      refine Array.ext_getElem? fun i => ?_
      simp only [Array.getElem?_modify, Option.map_id, id, ite_self]
    simp only [withFiber, hmodify]
  refine (withFiber_congr ?_).trans hid
  rw [← h]
  rfl

theorem Machine.entered_withBudget (m : Machine) (f : FiberId) (b : Nat) :
    (m.withBudget f b).entered f = (m.entered f).withBudget f b :=
  of_entered (c := slack f b false true) m f

theorem Machine.begun_withBudget (m : Machine) (f : FiberId) (b : Nat) :
    (m.withBudget f b).begun f = (m.begun f).withBudget f b := by
  rw [begun, entered_withBudget, begun, withBudget, withBudget, withFiber_withFiber,
    withFiber_withFiber]
  rfl

theorem Machine.status_withBudget (m : Machine) (f : FiberId) (b : Nat) :
    ((m.withBudget f b).fiber f).status = (m.fiber f).status :=
  fiber_withFiber_of (v := Fiber.status) rfl f

theorem leave_exhausted (h : (concludeResume f r m).1 = .error .exhausted) :
    r = .error .exhausted := by
  match r with
  | .error s => rw [← h, SameAt.concludeResume_error]
  | .ok v =>
    cases v with
    | yieldRequest items forced => cases forced <;> cases h
    | _ => cases h

theorem leave_withBudget (hr : r ≠ .error .exhausted) (m : Machine) :
    leave f (r, m.withBudget f b) = ((leave f (r, m)).1, (leave f (r, m)).2.withBudget f b) := by
  have hconclude : concludeResume f r (m.withBudget f b) =
      ((concludeResume f r m).1, (concludeResume f r m).2.withBudget f b) := by
    rcases SameAt.concludeResume (c := slack f b false true) (m := m) (f := f) r with
      ⟨s, hs, rfl⟩ | h
    · exact absurd (leave_exhausted hs) hr
    · exact h
  rw [leave, hconclude]
  exact congrArg (Prod.mk _) (of_exited (c := slack f b false true) _ f)

theorem Machine.begun_cut (hm : Underway f m) (ip : Nat) :
    (m.cut f ip).begun f = m.withFiber f fun b => { b with savedIp := some ip } := by
  have hactive : f :: m.active.tail = m.active := List.cons_head?_tail hm.active
  have hexited (u : Fiber → Fiber) : (m.withFiber f u).exited f =
      { m with active := m.active.tail }.withFiber f fun b =>
        { u b with nesting := (u b).nesting - 1 } := by
    rw [exited, if_pos hm.notMain]
    exact { m with active := m.active.tail }.withFiber_withFiber f _ _
  have hbegun (m : Machine) : m.begun f = { m with active := f :: m.active }.withFiber f fun b =>
      { b with nesting := b.nesting + 1, status := .running } := by
    rw [begun, entered, if_pos hm.notMain]
    exact { m with active := f :: m.active }.withFiber_withFiber f
      (fun b => { b with nesting := b.nesting + 1 }) (fun b => { b with status := .running })
  have hshape (u : Fiber → Fiber) : ((m.withFiber f u).exited f).begun f =
      { m with active := f :: m.active.tail }.withFiber f fun b =>
        { u b with nesting := (u b).nesting - 1 + 1, status := .running } := by
    rw [hexited, hbegun]
    exact { m with active := f :: m.active.tail }.withFiber_withFiber f
      (fun b => { u b with nesting := (u b).nesting - 1 })
      (fun b => { b with nesting := b.nesting + 1, status := .running })
  rw [cut, hshape, hactive]
  refine withFiber_congr ?_
  have hnesting : (m.fiber f).nesting - 1 + 1 = (m.fiber f).nesting := Nat.sub_add_cancel hm.nesting
  simp only [hnesting]
  rw [← hm.status]

theorem Idle.inside (hm : Idle f m) (hres : (m.fiber f).status.isResumable) (b : Nat) :
    Inside f ((m.begun f).withBudget f b) := by
  have hbegun : Inside f ((m.withBudget f b).begun f) :=
    .begun hm.notMain ((lt_size_of_resumable hres).trans_eq Array.size_modify.symm) hm.debugger
  rw [begun_withBudget] at hbegun
  exact hbegun

theorem Idle.saved (hm : Idle f m) (b : Nat) (h : (m.fiber f).status = .notStarted) :
    (((m.begun f).withBudget f b).fiber f).savedIp = none := by
  refine (fiber_withFiber_of (v := Fiber.savedIp) rfl f).trans ?_
  refine (fiber_withFiber_of (v := Fiber.savedIp) rfl f).trans ?_
  rw [fiber_entered]
  exact (fiber_withFiber_of (v := Fiber.savedIp) rfl f).trans (hm.fresh h)

theorem Idle.leave (hne : f ≠ mainFiber) (hsize : f.index < m.fibers.size)
    (hdebug : m.debug.debugger = none) (r : Except Stop Value) : Idle f (leave f (r, m)).2 := by
  obtain ⟨u, happly, hu⟩ := concludeResume_isLeft f r m
  have hleave : (Exec.leave f (r, m)).2 = (m.withFiber f u).exited f := by
    rw [Exec.leave, happly]
  rw [hleave]
  refine ⟨hne, ?_, fun h => ?_⟩
  · rw [debug_exited]
    exact hdebug
  · have hstatus := (hu (m.fiber f)).1
    rw [status_exited, fiber_withFiber_self hsize] at h
    rw [h] at hstatus
    cases hstatus

theorem Inside.leave (hm : Inside f m) (r : Except Stop Value) : Idle f (Exec.leave f (r, m)).2 :=
  .leave hm.notMain hm.size hm.debugger r

theorem Idle.withBudget (hm : Idle f m) (b : Nat) : Idle f (m.withBudget f b) := by
  refine ⟨hm.notMain, hm.debugger, fun h => ?_⟩
  rw [m.status_withBudget] at h
  exact (fiber_withFiber_of (v := Fiber.savedIp) rfl f).trans (hm.fresh h)

end Budgets

section Slicing

variable {f : FiberId} {m : Machine} {arguments : List Value} {r : Except Stop Value} {M : Machine}
  {b n k : Nat} {bs : List Nat}

theorem resumeSliced_cons (n : Nat) (f : FiberId) (b : Nat) (bs : List Nat) (arguments : List Value)
    (m : Machine) : resumeSliced n f (b :: bs) arguments m =
      afterSlice n f bs (resumeWithin n f b arguments m) := by
  rw [resumeSliced]
  rcases hrun : resumeWithin n f b arguments m with ⟨s | v, m'⟩
  · exact bind_error hrun
  · rw [bind_ok hrun]
    cases v with
    | yieldRequest items forced => cases forced <;> rfl
    | _ => rfl

theorem resumeWithin_withBudget (n : Nat) (b c : Nat) (arguments : List Value) (m : Machine) :
    resumeWithin n f b arguments (m.withBudget f c) = resumeWithin n f b arguments m := by
  have hset (m : Machine) : modifyFiber f (fun fiber => { fiber with budget := b }) m =
      (.ok (), m.withBudget f b) := rfl
  rw [resumeWithin, bind_ok (hset _), bind_ok (hset _), withBudget_withBudget]

theorem afterSlice_cases (r : Except Stop Value) :
    (∃ items, r = .ok (.yieldRequest items true)) ∨
      ∀ n f bs m, afterSlice n f bs (r, m) = (r, m) := by
  match r with
  | .error s => exact .inr fun _ _ _ _ => rfl
  | .ok v =>
    cases v with
    | yieldRequest items forced =>
      cases forced with
      | false => exact .inr fun _ _ _ _ => rfl
      | true => exact .inl ⟨items, rfl⟩
    | _ => exact .inr fun _ _ _ _ => rfl

theorem afterSlice_withBudget {r' : Except Stop Value} (hbs : bs ≠ [])
    (h : afterSlice n f bs (r, m) = (r', M)) (b : Nat) :
    ∃ c, afterSlice n f bs (r, m.withBudget f b) = (r', M.withBudget f c) := by
  rcases afterSlice_cases r with ⟨items, rfl⟩ | hr
  · obtain ⟨b', bs', rfl⟩ := List.exists_cons_of_ne_nil hbs
    refine ⟨(M.fiber f).budget, ?_⟩
    rw [withBudget_self rfl, ← h, afterSlice, afterSlice, resumeSliced_cons,
      resumeSliced_cons, resumeWithin_withBudget]
  · rw [hr] at h
    obtain ⟨rfl, rfl⟩ := Prod.mk.inj h
    exact ⟨b, hr _ _ _ _⟩

theorem resumeWithin_refused (hm : Idle f m)
    (h : ¬ ((m.fiber f).status.isResumable ∧ (m.fiber f).status.accepts arguments)) :
    ∃ (s : Stop) (M : Machine), Idle f M ∧ ∀ k b, resumeWithin (k + 1) f b arguments m =
      (.error s, M.withBudget f b) := by
  have hset (b : Nat) : modifyFiber f (fun fiber => { fiber with budget := b }) m =
      (.ok (), m.withBudget f b) := rfl
  by_cases hres : (m.fiber f).status.isResumable
  · have haccepts : ¬ (m.fiber f).status.accepts arguments := fun ha => h ⟨hres, ha⟩
    refine ⟨.fault (.complain .resumeForcedWithArguments), (leave f
      (.error (.fault (.complain .resumeForcedWithArguments)), m.entered f)).2, ?_, fun k b => ?_⟩
    · refine .leave hm.notMain ((lt_size_of_resumable hres).trans_eq (m.size_entered f).symm) ?_ _
      rw [debug_entered]
      exact hm.debugger
    have hrun := runResumed_of_not_accepts (E := engine k) (f := f) (n := k) haccepts
    rw [← m.status_withBudget f b] at hres hrun
    rw [resumeWithin, bind_ok (hset b)]
    refine (resume_apply hres _ (congrFun hrun _)).trans ?_
    have hleave := leave_withBudget (f := f) (b := b)
      (r := .error (.fault (.complain .resumeForcedWithArguments))) nofun (m.entered f)
    rw [← entered_withBudget] at hleave
    exact hleave
  · refine ⟨.fault (.complain (notResumable (m.fiber f).status)), m, hm, fun k b => ?_⟩
    rw [resumeWithin, bind_ok (hset b)]
    rw [← m.status_withBudget f b] at hres
    change Exec.resume (engine k) k f arguments _ = _
    rw [Exec.resume, bind_ok (readFiber_apply _ _ _), if_neg hres, status_withBudget]
    rfl

theorem resumeWithin_of_accepts (hres : (m.fiber f).status.isResumable)
    (haccepts : (m.fiber f).status.accepts arguments) (k b : Nat) :
    resumeWithin (k + 1) f b arguments m = leave f (proceed (engine k) f k arguments
      (m.fiber f).status ((m.begun f).withBudget f b)) := by
  have hset : modifyFiber f (fun fiber => { fiber with budget := b }) m =
      (.ok (), m.withBudget f b) := rfl
  have hstatus := m.status_withBudget f b
  rw [← hstatus] at hres haccepts
  rw [resumeWithin, bind_ok hset]
  refine (resume_apply hres _ (runResumed_of_accepts haccepts)).trans ?_
  rw [hstatus, begun_withBudget]
  rfl

end Slicing

/-- A flow that is resumed ends its first slice in this way, whatever its budget is. -/
def Ends (f : FiberId) (arguments : List Value) (m : Machine) (r : Except Stop Value) (M : Machine) :
    Prop :=
  ∃ N, ∀ k ≥ N, ∀ b, proceedOn (engine k) f k arguments (m.fiber f).status
    ((m.begun f).withBudget f b) = (r, M.withBudget f b)

/-- However a flow is sliced, its resumption ends in this way. -/
def Settles (f : FiberId) (arguments : List Value) (m : Machine) (r : Except Stop Value)
    (M : Machine) : Prop :=
  ∃ N, ∀ n ≥ N, ∀ bs : List Nat, N ≤ bs.length →
    ∃ b, resumeSliced n f bs arguments m = (r, M.withBudget f b)

/-- However a flow is sliced after it ended a slice, its resumption ends in this way. -/
def Continues (f : FiberId) (p : Except Stop Value × Machine) (r : Except Stop Value) (M : Machine) :
    Prop :=
  ∃ N, ∀ n ≥ N, ∀ bs : List Nat, N ≤ bs.length →
    ∃ b, afterSlice n f bs (leave f p) = (r, M.withBudget f b)

section Settling

variable {f : FiberId} {m M M' : Machine} {arguments : List Value} {r r' : Except Stop Value}
  {k k' n b : Nat} {bs : List Nat}

theorem leave_cut (m : Machine) (f : FiberId) (ip : Nat) :
    leave f (.ok (.yieldRequest [] true), m.withFiber f fun b => { b with savedIp := some ip }) =
      (.ok (.yieldRequest [] true), m.cut f ip) :=
  congrArg (fun m => (Except.ok (Value.yieldRequest [] true), exited m f))
    (m.withFiber_withFiber f _ _)

theorem proceedOn_cut (hm : Underway f m) (E : Engine) (n ip b : Nat) :
    proceedOn E f n [] .forceSuspended (((m.cut f ip).begun f).withBudget f b) =
      runOn E f n ip (m.withBudget f b) := by
  have htake : takeSaved f (((m.cut f ip).begun f).withBudget f b) =
      (.ok (.jump ip), m.withBudget f b) := by
    have hfiber : ((((m.cut f ip).begun f).withBudget f b).fiber f).savedIp = some ip := by
      rw [begun_cut hm, withBudget, withFiber_withFiber,
        fiber_withFiber_self hm.size]
      rfl
    rw [takeSaved, bind_ok (readFiber_apply _ _ _), hfiber, bind_ok (modifyFiber_apply _ _ _),
      begun_cut hm, withBudget, withFiber_withFiber,
      withFiber_withFiber]
    refine congrArg (fun m => (Except.ok (Resumption.jump ip), m)) (withFiber_congr ?_)
    rw [← hm.saved]
    rfl
  exact bind_ok htake

theorem status_cut (hm : Underway f m) (ip : Nat) :
    ((m.cut f ip).fiber f).status = .forceSuspended := by
  rw [cut, status_exited, fiber_withFiber_self hm.size]

theorem Idle.cut (hm : Underway f m) (ip : Nat) : Idle f (m.cut f ip) := by
  have hsaved : Abides f m (m.withFiber f fun b => { b with savedIp := some ip }) := by
    refine .withFiber ?_
    rw [fiber_withFiber_self hm.size]
    exact .stacks ..
  have hleave := (hm.toInside.abides hsaved).leave (.ok (.yieldRequest [] true))
  rw [leave_cut] at hleave
  exact hleave

theorem runOn_eq (hm : Underway f m) (hr : r ≠ .error .exhausted) {j j' ip : Nat} (hk : k ≤ k')
    (hj : j ≤ j') (h : runOn (engine k) f j ip m = (r, M.withBudget f b)) (c : Nat) :
    runOn (engine k') f j' ip (m.withBudget f c) = (r, M.withBudget f c) := by
  have hsame : (slack f c false true).SameAt m (runOn (engine k) f j ip) (runOn (engine k') f j' ip) :=
    (alike_runOn (slack_engine hk) (enough_slack hj) ip m hm.toInside.good).2 id
  rw [SameAt, h] at hsame
  rcases hsame with ⟨s, hs, rfl⟩ | hsame
  · exact absurd hs hr
  · exact hsame.trans (congrArg (Prod.mk r) (M.withBudget_withBudget f b c))

/-- One run to the end of a slice tells how it ends for any budget and any larger number of steps. -/
theorem proceedOn_eq (hm : Idle f m) (hres : (m.fiber f).status.isResumable)
    (hr : r ≠ .error .exhausted) {j j' : Nat} (hk : k ≤ k') (hj : j ≤ j')
    (h : proceedOn (engine k) f j arguments (m.fiber f).status ((m.begun f).withBudget f b) = (r, M))
    (c : Nat) : proceedOn (engine k') f j' arguments (m.fiber f).status
      ((m.begun f).withBudget f c) = (r, M.withBudget f c) := by
  obtain ⟨hsame, -⟩ := proceedOn_same (c := c) (hm.inside hres b) (hm.saved b) hk hj arguments
  rw [SameAt, h] at hsame
  rcases hsame with ⟨s, hs, rfl⟩ | hsame
  · exact absurd hs hr
  · rw [← withBudget_withBudget _ _ b c]
    exact hsame

theorem Ends.of_run (hm : Idle f m) (hres : (m.fiber f).status.isResumable)
    (hr : r ≠ .error .exhausted)
    (h : proceedOn (engine k) f k arguments (m.fiber f).status ((m.begun f).withBudget f b) = (r, M)) :
    Ends f arguments m r M :=
  ⟨k, fun _ hk c => proceedOn_eq hm hres hr hk hk h c⟩

/-- A slice goes as it would without a budget. Otherwise it is cut, and what is left to do is done by
the slices that follow. The induction is on the turns that are left. -/
theorem resumeSliced_of_proceedOn (hr : r ≠ .error .exhausted) (n : Nat) {j : Nat} (hj : j ≤ n)
    (hm : Idle f m) (hres : (m.fiber f).status.isResumable)
    (haccepts : (m.fiber f).status.accepts arguments)
    (h : ∀ b, proceedOn (engine n) f j arguments (m.fiber f).status ((m.begun f).withBudget f b) =
      (r, M.withBudget f b)) (bs : List Nat) (hbs : j < bs.length) :
    ∃ rest b, bs.length ≤ rest.length + j + 1 ∧ resumeSliced (n + 1) f bs arguments m =
      afterSlice (n + 1) f rest (leave f (r, M.withBudget f b)) := by
  induction j using Nat.strong_induction_on generalizing m arguments bs with
  | _ j ih =>
    obtain _ | ⟨b, bs⟩ := bs
    · cases hbs
    have hinside := hm.inside hres b
    -- The slice may take more steps than what is left to do.
    have hproceed {p : Except Stop Value × Machine}
        (hrun : proceed (engine n) f j arguments (m.fiber f).status ((m.begun f).withBudget f b) = p)
        (hp : p.1 ≠ .error .exhausted) : resumeWithin (n + 1) f b arguments m = leave f p := by
      have hrefines := alike_iff_refines.1 (alike_proceed (agrees_engine (le_refl n)).agree
        (enough_of_le hj) (f := f) arguments (m.fiber f).status) ((m.begun f).withBudget f b)
      rw [hrun] at hrefines
      rw [resumeWithin_of_accepts hres haccepts, hrefines hp]
    rw [resumeSliced_cons]
    rcases proceed_cases hinside (hm.saved b) n j arguments with
      hsame | ⟨-, d, ip, m', hd, hdj, hunder, habides, hcut, hrest⟩
    · refine ⟨bs, b, by rw [List.length_cons]; omega, ?_⟩
      rw [hproceed (hsame.trans (h b)) hr]
    · have hleft : runOn (engine n) f (j - d) ip m' = (r, M.withBudget f b) :=
        (hrest n j le_rfl le_rfl).symm.trans (h b)
      have hstatus := status_cut hunder ip
      have hnext (c : Nat) : proceedOn (engine n) f (j - d) [] ((m'.cut f ip).fiber f).status
          (((m'.cut f ip).begun f).withBudget f c) = (r, M.withBudget f c) := by
        rw [hstatus, proceedOn_cut hunder]
        exact runOn_eq hunder hr le_rfl le_rfl hleft c
      obtain ⟨rest, c, hlength, heq⟩ := ih (j - d) (by omega) (by omega) (.cut hunder ip)
        (by rw [hstatus]; rfl) (by rw [hstatus]; rfl) hnext bs
        (by rw [List.length_cons] at hbs; omega)
      refine ⟨rest, c, by rw [List.length_cons]; omega, ?_⟩
      rw [hproceed hcut nofun, leave_cut]
      exact heq

section

variable (hm : Idle f m) (hres : (m.fiber f).status.isResumable)
  (haccepts : (m.fiber f).status.accepts arguments)
include hm hres haccepts

theorem resumeSliced_zero (k : Nat) (bs : List Nat) : resumeSliced (k + 1) f (0 :: bs) arguments m =
    afterSlice (k + 1) f bs (leave f (proceedOn (engine k) f k arguments (m.fiber f).status
      ((m.begun f).withBudget f 0))) := by
  have hinside := hm.inside hres 0
  have hbudget : (((m.begun f).withBudget f 0).fiber f).budget = 0 := by
    rw [withBudget, fiber_withFiber_self (hinside.size.trans_eq Array.size_modify)]
  rw [resumeSliced_cons, resumeWithin_of_accepts hres haccepts,
    proceed_of_unlimited hinside (hm.saved 0) hbudget]

theorem Ends.settles (hr : r ≠ .error .exhausted) (hends : Ends f arguments m r M)
    (hcont : Continues f (r, M) r' M') : Settles f arguments m r' M' := by
  obtain ⟨N, hends⟩ := hends
  obtain ⟨N', hcont⟩ := hcont
  refine ⟨N + N' + 2, fun n hn bs hbs => ?_⟩
  obtain ⟨n, rfl⟩ : ∃ k, n = k + 1 := ⟨n - 1, by omega⟩
  have hrun (b : Nat) := proceedOn_eq hm hres hr (by omega : N ≤ n) le_rfl (hends N le_rfl 0) b
  simp only [withBudget_withBudget] at hrun
  obtain ⟨rest, b, hrest, heq⟩ := resumeSliced_of_proceedOn hr n (by omega : N ≤ n) hm hres haccepts
    hrun bs (by omega)
  obtain ⟨c, hafter⟩ := hcont (n + 1) (by omega) rest (by omega)
  rw [heq, leave_withBudget hr]
  obtain ⟨c', hafter'⟩ := afterSlice_withBudget (by rintro rfl; simp at hrest; omega) hafter b
  rw [withBudget_withBudget] at hafter'
  exact ⟨c', hafter'⟩

theorem Settles.ends (hr : r' ≠ .error .exhausted) (h : Settles f arguments m r' M') :
    ∃ r M, r ≠ .error .exhausted ∧ Ends f arguments m r M ∧ Continues f (r, M) r' M' := by
  obtain ⟨N, hsettles⟩ := h
  rcases hrun : proceedOn (engine N) f N arguments (m.fiber f).status ((m.begun f).withBudget f 0)
    with ⟨r, M⟩
  have hserved : r ≠ .error .exhausted := by
    rintro rfl
    obtain ⟨b, hb⟩ := hsettles (N + 1) (by omega) (0 :: List.replicate N 0) (by simp)
    rw [resumeSliced_zero hm hres haccepts, hrun] at hb
    exact hr (Prod.mk.inj hb).1.symm
  refine ⟨r, M.withBudget f 0, hserved, ⟨N, fun k hk b => ?_⟩, N + 1, fun n hn bs hbs => ?_⟩
  · rw [withBudget_withBudget]
    exact proceedOn_eq hm hres hserved hk hk hrun b
  · obtain ⟨n, rfl⟩ : ∃ k, n = k + 1 := ⟨n - 1, by omega⟩
    obtain ⟨b, hb⟩ := hsettles (n + 1) (by omega) (0 :: bs) (by rw [List.length_cons]; omega)
    rw [resumeSliced_zero hm hres haccepts,
      proceedOn_eq hm hres hserved (by omega : N ≤ n) (by omega : N ≤ n) hrun 0] at hb
    exact ⟨b, hb⟩

end

theorem Continues.of_afterSlice {p : Except Stop Value × Machine}
    (hsliced : ∀ m, Idle f m → resumeSliced n f bs [] m = (r, M) → Settles f [] m r M)
    (hp : Idle f (leave f p).2) (h : afterSlice n f bs (leave f p) = (r, M)) : Continues f p r M := by
  rw [Continues]
  rcases hleave : leave f p with ⟨r', m'⟩
  rw [hleave] at h hp
  rcases afterSlice_cases r' with ⟨items, rfl⟩ | hr'
  · exact hsliced m' hp h
  · rw [hr'] at h
    obtain ⟨rfl, rfl⟩ := Prod.mk.inj h
    refine ⟨0, fun n _ bs _ => ⟨(m'.fiber f).budget, ?_⟩⟩
    rw [hr', withBudget_self rfl]

theorem Ends.of_cut (hm : Idle f m) (hres : (m.fiber f).status.isResumable)
    (hr : r ≠ .error .exhausted) {d ip : Nat} {m' : Machine} (hd : d ≤ k) (hunder : Underway f m')
    (habides : Abides f ((m.begun f).withBudget f b) m')
    (hrest : ∀ k' n', k ≤ k' → k ≤ n' → proceedOn (engine k') f n' arguments (m.fiber f).status
      ((m.begun f).withBudget f b) = runOn (engine k') f (n' - d) ip m')
    (h : Ends f [] (m'.cut f ip) r M) : Ends f arguments m r M := by
  obtain ⟨N, hends⟩ := h
  have hbudget : (m'.fiber f).budget = b := by
    rw [habides.role.budget, withBudget, fiber_withFiber_self
      ((hm.inside hres b).size.trans_eq Array.size_modify)]
  have hrun := hends N le_rfl b
  rw [status_cut hunder, proceedOn_cut hunder, withBudget_self hbudget] at hrun
  have hmore := refines_runOn (by omega : N ≤ N + k) (by omega : N ≤ N + k - d) f ip m'
  rw [hrun] at hmore
  refine ⟨N + k, fun k' hk c => ?_⟩
  rw [proceedOn_eq hm hres hr hk hk ((hrest (N + k) (N + k) (by omega) (by omega)).trans (hmore hr)) c,
    withBudget_withBudget]

/-- However the budgets are chosen, slices that come to an end do so in the same way. -/
theorem settles_of_resumeSliced (hm : Idle f m) (hr : r ≠ .error .exhausted)
    (h : resumeSliced n f bs arguments m = (r, M)) : Settles f arguments m r M := by
  induction bs generalizing m arguments with
  | nil => exact absurd (Prod.mk.inj h).1.symm hr
  | cons b bs ih =>
    rw [resumeSliced_cons] at h
    obtain _ | k := n
    · exact absurd (Prod.mk.inj h).1.symm hr
    by_cases haccepted : (m.fiber f).status.isResumable ∧ (m.fiber f).status.accepts arguments
    · obtain ⟨hres, haccepts⟩ := haccepted
      have hinside := hm.inside hres b
      rw [resumeWithin_of_accepts hres haccepts] at h
      rcases proceed_cases hinside (hm.saved b) k k arguments with
        hsame | ⟨-, d, ip, m', -, hd, hunder, habides, hcut, hrest⟩
      · have hafter := (proceedOn_same (c := 0) hinside (hm.saved b) (le_refl k) (le_refl k) arguments).2
        rw [hsame] at h
        rcases hrun : proceedOn (engine k) f k arguments (m.fiber f).status
          ((m.begun f).withBudget f b) with ⟨r', M'⟩
        rw [hrun] at h hafter
        have hserved : r' ≠ .error .exhausted := by
          rintro rfl
          exact hr (Prod.mk.inj h).1.symm
        exact Ends.settles hm hres haccepts hserved (.of_run hm hres hserved hrun)
          (.of_afterSlice (fun _ hm h => ih hm h) ((hinside.abides hafter).leave r') h)
      · rw [hcut, leave_cut] at h
        have hstatus := status_cut hunder ip
        obtain ⟨r', M', hserved, hends, hcont⟩ := (ih (.cut hunder ip) h).ends (.cut hunder ip)
          (by rw [hstatus]; rfl) (by rw [hstatus]; rfl) hr
        exact Ends.settles hm hres haccepts hserved
          (.of_cut hm hres hserved hd hunder habides hrest hends) hcont
    · obtain ⟨s, M', -, hrefused⟩ := resumeWithin_refused hm haccepted
      rw [hrefused] at h
      obtain ⟨rfl, rfl⟩ := Prod.mk.inj h
      refine ⟨1, fun n hn bs hbs => ?_⟩
      obtain ⟨n, rfl⟩ : ∃ k, n = k + 1 := ⟨n - 1, by omega⟩
      obtain ⟨c, bs, rfl⟩ := List.exists_cons_of_length_pos hbs
      refine ⟨c, ?_⟩
      rw [resumeSliced_cons, hrefused, withBudget_withBudget]
      rfl

end Settling

section Sequences

variable {f : FiberId} {m M : Machine} {arguments : List Value} {n k b : Nat} {bs : List Nat}

theorem Idle.resumeWithin (hm : Idle f m) (n b : Nat) (arguments : List Value) :
    Idle f (Exec.resumeWithin n f b arguments m).2 := by
  obtain _ | k := n
  · exact hm.withBudget b
  by_cases haccepted : (m.fiber f).status.isResumable ∧ (m.fiber f).status.accepts arguments
  · have hinside := hm.inside haccepted.1 b
    rw [resumeWithin_of_accepts haccepted.1 haccepted.2]
    rcases proceed_cases hinside (hm.saved b) k k arguments with
      hsame | ⟨-, d, ip, m', -, -, hunder, -, hcut, -⟩
    · have hafter := (proceedOn_same (c := 0) hinside (hm.saved b) (le_refl k) (le_refl k) arguments).2
      rw [hsame]
      exact (hinside.abides hafter).leave _
    · rw [hcut, leave_cut]
      exact .cut hunder ip
  · obtain ⟨s, M, hM, hrefused⟩ := resumeWithin_refused hm haccepted
    rw [hrefused]
    exact hM.withBudget b

theorem Idle.resumeSliced (hm : Idle f m) (n : Nat) (bs : List Nat) (arguments : List Value) :
    Idle f (Exec.resumeSliced n f bs arguments m).2 := by
  induction bs generalizing m arguments with
  | nil => exact hm
  | cons b bs ih =>
    have hslice := hm.resumeWithin n b arguments
    rw [resumeSliced_cons]
    rcases hrun : Exec.resumeWithin n f b arguments m with ⟨r, m'⟩
    rw [hrun] at hslice
    rcases afterSlice_cases r with ⟨items, rfl⟩ | hr
    · exact ih hslice []
    · rw [hr]
      exact hslice

theorem resumeSliced_withBudget (hbs : bs ≠ []) (n b : Nat) (arguments : List Value) (m : Machine) :
    resumeSliced n f bs arguments (m.withBudget f b) = resumeSliced n f bs arguments m := by
  obtain ⟨c, bs, rfl⟩ := List.exists_cons_of_ne_nil hbs
  rw [resumeSliced_cons, resumeSliced_cons, resumeWithin_withBudget]

/-- Several resumptions end in the same way however each of them is sliced. -/
theorem resumeInTurn_eq (hm : Idle f m) (rounds : List (List Nat × List Value))
    (h : .error .exhausted ∉ (resumeInTurn n f rounds m).1) :
    ∃ N, ∀ n' ≥ N, ∀ rounds' : List (List Nat × List Value),
      rounds'.map Prod.snd = rounds.map Prod.snd → (∀ p ∈ rounds', N ≤ p.1.length) → ∀ b,
      ∃ c, resumeInTurn n' f rounds' (m.withBudget f b) =
        ((resumeInTurn n f rounds m).1, (resumeInTurn n f rounds m).2.withBudget f c) := by
  induction rounds generalizing m with
  | nil =>
    refine ⟨0, fun n' _ rounds' hsame _ b => ⟨b, ?_⟩⟩
    rw [List.map_nil, List.map_eq_nil_iff] at hsame
    rw [hsame]
    rfl
  | cons p rounds ih =>
    obtain ⟨bs, arguments⟩ := p
    rcases hrun : Exec.resumeSliced n f bs arguments m with ⟨r, m'⟩
    have hunfold : resumeInTurn n f ((bs, arguments) :: rounds) m =
        (r :: (resumeInTurn n f rounds m').1, (resumeInTurn n f rounds m').2) := by
      simp only [resumeInTurn, hrun]
    rw [hunfold, List.mem_cons, not_or] at h
    have hidle := hm.resumeSliced n bs arguments
    rw [hrun] at hidle
    obtain ⟨N, hrest⟩ := ih hidle h.2
    obtain ⟨N', hsettles⟩ := settles_of_resumeSliced hm (Ne.symm h.1) hrun
    refine ⟨N + N' + 1, fun n' hn rounds' hsame hlong b => ?_⟩
    obtain _ | ⟨⟨bs', arguments'⟩, rounds'⟩ := rounds'
    · cases hsame
    rw [List.map_cons, List.map_cons, List.cons.injEq] at hsame
    obtain ⟨rfl, hsame⟩ := hsame
    have hbs : N + N' + 1 ≤ bs'.length := hlong _ (List.mem_cons_self ..)
    obtain ⟨c, hfirst⟩ := hsettles n' (by omega) bs' (by omega)
    obtain ⟨c', hothers⟩ := hrest n' (by omega) rounds' hsame
      (fun p hp => by have := hlong p (List.mem_cons_of_mem _ hp); omega) c
    refine ⟨c', ?_⟩
    rw [hunfold, resumeInTurn, resumeSliced_withBudget (by rintro rfl; simp at hbs), hfirst]
    simp only [hothers]

end Sequences

section Turns

variable {f : FiberId} {m : Machine} {n b i : Nat} {t : Turn}

theorem eq_of_isSpent (hm : Idle f m) {arguments : List Value}
    (ht : (turns (engine n) n (m.withBudget f b) (.resume f arguments))[i]? = some t)
    (hspent : t.isSpent) : i = b ∧ 0 < b := by
  rw [turns, m.status_withBudget, begun_withBudget] at ht
  split at ht
  · rename_i hf
    rw [Bool.and_eq_true] at hf
    have hinside := hm.inside hf.1 b
    obtain ⟨-, habides, hunder⟩ :=
      beginResume_begins (c := 0) hinside (hm.saved b) (le_refl n) (le_refl n) arguments
    rcases hrun : beginResume (engine n) f n arguments (m.fiber f).status
      ((m.begun f).withBudget f b) with ⟨s | r, m'⟩ <;> rw [hrun] at ht habides
    · cases ht
    · cases r with
      | done => cases ht
      | yielded => cases ht
      | jump ip =>
        obtain ⟨hlimit, hcount⟩ := getElem?_trace (hunder ip m' hrun).good n n ip i
          (fun _ _ => Nat.zero_le _) ht
        obtain ⟨c, hc, hle⟩ : ∃ c, t.limit = some c ∧ c ≤ t.executed := by
          rw [Turn.isSpent] at hspent
          cases hc : t.limit with
          | none => rw [hc] at hspent; cases hspent
          | some c =>
            rw [hc] at hspent
            exact ⟨c, rfl, of_decide_eq_true hspent⟩
        obtain ⟨hexecuted, hle'⟩ := hcount c hc
        obtain ⟨hbudget, hpos⟩ := Fiber.limit_eq_some (hlimit.symm.trans hc)
        have hb : (m'.fiber f).budget = b := by
          rw [habides.role.budget, withBudget, fiber_withFiber_self
            (hinside.size.trans_eq Array.size_modify)]
        omega
  · cases ht

theorem limit_of_mem_turns (hm : m.Attuned) (hdebug : m.debug.debugger = none) (function : Value)
    (arguments : List Value) (ht : t ∈ turns (engine n) n m (.call function arguments)) :
    t.limit = none := by
  have hbusy : Busy m m.currentFiber := by
    by_cases hne : m.currentFiber = mainFiber
    · rw [hne]
      exact ⟨hm.main.1, .inl hm.main.2⟩
    · have hmem := mem_active_current hne
      exact ⟨hm.lt_size hmem, .inr ((hm.running _).2 hmem)⟩
  have hprepared := fiber_prepared hbusy.1
  have hgood : (slack m.currentFiber 0 true true).Good (m.prepared m.currentFiber) := by
    refine ⟨⟨?_, ?_⟩, ?_, fun _ => by rw [hprepared]⟩
    · exact hbusy.1.trans_eq (Array.size_modify.trans (m.size_entered _)).symm
    · rw [hprepared]
      exact hbusy.2
    · exact (congrArg DebugState.debugger (m.debug_entered _)).trans hdebug
  have hE : (slack m.currentFiber 0 false true).Agree (engine n) (engine n) := slack_engine le_rfl
  have halike := (alike_beginCall (f := m.currentFiber) (agree_slack hE)
    (enough_slack (le_refl n)) function arguments _ hgood).parked hgood
  obtain ⟨i, ht⟩ := List.mem_iff_getElem?.1 ht
  rw [turns] at ht
  rcases hrun : beginCall (engine n) m.currentFiber n function arguments
    (m.prepared m.currentFiber) with ⟨s | r, m'⟩ <;> rw [hrun] at ht halike
  · cases ht
  · cases r with
    | done => cases ht
    | yielded => cases ht
    | jump ip =>
      have hlimit : (m'.fiber m.currentFiber).limit = none := by
        rw [halike.1.limit, hprepared]
        simp [Fiber.limit]
      have hafter := Lawful.good hgood halike
      obtain ⟨h, -⟩ := getElem?_trace ⟨hafter.1, hafter.2.1, nofun⟩ n n ip i
        (fun _ _ => Nat.zero_le _) ht
      exact h.trans hlimit

end Turns

/-- The budget of a flow is transparent. Resumptions that come to an end without a budget, or with
any budgets, do so with the same outcomes and effects however they are sliced. A turn that finds the
budget spent, which is positive then, comes after exactly as many turns that were executed. And
nothing is ever suspended in the loop of a host call. -/
theorem budget_transparent {f : FiberId} {m : Machine} (hm : Idle f m) :
    (∀ n rounds, .error .exhausted ∉ (resumeInTurn n f rounds m).1 →
      ∃ N, ∀ n' ≥ N, ∀ rounds' : List (List Nat × List Value),
        rounds'.map Prod.snd = rounds.map Prod.snd → (∀ p ∈ rounds', N ≤ p.1.length) →
        ∃ b, resumeInTurn n' f rounds' m =
          ((resumeInTurn n f rounds m).1, (resumeInTurn n f rounds m).2.withBudget f b)) ∧
    (∀ n budget arguments i t,
      (turns (engine n) n (m.withBudget f budget) (.resume f arguments))[i]? = some t →
        t.isSpent → i = budget ∧ 0 < budget) ∧
    (∀ m' : Machine, m'.Attuned → m'.debug.debugger = none → ∀ n function arguments,
      ∀ t ∈ turns (engine n) n m' (.call function arguments), t.limit = none) := by
  refine ⟨fun n rounds h => ?_, fun n budget arguments i t => eq_of_isSpent hm,
    fun m' hm' hdebug n function arguments t => limit_of_mem_turns hm' hdebug function arguments⟩
  obtain ⟨N, hN⟩ := resumeInTurn_eq hm rounds h
  refine ⟨N, fun n' hn rounds' hsame hlong => ?_⟩
  have hequal := hN n' hn rounds' hsame hlong (m.fiber f).budget
  rw [Machine.withBudget_self rfl] at hequal
  exact hequal

/-- A coroutine that yields once, resumed twice. -/
theorem budget_transparent_yielding :
    let m := Session.Operation.runAll 10 [.create (.closure ⟨0⟩)] Session.yielding
    let free := resumeInTurn 10 ⟨1⟩ [([0], []), ([0], [.nil])] m
    Idle ⟨1⟩ m ∧ .error .exhausted ∉ free.1 ∧
      ∃ N, ∀ n' ≥ N, ∀ budgets budgets' : List Nat, N ≤ budgets.length → N ≤ budgets'.length →
        ∃ b, resumeInTurn n' ⟨1⟩ [(budgets, []), (budgets', [.nil])] m =
          (free.1, free.2.withBudget ⟨1⟩ b) := by
  intro m free
  have hidle : Idle ⟨1⟩ m := ⟨by decide, by decide +kernel, fun _ => by decide +kernel⟩
  have hends : .exhausted ∉ free.1.map Ending.of := by decide +kernel
  have hserved : .error .exhausted ∉ free.1 := fun h => hends (List.mem_map_of_mem h)
  refine ⟨hidle, hserved, ?_⟩
  obtain ⟨N, hN⟩ := (budget_transparent hidle).1 10 _ hserved
  refine ⟨N, fun n' hn budgets budgets' hlong hlong' => hN n' hn _ rfl ?_⟩
  simp only [List.mem_cons, List.not_mem_nil, or_false, forall_eq_or_imp, forall_eq]
  exact ⟨hlong, hlong'⟩

end ScriptMachine
