import ScriptMachine.Proofs.Machine.Agreement
import ScriptMachine.Proofs.Machine.Lifetimes
import ScriptMachine.Proofs.Machine.Slack

namespace ScriptMachine

/-- The budget is spent before a turn, whose instruction is then put off. -/
def Turn.isSpent (t : Turn) : Bool := t.limit.any (· ≤ t.executed)

namespace Exec

section Unlimited

variable (E : Engine) (f : FiberId)

/-- Executes the instruction at an address, whatever the budget is. -/
def turnover (fuel ip : Nat) : Exec Resumption := do
  match ← attempt (step E f fuel none 0 ip) with
  | .ok .next => return .jump (ip + 1)
  | .ok (.transfer r) => return r
  | .error (.fault (.runtime e)) => unwind E f fuel e ip
  | .error s => throw s

def runOn : Nat → Nat → Exec Value
  | 0, _ => throw .exhausted
  | n + 1, ip => do
    match ← turnover E f n ip with
    | .jump target => runOn n target
    | _ => pop f

def driveOn (fuel : Nat) : Resumption → Exec Value
  | .jump ip => runOn E f fuel ip
  | .done | .yielded => pop f

def proceedOn (fuel : Nat) (arguments : List Value) (s : Status) : Exec Value :=
  beginResume E f fuel arguments s >>= driveOn E f fuel

end Unlimited

end Exec

open Exec Machine Likeness

namespace Likeness

variable {c : Likeness} [c.Lawful] {f : FiberId} [c.Carries f] {E E' : Engine} (hE : c.Agree E E')
  {n n' : Nat} (hn : c.Enough n n') (ip : Nat)
include hE hn

theorem alike_turnover : c.AlikeRun (turnover E f n ip) (turnover E' f n' ip) := by
  intro m hm
  refine (alike_step hE hn ip none 0 hm nofun).attempt_follow hm (fun s hs m => ?_)
    (fun hgood => ?_) fun hp => ?_
  · rcases s with (_ | _) | _
    · cases hs
    all_goals rfl
  · rcases (step E f n none 0 ip m).1 with ((e | _) | _) | (_ | _)
    case error.fault.runtime => exact alike_unwind hE hn ip e _ hgood
    case ok.next | ok.transfer => exact AlikeRun.pure _ _ hgood
    all_goals exact AlikeRun.throw _ _ hgood
  · match hr : (step E f n none 0 ip m).1, hp with
    | .ok (.transfer .yielded), _ => exact ⟨⟨Lawful.refl _, fun _ => .inr rfl⟩, rfl⟩

theorem alike_runOn : c.AlikeRun (runOn E f n ip) (runOn E' f n' ip) := by
  induction n generalizing n' ip with
  | zero => exact .exhausted (y := fun n => runOn E' f n ip) hn rfl
  | succ n ih =>
    obtain ⟨n', rfl, hle⟩ := hn.succ
    refine (alike_turnover hE hle ip).follow (fun r => ?_) (fun r hp => ?_) nofun
    · cases r with
      | jump target => exact ih hle target
      | _ => exact .of alike_pop
    · cases r with
      | yielded => exact ⟨alike_pop, fun _ => rfl⟩
      | _ => cases hp

end Likeness

section Rounds

variable {E : Engine} {f : FiberId} {n executed ip : Nat} {limit : Option Nat} {m : Machine}

theorem step_of_unspent (h : limit.any (· ≤ executed) = false) :
    step E f n limit executed ip = step E f n none 0 ip := by
  simp only [step, h, Option.any_none]

theorem round_of_unspent (h : limit.any (· ≤ executed) = false)
    (hkeep : ∀ target m', turnover E f n ip m = (.ok (.jump target), m') →
      (m'.fiber f).limit = limit) :
    Exec.round E f n limit executed ip m = (do
      match ← turnover E f n ip with
      | .jump target => return Round.again limit target
      | _ => return Round.leave) m := by
  have hstep : step E f n limit executed ip = step E f n none 0 ip := step_of_unspent h
  rw [turnover] at hkeep
  rw [Exec.round, hstep, turnover]
  rcases hrun : step E f n none 0 ip m with ⟨s | flow, m'⟩
  · rw [bind_ok (attempt_apply hrun)] at hkeep
    rw [bind_ok (attempt_apply hrun), bind_assoc, bind_ok (attempt_apply hrun)]
    rcases s with (e | _) | _
    · dsimp only at hkeep ⊢
      rw [recover]
      rcases hunwind : unwind E f n e ip m' with ⟨s | r, m''⟩
      · rw [bind_error hunwind, bind_error hunwind]
      · rw [bind_ok hunwind, bind_ok hunwind]
        cases r with
        | jump target =>
          dsimp only
          rw [bind_ok (budget_apply f m''), hkeep target m'' hunwind]
        | done => rfl
        | yielded => rfl
    all_goals rfl
  · rw [bind_ok (attempt_apply hrun), bind_assoc, bind_ok (attempt_apply hrun)]
    rcases flow with _ | (_ | _ | _) <;> rfl

end Rounds

/-- A flow was entered and its code runs, with no debugger around. -/
structure Inside (f : FiberId) (m : Machine) : Prop where
  notMain : f ≠ mainFiber
  size : f.index < m.fibers.size
  status : (m.fiber f).status = .running
  nesting : 0 < (m.fiber f).nesting
  active : m.active.head? = some f
  debugger : m.debug.debugger = none

/-- The loop of a flow is under way. -/
structure Underway (f : FiberId) (m : Machine) : Prop extends Inside f m where
  saved : (m.fiber f).savedIp = none

theorem Abides.limit {f : FiberId} {m m' : Machine} (h : Abides f m m') :
    (m'.fiber f).limit = (m.fiber f).limit := by
  simp only [Fiber.limit, h.role.budget, h.role.canYield, h.role.status]

theorem unspent_limit (b : Fiber) : b.limit.any (· ≤ 0) = false := by
  unfold Fiber.limit
  split
  · exact decide_eq_false (by omega)
  · rfl

theorem Fiber.limit_eq_some {b : Fiber} {c : Nat} (h : b.limit = some c) : c = b.budget ∧ 0 < c := by
  unfold limit at h
  split at h
  case isTrue hlimit =>
    cases h
    exact ⟨rfl, hlimit.1⟩
  case isFalse => cases h

section Underway

variable {f : FiberId} {m m' : Machine} {c n n' k k' executed ip : Nat} {limit : Option Nat}

theorem Inside.abides (hm : Inside f m) (h : Abides f m m') : Inside f m' where
  notMain := hm.notMain
  size := hm.size.trans_le h.size
  status := h.role.status.trans hm.status
  nesting := h.role.nesting.symm ▸ hm.nesting
  active := h.active.symm ▸ hm.active
  debugger := h.debugger hm.debugger

theorem Inside.good {own : Bool} (hm : Inside f m) : (slack f c false own).Good m :=
  ⟨⟨hm.size, .inr hm.status⟩, hm.debugger, nofun⟩

theorem Underway.rel {held own : Bool} (hm : Underway f m) (h : (slack f c held own).Rel m m') :
    Underway f m' := ⟨hm.toInside.abides h.1, h.2.trans hm.saved⟩

theorem refines_turnover (hk : k ≤ k') (hn : n ≤ n') (f : FiberId) (ip : Nat) :
    Refines (turnover (engine k) f n ip) (turnover (engine k') f n' ip) :=
  alike_iff_refines.1 (alike_turnover (agrees_engine hk).agree (enough_of_le hn) ip).alike

theorem refines_runOn (hk : k ≤ k') (hn : n ≤ n') (f : FiberId) (ip : Nat) :
    Refines (runOn (engine k) f n ip) (runOn (engine k') f n' ip) :=
  alike_iff_refines.1 (alike_runOn (agrees_engine hk).agree (enough_of_le hn) ip).alike

/-- A turn that leads to another one leaves the flow as it was but for its stacks. -/
theorem rel_turnover (hm : (slack f 0 false true).Good m) {target : Nat}
    (h : turnover (engine k) f n ip m = (.ok (.jump target), m')) :
    (slack f 0 false true).Rel m m' := by
  have hrun := (alike_turnover (f := f) (slack_engine (le_refl k)) (.inl (Eq.refl n)) ip m hm).1
  rw [h] at hrun
  exact hrun.resolve_right fun hp => by cases hp.1

theorem loop_of_unspent (hm : (slack f 0 false true).Good m)
    (h : (m.fiber f).limit.any (· ≤ executed) = false) (ip : Nat) :
    loop (engine k) f (n + 1) (m.fiber f).limit executed ip m = (do
      match ← turnover (engine k) f n ip with
      | .jump target => loop (engine k) f n (m.fiber f).limit (counted (m.fiber f).limit executed) target
      | _ => pop f) m := by
  rw [loop_succ, bind_apply, round_of_unspent h fun target m' hrun => (rel_turnover hm hrun).1.limit]
  rcases hrun : turnover (engine k) f n ip m with ⟨s | r, m'⟩
  · rw [bind_error hrun, bind_error hrun]
  · rw [bind_ok hrun, bind_ok hrun]
    cases r <;> rfl

theorem step_of_spent (hm : m.debug.debugger = none) (h : limit.any (· ≤ executed))
    {i : Instruction} (hi : m.code.get? ip = some i) (E : Engine) :
    step E f n limit executed ip m = suspendAt f ip m := by
  have hread : read (fun m => m.code.get? ip) m = (.ok (some i), m) :=
    congrArg (fun i => (Except.ok i, m)) hi
  have henabled : read (fun m => m.debug.enabled) m = (.ok m.debug.enabled, m) := rfl
  rw [step, bind_ok hread]
  dsimp only
  rw [bind_ok henabled, if_pos h]
  split
  · rw [bind_ok (listen_of_none hm ip i.location false)]
  · rfl

theorem step_of_none (hi : m.code.get? ip = none) (E : Engine) (limit : Option Nat) (executed : Nat) :
    step E f n limit executed ip m =
      (internal ("instruction pointer " ++ toString ip ++ " out of range") : Exec Flow) m := by
  have hread : read (fun m => m.code.get? ip) m = (.ok none, m) :=
    congrArg (fun i => (Except.ok i, m)) hi
  rw [step, bind_ok hread]

/-- A loop whose budget is spent ends at once, if there is an instruction to suspend it at. -/
theorem loop_of_spent (hm : Inside f m) (h : limit.any (· ≤ executed))
    {i : Instruction} (hi : m.code.get? ip = some i) (E : Engine) :
    loop E f (n + 1) limit executed ip m =
      (.ok (.yieldRequest [] true), m.withFiber f fun b => { b with savedIp := some ip }) := by
  have hsuspend : suspendAt f ip m = (.ok (.transfer .yielded), m.withFiber f fun b =>
      { b with savedIp := some ip, values := b.values.push (.yieldRequest [] true) }) :=
    congrArg (fun m => (Except.ok (Flow.transfer .yielded), m)) (m.withFiber_withFiber f _ _)
  rw [loop_succ, bind_ok (round_of_ok ((step_of_spent hm.debugger h hi E).trans hsuspend))]
  have hback : (fiber (m.withFiber f fun b => { b with
      savedIp := some ip, values := b.values.push (.yieldRequest [] true) }) f).values.back? =
        some (.yieldRequest [] true) := by
    rw [fiber_withFiber_self hm.size]
    exact Array.back?_push
  have hpop := pop_apply hback
  rw [withFiber_withFiber] at hpop
  refine hpop.trans (congrArg (fun u => (Except.ok _, m.withFiber f u)) (funext fun b => ?_))
  exact congrArg (fun values => { b with savedIp := some ip, values }) Array.pop_push

/-- A loop goes on as if there were no budget, or it is suspended on the way. Then it would have
come to the same place without a budget. -/
theorem loop_cases (hm : Underway f m) (k n executed ip : Nat) :
    loop (engine k) f n (m.fiber f).limit executed ip m = runOn (engine k) f n ip m ∨
    (m.fiber f).limit ≠ none ∧ ∃ d ip' m', d ≤ n ∧ ((m.fiber f).limit.any (· ≤ executed) = false → 0 < d) ∧ Underway f m' ∧
      Abides f m m' ∧ loop (engine k) f n (m.fiber f).limit executed ip m =
        (.ok (.yieldRequest [] true), m'.withFiber f fun b => { b with savedIp := some ip' }) ∧
      ∀ k' n', k ≤ k' → n ≤ n' → runOn (engine k') f n' ip m = runOn (engine k') f (n' - d) ip' m' := by
  induction n generalizing m executed ip with
  | zero => exact .inl rfl
  | succ n ih =>
    by_cases hspent : (m.fiber f).limit.any (· ≤ executed)
    · cases hi : m.code.get? ip with
      | some i =>
        refine .inr ⟨fun h => ?_, 0, ip, m, Nat.zero_le _, fun h => ?_, hm, .refl f m,
          loop_of_spent hm.toInside hspent hi _, fun _ _ _ _ => rfl⟩
        · rw [h] at hspent
          cases hspent
        · rw [hspent] at h
          cases h
      | none =>
        left
        rw [loop_succ, bind_error (round_of_error (step_of_none hi _ _ _) rfl), runOn]
        refine (bind_error ?_).symm
        rw [turnover, bind_ok (attempt_apply (step_of_none hi _ _ _))]
        rfl
    · rw [Bool.not_eq_true] at hspent
      rw [loop_of_unspent hm.toInside.good hspent, runOn]
      rcases hrun : turnover (engine k) f n ip m with ⟨s | r, m'⟩
      · rw [bind_error hrun, bind_error hrun]
        exact .inl rfl
      · rw [bind_ok hrun, bind_ok hrun]
        cases r with
        | done => exact .inl rfl
        | yielded => exact .inl rfl
        | jump target =>
          have hrel := rel_turnover hm.toInside.good hrun
          have hcases := ih (hm.rel hrel) (counted (m.fiber f).limit executed) target
          rw [hrel.1.limit] at hcases
          refine hcases.imp id fun ⟨hlimit, d, ip', m'', hd, _, hunder, habides, hloop, hrest⟩ => ?_
          refine ⟨hlimit, d + 1, ip', m'', by omega, fun _ => by omega, hunder, hrel.1.trans habides, hloop,
            fun k' n' hk hn => ?_⟩
          obtain ⟨n', rfl⟩ := Nat.exists_eq_add_of_le' (Nat.one_le_of_lt hn)
          have hturn : turnover (engine k') f n' ip m = (.ok (.jump target), m') := by
            have hrefines := refines_turnover hk (Nat.le_of_succ_le_succ hn) f ip m
            rw [hrun] at hrefines
            exact hrefines nofun
          rw [runOn, bind_ok hturn, Nat.add_sub_add_right]
          exact hrest k' n' hk (by omega)

/-- The turns of a loop all have its limit. Under a limit they are counted, and one that finds it
spent is the last. -/
theorem getElem?_trace (hm : (slack f 0 false true).Good m) (k n ip i : Nat) {t : Turn}
    (hle : ∀ b ∈ (m.fiber f).limit, executed ≤ b)
    (ht : (trace (engine k) f n (m.fiber f).limit executed ip m)[i]? = some t) :
    t.limit = (m.fiber f).limit ∧ ∀ b ∈ t.limit, t.executed = executed + i ∧ t.executed ≤ b := by
  induction n generalizing m executed ip i with
  | zero => cases ht
  | succ n ih =>
    rw [trace] at ht
    obtain _ | i := i
    · cases ht
      exact ⟨rfl, fun b hb => ⟨rfl, hle b hb⟩⟩
    rw [List.getElem?_cons_succ] at ht
    by_cases hspent : (m.fiber f).limit.any (· ≤ executed)
    · cases hi : m.code.get? ip with
      | none =>
        rw [round_of_error (step_of_none hi _ _ _) rfl] at ht
        cases ht
      | some instruction =>
        rw [round_of_ok (step_of_spent hm.2.1 hspent hi _)] at ht
        cases ht
    · rw [Bool.not_eq_true] at hspent
      rw [round_of_unspent hspent fun target m' hrun => (rel_turnover hm hrun).1.limit] at ht
      rcases hrun : turnover (engine k) f n ip m with ⟨s | r, m'⟩
      · rw [bind_error hrun] at ht
        cases ht
      · rw [bind_ok hrun] at ht
        cases r with
        | done => cases ht
        | yielded => cases ht
        | jump target =>
          have hrel := rel_turnover hm hrun
          have hcounted : ∀ b ∈ (m'.fiber f).limit,
              counted (m.fiber f).limit executed = executed + 1 ∧ executed + 1 ≤ b := by
            intro b hb
            rw [hrel.1.limit] at hb
            rw [hb, Option.any_some, decide_eq_false_iff_not] at hspent
            exact ⟨by rw [hb]; rfl, by omega⟩
          rw [← hrel.1.limit] at ht
          obtain ⟨hlimit, hcount⟩ := ih (Lawful.good_rel hm hrel) target i
            (fun b hb => (hrel.1.limit ▸ (hcounted b hb).1).trans_le (hcounted b hb).2) ht
          refine ⟨hlimit.trans hrel.1.limit, fun b hb => ⟨?_, (hcount b hb).2⟩⟩
          rw [(hcount b hb).1, hrel.1.limit, (hcounted b (hlimit ▸ hb)).1]
          omega

end Underway

section Proceeding

variable {f : FiberId} {m m' : Machine} {c n n' k k' : Nat} {status : Status}

theorem Inside.begun (hne : f ≠ Machine.mainFiber) (hf : f.index < m.fibers.size)
    (hdebug : m.debug.debugger = none) : Inside f (m.begun f) := by
  have hsize : f.index < (m.entered f).fibers.size := (m.size_entered f).symm ▸ hf
  have hfiber : (m.begun f).fiber f = { m.fiber f with
      nesting := (m.fiber f).nesting + 1, status := .running } := by
    rw [Machine.begun, Machine.fiber_withFiber_self hsize, Machine.fiber_entered,
      Machine.fiber_withFiber_self hf]
  refine ⟨hne, hsize.trans_eq Array.size_modify.symm, by rw [hfiber], ?_, ?_, ?_⟩
  · rw [hfiber]
    exact Nat.succ_pos _
  · rw [Machine.active_begun hne]
    rfl
  · exact (congrArg DebugState.debugger (m.debug_entered f)).trans hdebug

theorem beginResume_begins (hm : Inside f m)
    (hfresh : status = .notStarted → (m.fiber f).savedIp = none) (hk : k ≤ k') (hn : n ≤ n')
    (arguments : List Value) :
    (slack f c false true).SameAt m (beginResume (engine k) f n arguments status)
      (beginResume (engine k') f n' arguments status) ∧
    Abides f m (beginResume (engine k) f n arguments status m).2 ∧
    ∀ ip m', beginResume (engine k) f n arguments status m = (.ok (.jump ip), m') →
      Underway f m' := by
  have hset (u : Fiber → Fiber) (hu : ∀ b budget, u { b with budget } = { u b with budget })
      (hrole : ∀ b, SameRole b (u b)) (hsaved : ∀ b, (u b).savedIp = none)
      (happly : ∀ E n m, beginResume E f n arguments status m =
        (.ok (.after (m.fiber f).savedIp), m.withFiber f u)) :
      (slack f c false true).SameAt m (beginResume (engine k) f n arguments status)
        (beginResume (engine k') f n' arguments status) ∧
      Abides f m (beginResume (engine k) f n arguments status m).2 ∧
      ∀ ip m', beginResume (engine k) f n arguments status m = (.ok (.jump ip), m') →
        Underway f m' := by
    have hself : (m.withFiber f u).fiber f = u (m.fiber f) := fiber_withFiber_self hm.size
    have habides : Abides f m (m.withFiber f u) := .withFiber (hself ▸ hrole _)
    obtain ⟨budget', hfiber⟩ := Lawful.fiber (c := slack f c false true) m f
    rw [SameAt, happly, happly, hfiber, of_withFiber hu]
    refine ⟨.inr rfl, habides, fun ip m' hrun => ?_⟩
    obtain ⟨-, rfl⟩ := Prod.mk.inj hrun
    exact ⟨hm.abides habides, by rw [hself, hsaved]⟩
  cases status with
  | notStarted =>
    have halike : (slack f c false true).AlikeRunAt m
        (beginResume (engine k) f n arguments .notStarted)
        (beginResume (engine k') f n' arguments .notStarted) :=
      AlikeRun.bind (alike_pushAll _) (fun _ => alike_performCall
        (slack_engine hk) (enough_slack hn) _ _) m hm.good
    refine ⟨halike.2 id, ?_, fun ip m' hrun => ?_⟩
    · rcases halike.1 with h | h
      · exact h.1
      · exact h.2.2.1
    · have hrel := halike.1
      rw [hrun] at hrel
      exact Underway.rel ⟨hm, hfresh rfl⟩ (hrel.resolve_right fun h => by cases h.1)
  | suspended =>
    refine hset (fun b => { b with values := b.values.push (.tuple arguments), savedIp := none })
      (fun _ _ => rfl) (fun _ => .stacks ..) (fun _ => rfl) fun E n m => ?_
    have hsaved : ((m.withFiber f fun b => { b with
        values := b.values.push (.tuple arguments) }).fiber f).savedIp = (m.fiber f).savedIp :=
      fiber_withFiber_of (v := Fiber.savedIp) rfl _
    rw [beginResume, push, bind_ok (modifyFiber_apply _ _ _), takeSaved,
      bind_ok (readFiber_apply _ _ _), hsaved, bind_ok (modifyFiber_apply _ _ _),
      withFiber_withFiber]
    rfl
  | _ =>
    exact hset (fun b => { b with savedIp := none }) (fun _ _ => rfl)
      (fun _ => .stacks ..) (fun _ => rfl) fun _ _ _ => rfl

variable (hm : Inside f m) (hfresh : status = .notStarted → (m.fiber f).savedIp = none)
include hm hfresh

theorem proceedOn_same (hk : k ≤ k') (hn : n ≤ n') (arguments : List Value) :
    (slack f c false true).SameAt m (proceedOn (engine k) f n arguments status)
      (proceedOn (engine k') f n' arguments status) ∧
    Abides f m (proceedOn (engine k) f n arguments status m).2 := by
  obtain ⟨hsame, habides, hunder⟩ := beginResume_begins (c := c) hm hfresh hk hn arguments
  have hrest (r : Resumption) (m' : Machine)
      (hrun : beginResume (engine k) f n arguments status m = (.ok r, m')) :
      (slack f c false true).AlikeRunAt m' (driveOn (engine k) f n r)
        (driveOn (engine k') f n' r) := by
    rw [hrun] at habides
    have hgood : (slack f c false true).Good m' := (hm.abides habides).good
    cases r with
    | jump ip => exact alike_runOn (slack_engine hk) (enough_slack hn) ip m' hgood
    | _ => exact (alike_pop m' hgood).run
  refine ⟨hsame.bind fun r m' hrun => (hrest r m' hrun).2 id, ?_⟩
  rw [proceedOn]
  rcases hrun : beginResume (engine k) f n arguments status m with ⟨s | r, m'⟩ <;>
    rw [hrun] at habides
  · rw [bind_error hrun]
    exact habides
  · rw [bind_ok hrun]
    rcases (hrest r m' hrun).1 with h | h
    · exact habides.trans h.1
    · exact habides.trans h.2.2.1

/-- What a flow was set to do is done as if there were no budget, or it is suspended on the way,
after at least one turn. -/
theorem proceed_cases (k n : Nat) (arguments : List Value) :
    proceed (engine k) f n arguments status m = proceedOn (engine k) f n arguments status m ∨
    (m.fiber f).budget ≠ 0 ∧ ∃ d ip m', 0 < d ∧ d ≤ n ∧ Underway f m' ∧ Abides f m m' ∧
      proceed (engine k) f n arguments status m =
        (.ok (.yieldRequest [] true), m'.withFiber f fun b => { b with savedIp := some ip }) ∧
      ∀ k' n', k ≤ k' → n ≤ n' →
        proceedOn (engine k') f n' arguments status m = runOn (engine k') f (n' - d) ip m' := by
  obtain ⟨-, habides, hunder⟩ := beginResume_begins (c := 0) hm hfresh (le_refl k) (le_refl n) arguments
  rw [proceed, proceedOn]
  rcases hrun : beginResume (engine k) f n arguments status m with ⟨s | r, m'⟩ <;>
    rw [hrun] at habides
  · rw [bind_error hrun, bind_error hrun]
    exact .inl rfl
  · rw [bind_ok hrun, bind_ok hrun]
    cases r with
    | done => exact .inl rfl
    | yielded => exact .inl rfl
    | jump ip =>
      rw [drive, driveOn, runFrom, bind_ok (budget_apply f m')]
      refine (loop_cases (hunder ip m' hrun) k n 0 ip).imp id fun hcut => ?_
      obtain ⟨hlimit, d, ip', m'', hd, hpos, hm'', habides', hloop, hrest⟩ := hcut
      rw [habides.limit] at hlimit
      refine ⟨fun h => hlimit (by rw [Fiber.limit, h]; rfl), d, ip', m'', hpos (unspent_limit _), hd, hm'', habides.trans habides', hloop,
        fun k' n' hk hn => ?_⟩
      have hbegin : beginResume (engine k') f n' arguments status m = (.ok (.jump ip), m') := by
        have hrefines := alike_iff_refines.1 (alike_beginResume (agrees_engine hk).agree
          (enough_of_le hn) (f := f) arguments status) m
        rw [hrun] at hrefines
        exact hrefines (by simp)
      rw [proceedOn, bind_ok hbegin]
      exact hrest k' n' hk hn

theorem proceed_of_unlimited (h : (m.fiber f).budget = 0) (k n : Nat) (arguments : List Value) :
    proceed (engine k) f n arguments status m = proceedOn (engine k) f n arguments status m :=
  (proceed_cases hm hfresh k n arguments).resolve_right fun hcut => hcut.1 h

end Proceeding

end ScriptMachine
