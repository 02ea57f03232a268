import ScriptMachine.Proofs.Machine.Unwinding

namespace ScriptMachine

variable {executed ip : Nat} {s : Stop}

/-- What a round of the instruction loop leads to. -/
inductive Round where
  | again (limit : Option Nat) (ip : Nat)
  | leave

/-- How the instruction loop stands before a round. -/
structure Turn where
  fuel : Nat
  limit : Option Nat
  executed : Nat
  ip : Nat
  machine : Machine

/-- Where the loop goes on after an instruction. -/
def Round.following (limit : Option Nat) (ip : Nat) : Flow → Round
  | .next => again limit (ip + 1)
  | .transfer (.jump target) => again limit target
  | .transfer _ => leave

/-- Whether scripts can catch what ended a run. -/
def Stop.isCatchable : Stop → Bool
  | fault (.runtime _) => true
  | _ => false

theorem Stop.eq_runtime (h : s.isCatchable) : ∃ e, s = .fault (.runtime e) := by
  match s with
  | .fault (.runtime e) => exact ⟨e, rfl⟩

/-- How an operation ends, its value or the text of its error left out. -/
inductive Ending where
  | value
  | runtime
  | internal
  | otherFault
  | crash
  | exhausted
deriving DecidableEq

namespace Ending

variable {α : Type} {r : Except Stop α}

def of : Except Stop α → Ending
  | .ok _ => value
  | .error (.fault (.runtime _)) => runtime
  | .error (.fault (.internal _)) => internal
  | .error (.fault _) => otherFault
  | .error .crash => crash
  | .error .exhausted => exhausted

theorem exists_runtime (h : of r = runtime) : ∃ e, r = .error (.fault (.runtime e)) := by
  rcases r with ((_ | _) | _ | _) | _ <;> cases h
  exact ⟨_, rfl⟩

theorem exists_internal (h : of r = internal) : ∃ text, r = .error (.fault (.internal text)) := by
  rcases r with ((_ | _) | _ | _) | _ <;> cases h
  exact ⟨_, rfl⟩

theorem eq_crash (h : of r = crash) : r = .error .crash := by
  rcases r with ((_ | _) | _ | _) | _ <;> cases h
  rfl

end Ending

theorem Exec.rephrased_of_not_isCatchable (h : s.isCatchable = false) (e : RuntimeError) :
    rephrased e (.error s) = throw s := by
  rcases s with fault | _ | _
  · cases fault with
    | runtime => cases h
    | internal | invalidOperation | invalidArgument | chunk | configuration => rfl
  all_goals rfl

def Fiber.limit (b : Fiber) : Option Nat :=
  if 0 < b.budget ∧ b.canYield ∧ b.status ≠ .main then some b.budget else none

theorem Fiber.canYield_of_limit {b : Fiber} (h : b.limit.isSome) : b.canYield := by
  unfold limit at h
  split at h
  case isTrue hlimit => exact hlimit.2.1
  case isFalse => cases h

namespace Exec

variable {α : Type}

theorem budget_apply (f : FiberId) (m : Machine) : budget f m = (.ok (m.fiber f).limit, m) := rfl

variable (E : Engine) (f : FiberId)

/-- How the loop goes on after an error that scripts can catch. -/
def recover (fuel : Nat) (e : RuntimeError) (ip : Nat) : Exec Round := do
  match ← unwind E f fuel e ip with
  | .jump target => return .again (← budget f) target
  | _ => return .leave

def round (fuel : Nat) (limit : Option Nat) (executed ip : Nat) : Exec Round := do
  match ← attempt (step E f fuel limit executed ip) with
  | .ok flow => return .following limit ip flow
  | .error (.fault (.runtime e)) => recover E f fuel e ip
  | .error s => throw s

def counted (limit : Option Nat) (executed : Nat) : Nat :=
  if limit.isSome then executed + 1 else executed

/-- The turns that a run of the loop consists of. -/
def trace : Nat → Option Nat → Nat → Nat → Machine → List Turn
  | 0, _, _, _, _ => []
  | n + 1, limit, executed, ip, m =>
    ⟨n, limit, executed, ip, m⟩ :: match round E f n limit executed ip m with
      | (.ok (.again limit' ip'), m) => trace n limit' (counted limit executed) ip' m
      | _ => []

theorem ensuring_apply {after : Exec Unit} {g : Machine → Machine}
    (hafter : ∀ m, after m = (.ok (), g m)) (x : Exec α) (m : Machine) :
    ensuring x after m = ((x m).1, g (x m).2) := by
  rcases hx : x m with ⟨r, m'⟩
  have hattempt : attempt x m = (.ok r, m') := by rw [attempt, hx]
  rw [ensuring, bind_ok hattempt, bind_ok (hafter m')]
  cases r <;> rfl

section

variable {E f} {fuel n : Nat} {limit : Option Nat} {executed ip : Nat} {m m' : Machine}

theorem attempt_apply {x : Exec α} {r : Except Stop α} (h : x m = (r, m')) :
    attempt x m = (.ok r, m') := by
  rw [attempt, h]

theorem round_of_ok {flow : Flow} (h : step E f fuel limit executed ip m = (.ok flow, m')) :
    round E f fuel limit executed ip m = (.ok (.following limit ip flow), m') := by
  rw [round, bind_ok (attempt_apply h)]
  rfl

theorem round_of_runtime {e : RuntimeError}
    (h : step E f fuel limit executed ip m = (.error (.fault (.runtime e)), m')) :
    round E f fuel limit executed ip m = recover E f fuel e ip m' := by
  rw [round, bind_ok (attempt_apply h)]

theorem round_of_error (h : step E f fuel limit executed ip m = (.error s, m'))
    (hs : s.isCatchable = false) : round E f fuel limit executed ip m = (.error s, m') := by
  rw [round, bind_ok (attempt_apply h)]
  rcases s with (_ | _) | _
  · cases hs
  all_goals rfl

theorem loop_succ : loop E f (n + 1) limit executed ip = (do
      match ← round E f n limit executed ip with
      | .again limit' ip' => loop E f n limit' (counted limit executed) ip'
      | .leave => pop f) := by
  funext m
  rw [loop]
  dsimp only
  rcases hstep : step E f n limit executed ip m with ⟨s | flow, m'⟩
  · rcases s with (e | _) | _
    · rw [bind_apply, round_of_runtime hstep, recover]
      dsimp only
      rcases hunwind : unwind E f n e ip m' with ⟨s | r, m''⟩
      · rw [bind_error hunwind]
      · rw [bind_ok hunwind]
        cases r <;> rfl
    all_goals rw [bind_error (round_of_error hstep rfl)]
  · rw [bind_ok (round_of_ok hstep)]
    rcases flow with _ | r
    · rfl
    · cases r <;> rfl

theorem round_again {limit' : Option Nat} {ip' : Nat}
    (h : round E f n limit executed ip m = (.ok (.again limit' ip'), m')) :
    limit' = limit ∨ limit' = (m'.fiber f).limit := by
  rcases hstep : step E f n limit executed ip m with ⟨s | flow, m₁⟩
  · by_cases hs : s.isCatchable
    · match s with
      | .fault (.runtime e) =>
        rw [round_of_runtime hstep, recover] at h
        rcases hunwind : unwind E f n e ip m₁ with ⟨s | r, m₂⟩
        · rw [bind_error hunwind] at h
          cases h
        · rw [bind_ok hunwind] at h
          cases r with
          | jump target =>
            cases h
            exact .inr rfl
          | done => cases h
          | yielded => cases h
    · rw [round_of_error hstep (by simpa using hs)] at h
      cases h
  · rw [round_of_ok hstep] at h
    obtain ⟨hr, rfl⟩ := Prod.mk.inj h
    match flow with
    | .next =>
      cases hr
      exact .inl rfl
    | .transfer (.jump _) =>
      cases hr
      exact .inl rfl

end

end Exec

def Turn.onward (t : Turn) (f : FiberId) (E : Engine) : Exec Value :=
  Exec.loop E f (t.fuel + 1) t.limit t.executed t.ip

/-- A loop ends as it does from any of its turns on. -/
theorem Exec.loop_of_mem_trace {E : Engine} {f : FiberId} {n : Nat} {limit : Option Nat}
    {m : Machine} {t : Turn} (ht : t ∈ trace E f n limit executed ip m) :
    loop E f n limit executed ip m = t.onward f E t.machine := by
  induction n generalizing limit executed ip m with
  | zero => cases ht
  | succ n ih =>
    rw [trace, List.mem_cons] at ht
    rcases ht with rfl | ht
    · rfl
    · rw [loop_succ]
      rcases hrun : Exec.round E f n limit executed ip m with ⟨s | r, m'⟩ <;> rw [hrun] at ht
      · cases ht
      · cases r with
        | again limit' ip' =>
          rw [bind_ok hrun]
          exact ih ht
        | leave => cases ht

namespace Footing

open Exec

variable {g : Footing} {own : List Frame} {P : Array Value → Prop} {m : Machine} {E : Engine}
  {frame : Frame}

/-- What an instruction does on top of some frames, if it takes no more than its share of the
values. -/
theorem step_catches {Q : Resumption → Machine → Prop} (hQ : g.Catches Q) (hE : Quiet E)
    (fuel : Nat) {limit : Option Nat} (hlimit : limit.any (· ≤ executed) = false)
    (hm : g.Sits (frame :: own) P m) (hscript : frame.native = none) (hlow : g.Low (frame :: own))
    (hfits : g.valued → ∀ i, m.code.get? ip = some i →
      frame.base + i.demand ≤ (m.fiber g.fiber).values.size) :
    Triple (· = m) (step E g.fiber fuel limit executed ip) (g.FlowsTo Q) (fun _ => g.Holds) := by
  obtain ⟨bottom, hbottom, hcalls⟩ := hm.calls
  refine Triple.bind (Q := fun i? m' => i? = m.code.get? ip ∧ m' = m)
    (.read fun m' h => h ▸ ⟨rfl, rfl⟩) fun i? => .given fun hi => ?_
  cases i? with
  | none => exact .throw fun m' h => h ▸ hm.holds
  | some i =>
    have hx := exits_scene hQ hE fuel hm hbottom hscript hlow
    have hexecute : Triple ((g.scene m frame (own ++ bottom)).At i.demand) (do
        if ← read fun m => m.debug.enabled then listen g.fiber ip i.location false
        if limit.any (· ≤ executed) then suspendAt g.fiber ip
        else execute E g.fiber fuel ip i) (g.FlowsTo Q) (fun _ => g.Holds) := by
      have hlisten : (g.scene m frame (own ++ bottom)).Uses i.demand i.demand
          (listen g.fiber ip i.location false) := .aside (observes_listen _ _ _ _).aside
      refine hx.bind (.read _) fun _ => .first (hlisten.failing hx.fail)
        fun _ => .ite (fun h => absurd (h.symm.trans hlimit) nofun) fun _ => ?_
      exact Scene.ends_execute hx hE ip i fun _ =>
        performReturn_catches hQ hE fuel ip i hm hbottom hscript hlow
    exact hexecute.before fun m' h => h ▸ hm.at_scene hcalls fun hv => hfits hv i hi.symm

end Footing

end ScriptMachine
