import ScriptMachine.Proofs.Machine.LikeServing

namespace ScriptMachine

namespace Exec

/-- A run depends on the answer to a request in a machine: with an engine that differs from the
given one only there it ends in another way. -/
def Asks {α : Type} (x : Engine → Exec α) (E : Engine) (m : Machine) (request : Request)
    (m' : Machine) : Prop :=
  ∃ E' : Engine, (∀ r s, E' r s ≠ E r s → r = request ∧ s = m') ∧ x E' m ≠ x E m

/-- The requests that come up in a run, at any depth, with the machine as they find it. -/
inductive Reached {α : Type} (n : Nat) (x : Engine → Exec α) (m : Machine) :
    Nat → Request → Machine → Prop
  | outer {r m'} (h : Asks x (engine n) m r m') : Reached n x m n r m'
  | nested {k r m' r' m''} (hr : Reached n x m (k + 1) r m')
      (h : Asks (serve · k r) (engine k) m' r' m'') : Reached n x m k r' m''

/-- The turns of the loop that starts where a call or a resumption leads to, if one does. -/
def drivenTurns (E : Engine) (f : FiberId) (fuel : Nat) : Except Stop Resumption × Machine → List Turn
  | (.ok (.jump ip), m) => trace E f fuel (m.fiber f).limit 0 ip m
  | _ => []

/-- The turns of the loop that serves a request. -/
def turns (E : Engine) (fuel : Nat) (m : Machine) : Request → List Turn
  | .call function arguments =>
    drivenTurns E m.currentFiber fuel
      (beginCall E m.currentFiber fuel function arguments (m.prepared m.currentFiber))
  | .resume f arguments =>
    let s := (m.fiber f).status
    if s.isResumable && s.accepts arguments then
      drivenTurns E f fuel (beginResume E f fuel arguments s (m.begun f))
    else []
  | _ => []

theorem turns_cases (E : Engine) (n : Nat) (m : Machine) (r : Request) : turns E n m r = [] ∨
    (∃ function arguments, r = .call function arguments) ∨
    ∃ f arguments, r = .resume f arguments ∧ (m.fiber f).status.isResumable ∧
      (m.fiber f).status.accepts arguments ∧ turns E n m r =
        drivenTurns E f n (beginResume E f n arguments (m.fiber f).status (m.begun f)) := by
  cases r with
  | call function arguments => exact .inr (.inl ⟨_, _, rfl⟩)
  | resume f arguments =>
    unfold turns
    dsimp only
    split
    · rename_i hf
      rw [Bool.and_eq_true] at hf
      exact .inr (.inr ⟨f, arguments, rfl, hf.1, hf.2, rfl⟩)
    · exact .inl rfl
  | _ => exact .inl rfl

/-- The machines in which user code comes to run: an instruction, or a function that serves a
request, which native functions, finalizers and handlers do. -/
inductive UserCode {α : Type} (n : Nat) (x : Engine → Exec α) (m : Machine) : Machine → Prop
  | request {k r m'} (h : Reached n x m k r m') : UserCode n x m m'
  | turn {k r m' t} (h : Reached n x m (k + 1) r m') (ht : t ∈ turns (engine k) k m' r) :
      UserCode n x m t.machine

end Exec

open Exec

namespace Likeness

/-- Requests come up only in machines of which holds what holds on the way. -/
theorem good_of_asks {α : Type} {c : Likeness} (hsame : ∀ m, c.of m = m) (hstrict : ∀ s m, ¬ c.lax s m)
    {x : Engine → Exec α} {E : Engine} {m m' : Machine} {r : Request} (hE : c.Agree E E)
    (hx : ∀ E', c.Agree E E' → c.AlikeAt m (x E) (x E')) (hover : ¬ c.Over (x E m).2)
    (h : Asks x E m r m') : c.Good m' := by
  obtain ⟨E', honly, hne⟩ := h
  -- Elsewhere the two engines are the same, so the run has to come to the request.
  by_contra hbad
  have hagree : c.Agree E E' := by
    refine fun r' s hs => ⟨(hE r' s hs).1, fun _ => .inr ?_⟩
    rw [hsame, hsame]
    by_contra hdiff
    exact hbad ((honly r' s hdiff).2 ▸ hs)
  rcases (hx E' hagree).2 hover with ⟨s, _, hlax⟩ | hEq
  · exact hstrict _ _ hlax
  · rw [hsame, hsame] at hEq
    exact hne hEq

variable {c : Likeness} [c.Lawful] [c.Frees] {f : FiberId} [c.Hosts f] {m : Machine} {E : Engine}
  {n : Nat} (hE : c.Agree E E) (hm : c.Good m)

section

variable {limit : Option Nat} {executed ip : Nat} (hlimit : limit.isSome → c.Yields m)
include hE hm hlimit

theorem rel_of_again {limit' : Option Nat} {ip' : Nat} {m' : Machine}
    (hrun : Exec.round E f n limit executed ip m = (.ok (.again limit' ip'), m')) :
    c.Rel m m' ∧ (limit'.isSome → c.Yields m') := by
  have hrel := ((alike_round (f := f) hE (.inl (rfl : n = n)) ip limit executed hm hlimit).alikeAt
    fun _ _ => Frees.rel).1
  rw [hrun] at hrel
  refine ⟨hrel, fun hsome => ?_⟩
  rcases round_again hrun with rfl | rfl
  · exact (Lawful.yields hm hrel).2 (hlimit hsome)
  · exact Carries.canYield (Lawful.good_rel hm hrel) (Fiber.canYield_of_limit hsome)

/-- The turns of a loop come one after the other, between its start and its end. -/
theorem rel_of_mem_trace {t : Turn} (ht : t ∈ trace E f n limit executed ip m) :
    c.Rel m t.machine ∧ c.Rel t.machine (loop E f n limit executed ip m).2 := by
  induction n generalizing limit executed ip m with
  | zero => cases ht
  | succ n ih =>
    rw [trace, List.mem_cons] at ht
    rcases ht with rfl | ht
    · exact ⟨Lawful.refl m, ((alike_loop (f := f) hE (.inl (rfl : n + 1 = n + 1)) ip limit executed
        hm hlimit).alikeAt fun _ _ => Frees.rel).1⟩
    · rw [loop_succ]
      rcases hrun : Exec.round E f n limit executed ip m with ⟨s | r, m'⟩ <;> rw [hrun] at ht
      · cases ht
      · cases r with
        | again limit' ip' =>
          obtain ⟨hrel, hlimit'⟩ := rel_of_again hE hm hlimit hrun
          obtain ⟨hbefore, hafter⟩ := ih (Lawful.good_rel hm hrel) hlimit' ht
          rw [bind_ok hrun]
          exact ⟨Lawful.trans hrel hbefore, hafter⟩
        | leave => cases ht

theorem pairwise_trace :
    (trace E f n limit executed ip m).Pairwise fun t t' => c.Rel t.machine t'.machine := by
  induction n generalizing limit executed ip m with
  | zero => exact .nil
  | succ n ih =>
    rw [trace, List.pairwise_cons]
    rcases hrun : Exec.round E f n limit executed ip m with ⟨s | r, m'⟩
    · exact ⟨List.forall_mem_nil _, .nil⟩
    · cases r with
      | again limit' ip' =>
        obtain ⟨hrel, hlimit'⟩ := rel_of_again hE hm hlimit hrun
        have hgood := Lawful.good_rel hm hrel
        exact ⟨fun t ht => Lawful.trans hrel (rel_of_mem_trace hE hgood hlimit' ht).1,
          ih hgood hlimit'⟩
      | leave => exact ⟨List.forall_mem_nil _, .nil⟩

end

include hE hm

variable {x : Exec Resumption} (hx : c.Alike x x)
include hx

theorem pairwise_drivenTurns :
    (drivenTurns E f n (x m)).Pairwise fun t t' => c.Rel t.machine t'.machine := by
  have hrel := (hx m hm).1
  rcases hrun : x m with ⟨s | r, m'⟩ <;> rw [hrun] at hrel
  · exact .nil
  · cases r with
    | jump ip =>
      have hgood := Lawful.good_rel hm hrel
      exact pairwise_trace hE hgood fun h => Carries.canYield hgood (Fiber.canYield_of_limit h)
    | done => exact .nil
    | yielded => exact .nil

theorem rel_of_mem_drivenTurns {t : Turn} (ht : t ∈ drivenTurns E f n (x m)) :
    c.Rel m t.machine ∧ c.Rel t.machine ((x >>= drive E f n) m).2 := by
  have hrel := (hx m hm).1
  rcases hrun : x m with ⟨s | r, m'⟩ <;> rw [hrun] at ht hrel
  · cases ht
  · cases r with
    | jump ip =>
      have hgood := Lawful.good_rel hm hrel
      obtain ⟨hbefore, hafter⟩ := rel_of_mem_trace hE hgood
        (fun h => Carries.canYield hgood (Fiber.canYield_of_limit h)) ht
      rw [bind_ok hrun, drive, runFrom, bind_ok (budget_apply f m')]
      exact ⟨Lawful.trans hrel hbefore, hafter⟩
    | done => cases ht
    | yielded => cases ht

end Likeness

end ScriptMachine
