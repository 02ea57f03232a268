import ScriptMachine.Proofs.Machine.LikeServing

namespace ScriptMachine

open Exec Likeness

/-- Unless the first operation runs out of steps, the second one does the same. -/
def Exec.Refines {α : Type} (x y : Exec α) : Prop := ∀ m, (x m).1 ≠ .error .exhausted → y m = x m

/-- Unless the first engine runs out of steps, the second one gives the same answer. -/
def Agrees (E E' : Engine) : Prop := ∀ request, Refines (E request) (E' request)

/-- Two runs on the same machine that go the same way, unless the first one ends in one of some ways
that scripts cannot catch. -/
def sameUnless (P : Stop → Machine → Prop) : Likeness where
  image := id
  Good _ := True
  Rel _ _ := True
  lax s m := s.isCatchable = false ∧ P s m

section

variable {P : Stop → Machine → Prop}

instance : (sameUnless P).Lawful := Reflexive.lawful {
  refl _ := trivial
  trans _ _ := trivial
  good _ _ := trivial
  passed h := h.1
  beside _ _ := trivial
  observed _ _ _ := trivial
  spawned _ _ := trivial
  callback _ _ := trivial
  spent _ _ := trivial }

instance (f : FiberId) : (sameUnless P).Hosts f where
  onStacks _ _ _ _ := trivial
  parks _ _ := trivial
  canYield _ _ := trivial
  budget _ _ := ⟨trivial, fun _ => .inr rfl⟩

instance : (sameUnless P).Frees where
  rel _ := trivial

end

/-- Two runs on the same machine, of which the first one may be stopped in some way. -/
abbrev unlessStopped (s : Stop) : Likeness := sameUnless fun stop _ => stop = s

instance {s : Stop} : (unlessStopped s).Blind where
  lax _ h := h

theorem Likeness.AlikeAt.eq_of_ne {α : Type} {s : Stop} {m : Machine} {x y : Exec α}
    (h : (unlessStopped s).AlikeAt m x y) (hserved : (x m).1 ≠ .error s) : y m = x m := by
  obtain ⟨s, hs, -, rfl⟩ | hy := h.2 id
  · exact (hserved hs).elim
  · exact hy

/-- Two runs on the same machine, of which the first one may run out of steps. -/
abbrev agreement : Likeness := unlessStopped .exhausted

theorem alike_iff_refines {α : Type} {x y : Exec α} : agreement.Alike x y ↔ Refines x y := by
  constructor
  · exact fun h m hserved => (h m trivial).eq_of_ne hserved
  · intro h m _
    refine ⟨trivial, fun _ => ?_⟩
    by_cases hserved : (x m).1 = .error .exhausted
    · exact .inl ⟨_, hserved, rfl, rfl⟩
    · exact .inr (h m hserved)

section

variable {E E' : Engine} (hE : Agrees E E') {n n' : Nat} (hn : n ≤ n')

include hE in
theorem Agrees.agree : agreement.Agree E E' := fun request => alike_iff_refines.2 (hE request)

include hn in
theorem enough_of_le : agreement.Enough n n' := .inr ⟨hn, fun _ => ⟨rfl, rfl⟩⟩

include hE hn

theorem refines_beginCall (f : FiberId) (function : Value) (arguments : List Value) :
    Refines (beginCall E f n function arguments) (beginCall E' f n' function arguments) :=
  alike_iff_refines.1 (alike_beginCall hE.agree (enough_of_le hn) function arguments).alike

theorem refines_step (f : FiberId) (limit : Option Nat) (executed ip : Nat) :
    Refines (step E f n limit executed ip) (step E' f n' limit executed ip) :=
  alike_iff_refines.1 (AlikeRun.alike fun _ _ =>
    alike_step hE.agree (enough_of_le hn) ip limit executed trivial fun _ => trivial)

theorem refines_loop (f : FiberId) (limit : Option Nat) (executed ip : Nat) :
    Refines (loop E f n limit executed ip) (loop E' f n' limit executed ip) :=
  alike_iff_refines.1 (AlikeRun.alike fun _ _ =>
    alike_loop hE.agree (enough_of_le hn) ip limit executed trivial fun _ => trivial)

theorem refines_callFunction (function : Value) (arguments : List Value) :
    Refines (callFunction E n function arguments) (callFunction E' n' function arguments) :=
  alike_iff_refines.1 fun _ _ => ⟨trivial, fun _ => .callFunction
    ((alike_hostCall hE.agree (enough_of_le hn) function arguments _ trivial).2 id)⟩

theorem Agrees.serve : Agrees (Exec.serve E n) (Exec.serve E' n') := by
  intro request
  cases request with
  | call function arguments => exact refines_callFunction hE hn function arguments
  | resume f arguments =>
    exact alike_iff_refines.1 fun m _ => ⟨trivial, fun _ => .resume fun _ => .runResumed fun _ =>
      (alike_proceed hE.agree (enough_of_le hn) arguments _ _ trivial).2 id⟩
  | close f =>
    exact alike_iff_refines.1 fun m _ => ⟨trivial, fun _ => .close fun _ =>
      (alike_closeFrames hE.agree (enough_of_le hn) _ trivial).2 id⟩
  | invoke id site arguments method =>
    exact alike_iff_refines.1 (alike_invoke hE.agree site _ id)

end

/-- An engine that serves a request like the other one, if it does not give it up, agrees with it. -/
theorem agrees_of_serves {E : Nat → Engine} (hzero : ∀ request m, (E 0 request m).1 = .error .exhausted)
    (hsucc : ∀ n request m, E (n + 1) request m = (.error .exhausted, m) ∨
      E (n + 1) request m = Exec.serve (E n) n request m) {n n' : Nat} (hn : n ≤ n') :
    Agrees (E n) (engine n') := by
  induction n generalizing n' with
  | zero => exact fun request m h => absurd (hzero request m) h
  | succ n ih =>
    obtain _ | n' := n'
    · cases hn
    · intro request m h
      obtain hgives | hserves := hsucc n request m
      · exact absurd (congrArg Prod.fst hgives) h
      · rw [hserves] at h ⊢
        exact (ih (Nat.le_of_succ_le_succ hn)).serve (Nat.le_of_succ_le_succ hn) request m h

/-- An engine that is given more steps serves requests in the same way. -/
theorem agrees_engine {n n' : Nat} (hn : n ≤ n') : Agrees (engine n) (engine n') :=
  agrees_of_serves (fun _ _ => rfl) (fun _ _ _ => .inr rfl) hn

section Traces

variable {s : Stop} {E E' : Engine} (hE : (unlessStopped s).Agree E E')
include hE

theorem loop_of_agree {f : FiberId} {n executed ip : Nat} {limit : Option Nat} {m : Machine}
    (h : (loop E f n limit executed ip m).1 ≠ .error s) :
    loop E' f n limit executed ip m = loop E f n limit executed ip m :=
  ((alike_loop hE (.inl (rfl : n = n)) ip limit executed trivial fun _ => trivial).alikeAt
    fun _ _ _ => trivial).eq_of_ne h

theorem trace_of_agree (f : FiberId) (fuel : Nat) (limit : Option Nat) (executed ip : Nat) (m : Machine)
    (h : (loop E f fuel limit executed ip m).1 ≠ .error s) :
    trace E' f fuel limit executed ip m = trace E f fuel limit executed ip m := by
  induction fuel generalizing limit executed ip m with
  | zero => rfl
  | succ n ih =>
    have hround := ((alike_round (f := f) (m := m) hE (.inl (rfl : n = n)) ip limit executed
      trivial fun _ => trivial).alikeAt fun _ _ _ => trivial).eq_of_ne
    rw [loop_succ] at h
    rw [trace, trace]
    rcases hrun : Exec.round E f n limit executed ip m with ⟨stop | r, m'⟩ <;> rw [hrun] at hround
    · rw [bind_error hrun] at h
      rw [hround fun hs => h (congrArg _ (Except.error.inj hs))]
    · rw [bind_ok hrun] at h
      rw [hround (by simp)]
      cases r with
      | again limit' ip' => exact congrArg _ (ih limit' _ ip' m' h)
      | leave => rfl

end Traces

theorem trace_eq {E E' : Engine} (hE : Agrees E E') (f : FiberId) (fuel : Nat) (limit : Option Nat)
    (executed ip : Nat) (m : Machine)
    (h : (loop E f fuel limit executed ip m).1 ≠ .error .exhausted) :
    trace E' f fuel limit executed ip m = trace E f fuel limit executed ip m :=
  trace_of_agree hE.agree f fuel limit executed ip m h

end ScriptMachine
