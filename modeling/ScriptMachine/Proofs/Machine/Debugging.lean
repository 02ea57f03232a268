import ScriptMachine.Proofs.Machine.LikeServing

namespace ScriptMachine

open Exec

/-- The machine as it would be with no debugger around: of the events only those of the program are
recorded. -/
def Machine.undebugged (m : Machine) : Machine :=
  { m with debug := {}, events := m.events.filter Event.isProgram }

/-- A run with some debugger and one with none. -/
def undebugging : Likeness where
  image := id
  Good _ := True
  Rel _ _ := True
  lax _ _ := False
  debug _ := {}
  events es := es.filter Event.isProgram

theorem Exec.Observes.undebugged {α : Type} {x : Exec α} (hx : Observes x) (m : Machine) :
    (x m).2.undebugged = m.undebugged := by
  refine hx.preserves (R := fun m m' => m'.undebugged = m.undebugged) (fun m debug events h => ?_) m
  have hevents : events.filter Event.isProgram = #[] :=
    Array.filter_eq_empty_iff.2 fun e he => by simp [h e he]
  have happend : (m.events ++ events).filter Event.isProgram = m.events.filter Event.isProgram := by
    rw [Array.filter_append Array.size_append, hevents, Array.append_empty]
  simp only [Machine.undebugged, happend]

/-- The debugger does nothing that the other run would notice, and that has none to do it. -/
theorem alike_observing {x : Exec Unit} (hx : Observes x)
    (hnone : ∀ m : Machine, m.debug.debugger = none → x m = (.ok (), m)) :
    undebugging.Alike x x := by
  refine fun m _ => ⟨trivial, fun _ => .inr ?_⟩
  obtain ⟨_, _, _, hrun, -⟩ := hx m
  refine (hnone m.undebugged rfl).trans (Prod.ext ?_ (hx.undebugged m).symm)
  rw [hrun]

instance : undebugging.Lawful where
  refl _ := trivial
  trans _ _ := trivial
  parked _ _ := trivial
  parked_trans _ _ := trivial
  good _ _ := trivial
  past _ _ := id
  yields _ _ := Iff.rfl
  passed := False.elim
  size _ := rfl
  fiber m f := ⟨(m.fiber f).budget, rfl⟩
  modify _ _ _ := rfl
  push _ _ := rfl
  beside _ _ := trivial
  event _ e he := Array.filter_push_of_pos he (Array.size_push e)
  listening f ip i := alike_observing (observes_listening f ip i) fun _ h => listening_of_none h ip i
  reportError f e ip := alike_observing (observes_reportError f e ip) fun _ h =>
    reportError_of_none h e ip
  reportEnd f m := (congrArg Prod.snd (reportEnd_of_none (f := f) (m := m.undebugged) rfl)).trans
    ((observes_reportEnd f).undebugged m).symm
  spawned _ _ := trivial
  callback _ _ := trivial
  spent _ _ := trivial

instance (f : FiberId) : undebugging.Hosts f where
  onStacks _ _ _ _ := trivial
  parks _ _ := trivial
  canYield _ _ := trivial
  budget _ _ := ⟨trivial, fun _ => .inr rfl⟩

instance : undebugging.Frees where
  rel _ := trivial

instance : undebugging.Blind where
  lax _ := id

/-- Requests are served alike on top of engines that do. -/
theorem undebugging_serve {E : Engine} (hE : undebugging.Agree E E) (n : Nat) :
    undebugging.Agree (serve E n) (serve E n) := by
  intro request m hm
  cases request with
  | call function arguments =>
    exact ⟨trivial, fun _ => .callFunction
      ((Likeness.alike_hostCall hE (.inl rfl) function arguments _ trivial).2 id)⟩
  | resume f arguments =>
    exact ⟨trivial, fun _ => .resume fun _ => .runResumed fun _ =>
      (Likeness.alike_proceed hE (.inl rfl) arguments _ _ trivial).2 id⟩
  | close f =>
    exact ⟨trivial, fun _ => .close fun _ =>
      (Likeness.alike_closeFrames hE (.inl rfl) _ trivial).2 id⟩
  | invoke id site arguments method => exact Likeness.alike_invoke hE site _ id m hm

theorem engine_undebugged (n : Nat) (request : Request) (m : Machine) :
    engine n request m.undebugged =
      ((engine n request m).1, (engine n request m).2.undebugged) := by
  have hagree : undebugging.Agree (engine n) (engine n) := by
    induction n with
    | zero => exact fun _ => .throw _
    | succ n ih => exact undebugging_serve ih n
  exact ((hagree request m trivial).2 id).resolve_left fun ⟨_, _, hlax⟩ => hlax

end ScriptMachine
