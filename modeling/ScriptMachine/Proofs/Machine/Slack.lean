import ScriptMachine.Proofs.Machine.LikeServing

namespace ScriptMachine

open Exec Machine Likeness

def Machine.withBudget (m : Machine) (f : FiberId) (budget : Nat) : Machine :=
  m.withFiber f fun b => { b with budget }

/-- What code leaves as it is while a flow is under way. -/
structure Abides (f : FiberId) (m m' : Machine) : Prop where
  active : m'.active = m.active
  debugger : m.debug.debugger = none → m'.debug.debugger = none
  size : m.fibers.size ≤ m'.fibers.size
  role : SameRole (m.fiber f) (m'.fiber f)

namespace Abides

variable {f g : FiberId} {m m' m'' : Machine} {u : Fiber → Fiber}

theorem refl (f : FiberId) (m : Machine) : Abides f m m := ⟨rfl, id, le_rfl, .refl _⟩

theorem trans (h : Abides f m m') (h' : Abides f m' m'') : Abides f m m'' :=
  ⟨h'.active.trans h.active, h'.debugger ∘ h.debugger, h.size.trans h'.size, h.role.trans h'.role⟩

theorem withFiber (hu : SameRole (m.fiber f) ((m.withFiber g u).fiber f)) :
    Abides f m (m.withFiber g u) := ⟨rfl, id, Array.size_modify.ge, hu⟩

theorem of_fiber (hactive : m'.active = m.active) (hdebug : m'.debug = m.debug)
    (hsize : m.fibers.size ≤ m'.fibers.size) (hfiber : m'.fiber f = m.fiber f) : Abides f m m' := by
  refine ⟨hactive, fun h => by rw [hdebug, h], hsize, ?_⟩
  rw [hfiber]
  exact .refl _

end Abides

/-- Two runs in the midst of which a flow is, with different budgets. A host call may hold the flow,
so that it cannot yield, and it may be its own code that runs. -/
def slack (f : FiberId) (budget : Nat) (held own : Bool) : Likeness where
  image fibers := fibers.modify f.index fun b => { b with budget }
  Good m := Busy m f ∧ m.debug.debugger = none ∧ (held → (m.fiber f).canYield = false)
  Rel m m' := Abides f m m' ∧ (m'.fiber f).savedIp = (m.fiber f).savedIp
  Parked m m' := Abides f m m' ∧ (own = false → (m'.fiber f).savedIp = (m.fiber f).savedIp)
  Yields m := own → (m.fiber f).canYield
  lax s _ := s = .exhausted

section Slack

variable {f g : FiberId} {budget : Nat} {held own : Bool} {m m' : Machine}

theorem modify_comm {α : Type} (xs : Array α) (i j : Nat) (u v : α → α) (h : ∀ a, u (v a) = v (u a)) :
    (xs.modify i u).modify j v = (xs.modify j v).modify i u := by
  refine Array.ext_getElem? fun k => ?_
  simp only [Array.getElem?_modify]
  split
  · split
    · simp only [Option.map_map]
      exact congrArg (xs[k]?.map ·) (funext fun a => (h a).symm)
    · rfl
  · rfl

theorem modify_push {α : Type} (xs : Array α) {i : Nat} (hi : i < xs.size) (u : α → α) (a : α) :
    (xs.push a).modify i u = (xs.modify i u).push a := by
  refine Array.ext_getElem? fun k => ?_
  simp only [Array.getElem?_modify, Array.getElem?_push, Array.size_modify]
  by_cases hk : k = xs.size
  · rw [if_pos hk, if_pos hk, if_neg (by omega)]
  · rw [if_neg hk, if_neg hk]

theorem fiber_withBudget (m : Machine) (f g : FiberId) (b : Nat) :
    ∃ budget, (m.withBudget f b).fiber g = { m.fiber g with budget } := by
  by_cases hEq : g = f
  · by_cases hf : f.index < m.fibers.size
    · exact ⟨b, by rw [hEq, withBudget, fiber_withFiber_self hf]⟩
    · exact ⟨(m.fiber g).budget, by rw [withBudget, withFiber_of_le (by omega)]⟩
  · exact ⟨(m.fiber g).budget, by rw [withBudget, fiber_withFiber_ne hEq]⟩

instance : (slack f budget held own).Lawful where
  refl m := ⟨.refl f m, rfl⟩
  trans h h' := ⟨h.1.trans h'.1, h'.2.trans h.2⟩
  parked _ h := ⟨h.1, fun _ => h.2⟩
  parked_trans h h' := ⟨h.1.trans h'.1, fun hown => (h'.2 hown).trans (h.2 hown)⟩
  good {m m'} hm h := by
    refine ⟨⟨hm.1.1.trans_le h.1.size, ?_⟩, h.1.debugger hm.2.1, fun hheld => ?_⟩
    · rw [h.1.role.status]
      exact hm.1.2
    · rw [h.1.role.canYield]
      exact hm.2.2 hheld
  past _ _ := id
  yields _ h := by
    change (own → _) ↔ (own → _)
    rw [h.1.role.canYield]
  passed := by
    rintro _ _ rfl
    rfl
  size _ := Array.size_modify
  fiber m g := fiber_withBudget m f g budget
  modify {u} fibers i hu :=
    modify_comm fibers i f.index u (fun b => { b with budget }) fun b => hu b budget
  push b hm := modify_push _ hm.1.1 (fun b => { b with budget }) b
  beside hm h := by
    refine ⟨.of_fiber h.active (h.debug hm.2.1) (congrArg Array.size h.fibers).ge ?_, ?_⟩
    · simp only [fiber, h.fibers]
    · simp only [fiber, h.fibers]
  event _ _ _ := rfl
  listening f' ip i m hm := by
    rw [AlikeAt, SameAt, listening_of_none hm.2.1 ip i]
    exact ⟨⟨.refl f m, rfl⟩, fun _ => .inr (listening_of_none (m := m.withBudget f budget) hm.2.1 ip i)⟩
  reportError f' e ip m hm := by
    rw [AlikeAt, SameAt, reportError_of_none hm.2.1 e ip]
    exact ⟨⟨.refl f m, rfl⟩, fun _ =>
      .inr (reportError_of_none (m := m.withBudget f budget) hm.2.1 e ip)⟩
  reportEnd f' m := by
    have happly (m : Machine) : reportEnd f' m = (if (m.fiber f').nesting == 0 ∧
      m.debug.debugger.isSome then emit .ended else pure ()) m := rfl
    obtain ⟨b, hfiber⟩ := fiber_withBudget m f f' budget
    have hof : (slack f budget held own).of m = m.withBudget f budget := rfl
    have hdebug : (m.withBudget f budget).debug = m.debug := rfl
    rw [hof, happly, happly, hfiber, hdebug]
    split <;> rfl
  spawned {m} id hm := by
    have hfiber : (m.spawned (.closure id)).fiber f = m.fiber f := by
      simp only [fiber, spawned, Array.getD_eq_getD_getElem?, Array.getElem?_push,
        hm.1.1.ne, if_false]
    refine ⟨.of_fiber rfl rfl ?_ hfiber, congrArg Fiber.savedIp hfiber⟩
    exact (Nat.le_succ _).trans (Array.size_push _).ge
  callback _ _ := ⟨.of_fiber rfl rfl le_rfl rfl, rfl⟩
  spent _ _ := ⟨.of_fiber rfl rfl le_rfl rfl, rfl⟩

instance : (slack f budget held true).Carries f where
  onStacks {m u} hm hrole hsaved _ := by
    have hself : (m.withFiber f u).fiber f = u (m.fiber f) := fiber_withFiber_self hm.1.1
    refine ⟨.withFiber ?_, ?_⟩
    · rw [hself]
      exact hrole
    · rw [hself, hsaved]
  parks savedIp hm := by
    refine ⟨.withFiber ?_, nofun⟩
    rw [fiber_withFiber_self hm.1.1]
    exact .stacks ..
  canYield _ h := fun _ => h

/-- A flow that is held has no limit, whatever its budget. -/
instance : (slack f budget true true).Hosts f where
  budget := by
    intro m hm
    have hnone (b : Fiber) (hb : b.canYield = false) : b.limit = none := by
      simp [Fiber.limit, hb]
    obtain ⟨b, hfiber⟩ := fiber_withBudget m f f budget
    have hother : (((slack f budget true true).of m).fiber f).canYield = false :=
      (congrArg Fiber.canYield hfiber).trans (hm.2.2 rfl)
    refine ⟨⟨.refl f m, rfl⟩, fun _ => .inr ?_⟩
    rw [budget_apply, budget_apply, hnone _ hother, hnone _ (hm.2.2 rfl)]

theorem rel_withFiber (hne : g ≠ f) (u : Fiber → Fiber) :
    (slack f budget held own).Rel m (m.withFiber g u) := by
  have hfiber : (m.withFiber g u).fiber f = m.fiber f := fiber_withFiber_ne hne.symm
  exact ⟨.of_fiber rfl rfl Array.size_modify.ge hfiber, congrArg Fiber.savedIp hfiber⟩

theorem hosts_of_ne (hne : g ≠ f) : (slack f budget held false).Hosts g where
  onStacks _ _ _ _ := rel_withFiber hne _
  parks {m} savedIp _ := by
    have hrel : (slack f budget held false).Rel m (m.withFiber g fun b => { b with savedIp }) :=
      rel_withFiber hne _
    exact ⟨hrel.1, fun _ => hrel.2⟩
  canYield _ _ := nofun
  budget m hm := by
    refine ⟨⟨.refl f m, rfl⟩, fun _ => .inr ?_⟩
    have hfiber : ((slack f budget held false).of m).fiber g = m.fiber g :=
      fiber_withFiber_ne hne
    rw [budget_apply, budget_apply, hfiber]

instance : (slack f budget held false).Frees where
  rel h := ⟨h.1, h.2 rfl⟩

instance : (slack f budget held own).Blind where
  lax _ h := h

/-- The flows differ in nothing else, so that who holds them and whose code runs does not matter for
how requests are served. -/
theorem agree_slack {held' own' : Bool} {E E' : Engine} (hE : (slack f budget false own).Agree E E') :
    (slack f budget held' own').Agree E E' :=
  fun r m hm => hE r m ⟨hm.1, hm.2.1, nofun⟩

end Slack

section Leaving

variable {f g : FiberId} {m m' : Machine} {u v : Fiber → Fiber}

theorem Machine.debug_entered (m : Machine) (g : FiberId) : (m.entered g).debug = m.debug := by
  unfold entered
  dsimp only
  split <;> rfl

theorem Machine.debug_exited (m : Machine) (g : FiberId) : (m.exited g).debug = m.debug := by
  unfold exited
  split <;> rfl

theorem Abides.left (h : Abides f ((m.entered g).withFiber g v) m')
    (hrole : SameRole (m.fiber f) (((m'.withFiber g u).exited g).fiber f)) :
    Abides f m ((m'.withFiber g u).exited g) where
  active := Machine.active_left h.active u
  debugger hnone := by
    rw [Machine.debug_exited]
    exact h.debugger ((congrArg DebugState.debugger (Machine.debug_entered m g)).trans hnone)
  size := by
    have hsize := h.size
    rw [Machine.withFiber, Array.size_modify, Machine.size_entered] at hsize
    rw [Machine.size_exited, Machine.withFiber, Array.size_modify]
    exact hsize
  role := hrole

end Leaving

section Serving

variable {f g : FiberId} {budget : Nat} {own : Bool} {E E' : Engine}
  (hE : (slack f budget false own).Agree E E') {n n' : Nat} (hn : n ≤ n') {m m' : Machine}
  {u v : Fiber → Fiber} (hm : (slack f budget false own).Good m)

include hn in
theorem enough_slack {held : Bool} : (slack f budget held own).Enough n n' := .inr ⟨hn, fun _ => rfl⟩

include hm in
theorem good_slack_entered {own' : Bool} (hstatus : (((m.entered g).withFiber g v).fiber f).status =
    (m.fiber f).status) : (slack f budget false own').Good ((m.entered g).withFiber g v) := by
  refine ⟨⟨?_, ?_⟩, ?_, nofun⟩
  · exact hm.1.1.trans_eq (Array.size_modify.trans (size_entered m g)).symm
  · rw [hstatus]
    exact hm.1.2
  · exact (congrArg DebugState.debugger (debug_entered m g)).trans hm.2.1

theorem rel_slack_left (hne : f ≠ g)
    (h : (slack f budget false false).Rel ((m.entered g).withFiber g v) m') :
    (slack f budget false own).Rel m ((m'.withFiber g u).exited g) := by
  have hinside : ((m.entered g).withFiber g v).fiber f = m.fiber f := by
    rw [fiber_withFiber_ne hne, fiber_entered, fiber_withFiber_ne hne]
  have hafter : ((m'.withFiber g u).exited g).fiber f = m'.fiber f := by
    rw [fiber_exited, fiber_withFiber_ne hne, fiber_withFiber_ne hne]
  refine ⟨h.1.left ?_, ?_⟩
  · rw [hafter, ← hinside]
    exact h.1.role
  · rw [hafter, ← hinside]
    exact h.2

include hm

theorem ne_of_resumable (hg : (m.fiber g).status.isResumable) : f ≠ g := by
  rintro rfl
  rcases hm.1.2 with h | h <;> rw [h] at hg <;> cases hg

theorem good_slack_begun (hne : f ≠ g) : (slack f budget false false).Good (m.begun g) := by
  refine good_slack_entered hm ?_
  rw [fiber_withFiber_ne hne, fiber_entered, fiber_withFiber_ne hne]

include hE hn

/-- A host call of another flow. -/
theorem slack_callFunction_of_ne (hne : f ≠ m.currentFiber) (function : Value)
    (arguments : List Value) : (slack f budget false own).AlikeAt m
      (callFunction E n function arguments) (callFunction E' n' function arguments) := by
  have hhosts : (slack f budget false false).Hosts m.currentFiber := hosts_of_ne hne.symm
  have hgood : (slack f budget false false).Good (m.prepared m.currentFiber) :=
    good_slack_entered hm (by
      rw [fiber_withFiber_ne hne, fiber_entered, fiber_withFiber_ne hne])
  obtain ⟨hrel, hsame⟩ := (alike_hostCall (f := m.currentFiber) (agree_slack hE)
    (enough_slack hn) function arguments).alike _ hgood
  obtain ⟨u, hleft, -⟩ := callFunction_leaves E n function arguments m
  refine ⟨?_, fun _ => .callFunction (hsame id)⟩
  have hexited : (slack f budget false own).Rel m _ := rel_slack_left (u := u) hne hrel
  rw [hleft]
  exact Lawful.trans hexited (Lawful.beside
    (Lawful.good_rel hm hexited) (reportEnd_apply _ _).2)

/-- A host call of the flow under way itself, which cannot yield meanwhile. -/
theorem slack_callFunction_of_eq (hEq : f = m.currentFiber) (function : Value)
    (arguments : List Value) : (slack f budget false own).AlikeAt m
      (callFunction E n function arguments) (callFunction E' n' function arguments) := by
  have hprepared : (m.prepared f).fiber f = { m.fiber f with
      nesting := (m.fiber f).nesting + 1, canYield := false } := fiber_prepared hm.1.1
  have hgood : (slack f budget true true).Good (m.prepared f) := by
    have hstatus : ((m.prepared f).fiber f).status = (m.fiber f).status := by rw [hprepared]
    have hentered : (slack f budget false own).Good (m.prepared f) := good_slack_entered hm hstatus
    exact ⟨hentered.1, hentered.2.1, fun _ => by rw [hprepared]⟩
  have hheld : ¬ (slack f budget true true).Yields (m.prepared f) := fun h => by
    have hyield : ((m.prepared f).fiber f).canYield = true := h rfl
    rw [hprepared] at hyield
    cases hyield
  obtain ⟨hrel, hsame⟩ := (alike_hostCall (f := f) (agree_slack hE)
    (enough_slack hn) function arguments _ hgood).alikeAt fun h => absurd h hheld
  obtain ⟨u, hleft, hu⟩ := callFunction_leaves E n function arguments m
  rw [← hEq] at hleft hu
  have hend := hrel.1.role
  rw [hprepared] at hend
  have hexited : (slack f budget false own).Rel m
      (((hostCall E f n function arguments (m.prepared f)).2.withFiber f u).exited f) := by
    have hlt := hgood.1.1.trans_le hrel.1.size
    have hfiber : ((((hostCall E f n function arguments (m.prepared f)).2.withFiber f u).exited f).fiber
        f) = { u ((hostCall E f n function arguments (m.prepared f)).2.fiber f) with nesting :=
          (u ((hostCall E f n function arguments (m.prepared f)).2.fiber f)).nesting - 1 } := by
      rw [fiber_exited, fiber_withFiber_self (Array.size_modify.symm ▸ hlt),
        fiber_withFiber_self hlt]
    obtain ⟨hrole, hsaved, -⟩ := hu ((hostCall E f n function arguments (m.prepared f)).2.fiber f)
    refine ⟨hrel.1.left ?_, ?_⟩
    · rw [hfiber]
      exact ⟨hrole.status.trans hend.status, hrole.canYield, hrole.closeError.trans hend.closeError,
        congrArg (· - 1) (hrole.nesting.trans hend.nesting), hrole.budget.trans hend.budget,
        hrole.owner.trans hend.owner⟩
    · have hbefore : ((m.prepared f).fiber f).savedIp = (m.fiber f).savedIp := by rw [hprepared]
      rw [hfiber]
      exact hsaved.trans (hrel.2.trans hbefore)
  refine ⟨?_, fun _ => .callFunction ?_⟩
  · rw [hleft]
    exact Lawful.trans hexited (Lawful.beside
      (Lawful.good_rel hm hexited) (reportEnd_apply _ _).2)
  · rw [← hEq]
    exact hsame id

theorem slack_resume (g : FiberId) (arguments : List Value) :
    (slack f budget false own).AlikeAt m (resume E n g arguments) (resume E' n' g arguments) := by
  have hproceed (hg : (m.fiber g).status.isResumable) : (slack f budget false false).AlikeAt
      (m.begun g) (proceed E g n arguments (m.fiber g).status)
      (proceed E' g n' arguments (m.fiber g).status) := by
    have hne := ne_of_resumable hm hg
    have hhosts : (slack f budget false false).Hosts g := hosts_of_ne hne.symm
    exact alike_proceed (agree_slack hE) (enough_slack hn) arguments _ _
      (good_slack_begun hm hne)
  refine .resume (fun hg => (hproceed hg).2) (fun hg u _ => ⟨?_, id⟩) (fun hg u _ => ?_)
    ⟨.refl f m, rfl⟩
  · exact rel_slack_left (ne_of_resumable hm hg) (hproceed hg).1
  · have hrefused : (slack f budget false own).Rel m
        ((((m.entered g).withFiber g id).withFiber g u).exited g) :=
      rel_slack_left (ne_of_resumable hm hg) (Lawful.refl _)
    rw [withFiber_withFiber] at hrefused
    exact hrefused

theorem slack_close (g : FiberId) :
    (slack f budget false own).AlikeAt m (close E n g) (close E' n' g) := by
  have hframes (hg : (m.fiber g).status.isResumable) : (slack f budget false false).AlikeAt
      (m.begun g) (closeFrames E g n) (closeFrames E' g n') := by
    have hne := ne_of_resumable hm hg
    have hhosts : (slack f budget false false).Hosts g := hosts_of_ne hne.symm
    exact alike_closeFrames (agree_slack hE) (enough_slack hn) _ (good_slack_begun hm hne)
  refine .close (fun hg => (hframes hg).2) (fun hg u _ => ⟨?_, id⟩) (fun hg => ?_)
    ⟨.refl f m, rfl⟩
  · exact rel_slack_left (ne_of_resumable hm hg) (hframes hg).1
  · exact rel_withFiber (ne_of_resumable hm hg).symm _

end Serving

section Engine

variable {f : FiberId} {budget : Nat} {own : Bool}

/-- Requests are served alike whatever the budget of a flow under way is. -/
theorem slack_serve {E E' : Engine} (hE : (slack f budget false own).Agree E E') {n n' : Nat}
    (hn : n ≤ n') : (slack f budget false own).Agree (serve E n) (serve E' n') := by
  intro request m hm
  cases request with
  | call function arguments =>
    by_cases hEq : f = m.currentFiber
    · exact slack_callFunction_of_eq hE hn hm hEq function arguments
    · exact slack_callFunction_of_ne hE hn hm hEq function arguments
  | resume g arguments => exact slack_resume hE hn hm g arguments
  | close g => exact slack_close hE hn hm g
  | invoke id site arguments method => exact alike_invoke hE site _ id m hm

theorem slack_engine {n n' : Nat} (hn : n ≤ n') :
    (slack f budget false own).Agree (engine n) (engine n') := by
  induction n generalizing n' with
  | zero => exact fun request m _ => ⟨⟨.refl f m, rfl⟩, fun _ => .inl ⟨.exhausted, rfl, rfl⟩⟩
  | succ n ih =>
    obtain _ | n' := n'
    · cases hn
    · exact slack_serve (ih (Nat.le_of_succ_le_succ hn)) (Nat.le_of_succ_le_succ hn)

end Engine

end ScriptMachine
