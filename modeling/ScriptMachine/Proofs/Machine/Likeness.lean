import ScriptMachine.Proofs.Machine.Rounds

namespace ScriptMachine

open Exec Machine

/-- Which outcomes of code that runs on a flow may mean that the flow has given up control. -/
class Exec.Parking (α : Type) where
  parks : Except Stop α → Bool

instance : Parking Resumption where
  parks
    | .ok .yielded => true
    | _ => false

instance : Parking Flow where
  parks
    | .ok (.transfer .yielded) => true
    | _ => false

instance : Parking (Option Flow) where
  parks
    | .ok (some (.transfer .yielded)) => true
    | _ => false

instance : Parking Round where
  parks
    | .ok .leave => true
    | _ => false

instance : Parking Value where
  parks _ := true

theorem Exec.parks_transfer (r : Except Stop Resumption) (h : Parking.parks r) :
    Parking.parks (r.map Flow.transfer) := by
  match r with
  | .ok .yielded => rfl

/-- How a second run goes along with a first one. -/
structure Likeness where
  /-- The flows of the second machine. But for them, debugging and events both are the same. -/
  image : Array Fiber → Array Fiber
  /-- What holds of the first machine on the way. -/
  Good : Machine → Prop
  Rel : Machine → Machine → Prop
  Parked : Machine → Machine → Prop := Rel
  Yields : Machine → Prop := fun _ => True
  /-- The outcomes of the first run, with the machine left, after which nothing is said about the
  second one. -/
  lax : Stop → Machine → Prop
  /-- The machines from which on nothing is said about the second one. -/
  Over : Machine → Prop := fun _ => False
  debug : DebugState → DebugState := id
  events : Array Event → Array Event := id

def Machine.spawned (m : Machine) (function : Value) : Machine :=
  let (owner, heap) := m.heap.newCoroutine (.fiber ⟨m.fibers.size⟩)
  { m with
    heap
    fibers := m.fibers.push {
      values := #[function], status := .notStarted, budget := m.options.defaultBudget, owner } }

mutual

theorem Machine.snapshot_congr {m m' : Machine} (hheap : m'.heap = m.heap)
    (hstatus : ∀ id, m'.coroutineStatus id = m.coroutineStatus id) (depth : Nat) (v : Value) :
    m'.snapshot depth v = m.snapshot depth v := by
  cases v with
  | coroutine id => simp only [snapshot, coroutineKind, hstatus, hheap]
  | tuple items => simp only [snapshot, snapshots_congr hheap hstatus depth items]
  | yieldRequest items forced => simp only [snapshot, snapshots_congr hheap hstatus depth items]
  | tailCall id =>
    cases depth with
    | zero => simp only [snapshot]
    | succ depth =>
      simp only [snapshot, hheap, snapshot_congr hheap hstatus depth,
        snapshots_congr hheap hstatus depth]
  | _ => simp only [snapshot]
termination_by (depth, sizeOf v)

theorem Machine.snapshots_congr {m m' : Machine} (hheap : m'.heap = m.heap)
    (hstatus : ∀ id, m'.coroutineStatus id = m.coroutineStatus id) (depth : Nat)
    (vs : List Value) : m'.snapshots depth vs = m.snapshots depth vs := by
  cases vs with
  | nil => simp only [snapshots]
  | cons v vs =>
    simp only [snapshots, snapshot_congr hheap hstatus depth v, snapshots_congr hheap hstatus depth vs]
termination_by (depth, sizeOf vs)

end

namespace Likeness

variable {α β : Type} {g' g : α → Exec β} {p : Prop}

def of (c : Likeness) (m : Machine) : Machine :=
  { m with fibers := c.image m.fibers, debug := c.debug m.debug, events := c.events m.events }

/-- The second operation does the same as the first one. -/
def SameAt (c : Likeness) (m : Machine) (x y : Exec α) : Prop :=
  (∃ s, (x m).1 = .error s ∧ c.lax s (x m).2) ∨ y (c.of m) = ((x m).1, c.of (x m).2)

/-- What the first operation makes of a machine is allowed, and the second one does the same. -/
def AlikeAt (c : Likeness) (m : Machine) (x y : Exec α) : Prop :=
  c.Rel m (x m).2 ∧ (¬ c.Over (x m).2 → c.SameAt m x y)

def Alike (c : Likeness) (x y : Exec α) : Prop := ∀ m, c.Good m → c.AlikeAt m x y

/-- What code that runs on a flow makes of a machine is allowed, and the second code does the
same. -/
def AlikeRunAt (c : Likeness) [Parking α] (m : Machine) (x y : Exec α) : Prop :=
  (c.Rel m (x m).2 ∨ Parking.parks (x m).1 ∧ c.Yields m ∧ c.Parked m (x m).2) ∧
    (¬ c.Over (x m).2 → c.SameAt m x y)

def AlikeRun (c : Likeness) [Parking α] (x y : Exec α) : Prop := ∀ m, c.Good m → c.AlikeRunAt m x y

/-- The flows of the two machines differ at most in their budgets, and what code does besides
running on the stacks of its own flow is allowed. -/
class Lawful (c : Likeness) : Prop where
  refl m : c.Rel m m
  trans {m m' m''} : c.Rel m m' → c.Rel m' m'' → c.Rel m m''
  parked {m m'} : c.Good m → c.Rel m m' → c.Parked m m'
  parked_trans {m m' m''} : c.Parked m m' → c.Parked m' m'' → c.Parked m m''
  good {m m'} : c.Good m → c.Parked m m' → c.Good m'
  past {m m'} : c.Good m → c.Parked m m' → c.Over m → c.Over m'
  yields {m m'} : c.Good m → c.Rel m m' → (c.Yields m' ↔ c.Yields m)
  /-- Scripts cannot catch such an outcome. -/
  passed {s m} : c.lax s m → s.isCatchable = false
  size fibers : (c.image fibers).size = fibers.size
  fiber m f : ∃ budget, (c.of m).fiber f = { m.fiber f with budget }
  modify {u : Fiber → Fiber} fibers i (hu : ∀ b budget, u { b with budget } = { u b with budget }) :
    c.image (fibers.modify i u) = (c.image fibers).modify i u
  push {m} b : c.Good m → c.image (m.fibers.push b) = (c.image m.fibers).push b
  beside {m m'} : c.Good m → Beside m m' → c.Rel m m'
  event es e : e.isProgram → c.events (es.push e) = (c.events es).push e
  listening f ip i : c.Alike (listening f ip i) (listening f ip i)
  reportError f e ip : c.Alike (reportError f e ip) (reportError f e ip)
  reportEnd f m : (reportEnd f (c.of m)).2 = c.of (reportEnd f m).2
  spawned {m} id : c.Good m → c.Rel m (m.spawned (.closure id))
  callback {m} id : c.Good m → c.Rel m { m with heap := (m.heap.newCoroutine (.callback id)).2 }
  spent {m co id} : c.Good m → m.heap.coroutine co = .callback id →
    c.Rel m { m with heap := m.heap.setCoroutine co .spent }

/-- Code may run on the stacks of the flow. -/
class Carries (c : Likeness) (f : FiberId) : Prop where
  onStacks {m} {u : Fiber → Fiber} : c.Good m → SameRole (m.fiber f) (u (m.fiber f)) →
    (u (m.fiber f)).savedIp = (m.fiber f).savedIp →
    (u (m.fiber f)).frames.size ≤ max (m.fiber f).frames.size m.options.maxCallDepth →
    c.Rel m (m.withFiber f u)
  parks {m} savedIp : c.Good m → c.Parked m (m.withFiber f fun b => { b with savedIp })
  canYield {m} : c.Good m → (m.fiber f).canYield → c.Yields m

/-- Loops may run on the stacks of the flow. -/
class Hosts (c : Likeness) (f : FiberId) : Prop extends c.Carries f where
  budget : c.Alike (budget f) (budget f)

/-- Giving up control is no more than what is always allowed. -/
class Frees (c : Likeness) : Prop where
  rel {m m'} : c.Parked m m' → c.Rel m m'

/-- Whether an outcome is lax has nothing to do with the machine left. -/
class Blind (c : Likeness) : Prop where
  lax {s m} m' : c.lax s m → c.lax s m'

def Enough (c : Likeness) (n n' : Nat) : Prop := n = n' ∨ n ≤ n' ∧ ∀ m, c.lax .exhausted m

variable {c : Likeness} {n n' : Nat}

theorem Lawful.good_rel [c.Lawful] {m m' : Machine} (hm : c.Good m) (h : c.Rel m m') : c.Good m' :=
  Lawful.good hm (Lawful.parked hm h)

theorem Lawful.past_rel [c.Lawful] {m m' : Machine} (hm : c.Good m) (h : c.Rel m m')
    (hover : c.Over m) : c.Over m' :=
  Lawful.past hm (Lawful.parked hm h) hover

theorem Enough.succ (hn : c.Enough (n + 1) n') : ∃ k, n' = k + 1 ∧ c.Enough n k := by
  rcases hn with rfl | ⟨hle, hlax⟩
  · exact ⟨n, rfl, .inl rfl⟩
  · obtain ⟨k, rfl⟩ := Nat.exists_eq_add_of_le' hle
    exact ⟨k + n, by omega, .inr ⟨by omega, hlax⟩⟩

/-- A likeness of every run to itself, which is about what becomes of the machine. -/
structure Reflexive (c : Likeness) : Prop where
  image : c.image = id := by rfl
  debug : c.debug = id := by rfl
  events : c.events = id := by rfl
  parked : c.Parked = c.Rel := by rfl
  yields : c.Yields = fun _ => True := by rfl
  refl m : c.Rel m m
  trans {m m' m''} : c.Rel m m' → c.Rel m' m'' → c.Rel m m''
  good {m m'} : c.Good m → c.Rel m m' → c.Good m'
  past {m m'} : c.Rel m m' → c.Over m → c.Over m' := by exact fun _ => id
  passed {s m} : c.lax s m → s.isCatchable = false := by exact False.elim
  beside {m m'} : c.Good m → Beside m m' → c.Rel m m'
  observed {m} debug events : c.Good m → c.Rel m { m with debug, events }
  spawned {m} id : c.Good m → c.Rel m (m.spawned (.closure id))
  callback {m} id : c.Good m → c.Rel m { m with heap := (m.heap.newCoroutine (.callback id)).2 }
  spent {m co id} : c.Good m → m.heap.coroutine co = .callback id →
    c.Rel m { m with heap := m.heap.setCoroutine co .spent }

theorem Reflexive.of_eq (h : c.Reflexive) (m : Machine) : c.of m = m := by
  rw [of, h.image, h.debug, h.events]
  rfl

theorem Reflexive.alike_observes (h : c.Reflexive) {x : Exec α} (hx : Observes x) : c.Alike x x := by
  intro m hm
  refine ⟨?_, fun _ => .inr (by rw [h.of_eq, h.of_eq]; rfl)⟩
  obtain ⟨_, _, _, hrun, -⟩ := hx m
  rw [hrun]
  exact h.observed _ _ hm

theorem Reflexive.lawful (h : c.Reflexive) : c.Lawful where
  refl := h.refl
  trans := h.trans
  parked _ hrel := h.parked ▸ hrel
  parked_trans := h.parked ▸ h.trans
  good := h.parked ▸ h.good
  past _ := h.parked ▸ h.past
  yields _ _ := by rw [h.yields]
  passed := h.passed
  size _ := by rw [h.image]; rfl
  fiber m f := ⟨(m.fiber f).budget, by rw [h.of_eq]⟩
  modify _ _ _ := by rw [h.image]; rfl
  push _ _ := by rw [h.image]; rfl
  beside := h.beside
  event _ _ _ := by rw [h.events]; rfl
  listening f ip i := h.alike_observes (observes_listening f ip i)
  reportError f e ip := h.alike_observes (observes_reportError f e ip)
  reportEnd _ _ := by rw [h.of_eq, h.of_eq]
  spawned := h.spawned
  callback := h.callback
  spent := h.spent

namespace SameAt

variable {m : Machine} {x y : Exec α} {g g' : α → Exec β}

theorem bind (hx : c.SameAt m x y) (hg : ∀ a m', x m = (.ok a, m') → c.SameAt m' (g a) (g' a)) :
    c.SameAt m (x >>= g) (y >>= g') := by
  rcases hrun : x m with ⟨s | a, m'⟩ <;> rw [SameAt, hrun] at hx
  · rw [SameAt, bind_error hrun]
    refine hx.imp (fun ⟨s', hs, hlax⟩ => ⟨s', ?_, hlax⟩) fun hy => bind_error hy
    exact congrArg _ (Except.error.inj hs)
  · rw [SameAt, bind_ok hrun]
    rcases hx with ⟨s, hs, -⟩ | hy
    · cases hs
    · rw [bind_ok hy]
      exact hg a m' hrun

theorem bind_unless (hx : ¬ c.Over (x m).2 → c.SameAt m x y)
    (hpast : ∀ a m', x m = (.ok a, m') → c.Over m' → c.Over (g a m').2)
    (hg : ∀ a m', x m = (.ok a, m') → ¬ c.Over (g a m').2 → c.SameAt m' (g a) (g' a))
    (hover : ¬ c.Over ((x >>= g) m).2) : c.SameAt m (x >>= g) (y >>= g') := by
  rcases hrun : x m with ⟨s | a, m'⟩ <;> rw [hrun] at hx
  · rw [bind_error hrun] at hover
    refine (hx hover).bind fun a m' h => ?_
    cases hrun.symm.trans h
  · rw [bind_ok hrun] at hover
    refine (hx fun h => hover (hpast a m' hrun h)).bind fun a' m'' h => ?_
    obtain ⟨ha, rfl⟩ := Prod.mk.inj (hrun.symm.trans h)
    exact Except.ok.inj ha ▸ hg a _ hrun hover

theorem attempt_bind {g g' : Except Stop α → Exec β} (hx : c.SameAt m x y)
    (hstop : ∀ s m, c.lax s m → ∃ m', g (.error s) m = (.error s, m') ∧ c.lax s m')
    (hg : c.SameAt (x m).2 (g (x m).1) (g' (x m).1)) :
    c.SameAt m (attempt x >>= g) (attempt y >>= g') := by
  have hattempt : attempt x m = (.ok (x m).1, (x m).2) := rfl
  rw [SameAt, bind_ok hattempt]
  rcases hx with ⟨s, hs, hlax⟩ | hy
  · obtain ⟨m', hrun, hlax'⟩ := hstop s _ hlax
    refine .inl ⟨s, ?_⟩
    rw [hs, hrun]
    exact ⟨rfl, hlax'⟩
  · rw [bind_ok (attempt_apply hy)]
    exact hg

end SameAt

variable [c.Lawful] {x y : Exec α}

section Runs

variable {m : Machine} [Parking α] [Parking β]

omit [c.Lawful] in
theorem AlikeAt.run (h : c.AlikeAt m x y) : c.AlikeRunAt m x y := ⟨.inl h.1, h.2⟩

namespace AlikeRunAt

theorem parked (hm : c.Good m) (h : c.AlikeRunAt m x y) : c.Parked m (x m).2 := by
  rcases h.1 with h | h
  · exact Lawful.parked hm h
  · exact h.2.2

omit [c.Lawful] in
theorem alikeAt (h : c.AlikeRunAt m x y) (hfree : c.Yields m → ∀ m', c.Parked m m' → c.Rel m m') :
    c.AlikeAt m x y := by
  refine ⟨?_, h.2⟩
  rcases h.1 with hrel | ⟨-, hyields, hparked⟩
  · exact hrel
  · exact hfree hyields _ hparked

theorem bind {α : Type} {x y : Exec α} {g g' : α → Exec β} (hm : c.Good m) (hx : c.AlikeAt m x y)
    (hg : ∀ a m', x m = (.ok a, m') → c.AlikeRunAt m' (g a) (g' a)) :
    c.AlikeRunAt m (x >>= g) (y >>= g') := by
  obtain ⟨hrel, hsame⟩ := hx
  have hpast (a : α) (m' : Machine) (hrun : x m = (.ok a, m')) : c.Over m' → c.Over (g a m').2 := by
    rw [hrun] at hrel
    exact Lawful.past (Lawful.good_rel hm hrel) ((hg a m' hrun).parked (Lawful.good_rel hm hrel))
  refine ⟨?_, SameAt.bind_unless hsame hpast fun a m' hrun => (hg a m' hrun).2⟩
  rcases hrun : x m with ⟨s | a, m'⟩ <;> rw [hrun] at hrel
  · rw [bind_error hrun]
    exact .inl hrel
  · rw [bind_ok hrun]
    refine (hg a m' hrun).1.imp (Lawful.trans hrel) fun ⟨hparks, hyields, hparked⟩ => ⟨hparks, ?_, ?_⟩
    · exact (Lawful.yields hm hrel).1 hyields
    · exact Lawful.parked_trans (Lawful.parked hm hrel) hparked

/-- What follows code on a flow in any case. -/
theorem attempt_follow {g g' : Except Stop α → Exec β} (hm : c.Good m) (hx : c.AlikeRunAt m x y)
    (hstop : ∀ s, s.isCatchable = false → ∀ m, g (.error s) m = (.error s, m))
    (hg : c.Good (x m).2 → c.AlikeRunAt (x m).2 (g (x m).1) (g' (x m).1))
    (hparks : Parking.parks (x m).1 → c.AlikeAt (x m).2 (g (x m).1) (g' (x m).1) ∧
      Parking.parks (g (x m).1 (x m).2).1) :
    c.AlikeRunAt m (attempt x >>= g) (attempt y >>= g') := by
  have hgood := Lawful.good hm (hx.parked hm)
  have hgr := hg hgood
  have hattempt : attempt x m = (.ok (x m).1, (x m).2) := rfl
  refine ⟨?_, fun hover => ?_⟩
  · rw [bind_ok hattempt]
    rcases hx.1 with hrel | ⟨hp, hyields, hparked⟩
    · refine hgr.1.imp (Lawful.trans hrel) fun ⟨hparks, hyields, hparked⟩ => ⟨hparks, ?_, ?_⟩
      · exact (Lawful.yields hm hrel).1 hyields
      · exact Lawful.parked_trans (Lawful.parked hm hrel) hparked
    · obtain ⟨hrest, hends⟩ := hparks hp
      exact .inr ⟨hends, hyields, Lawful.parked_trans hparked (Lawful.parked hgood hrest.1)⟩
  · rw [bind_ok hattempt] at hover
    have hsame := hx.2 fun h => hover (Lawful.past hgood (hgr.parked hgood) h)
    exact hsame.attempt_bind (fun s m hlax => ⟨m, hstop s (Lawful.passed hlax) m, hlax⟩) (hgr.2 hover)

end AlikeRunAt

end Runs

-- Operations of which no outcome gives up control are runs of this kind too.
theorem AlikeAt.bind {m : Machine} (hm : c.Good m) (hx : c.AlikeAt m x y)
    (hg : ∀ a m', x m = (.ok a, m') → c.AlikeAt m' (g a) (g' a)) :
    c.AlikeAt m (x >>= g) (y >>= g') := by
  let _ : Parking β := ⟨fun _ => false⟩
  obtain ⟨hrel, hsame⟩ := AlikeRunAt.bind hm hx fun a m' hrun => (hg a m' hrun).run
  exact ⟨hrel.resolve_right fun h => Bool.false_ne_true h.1, hsame⟩

namespace Alike

variable {g g' : α → Exec β} {l : List α}

theorem bind (hx : c.Alike x y) (hg : ∀ a, c.Alike (g a) (g' a)) :
    c.Alike (x >>= g) (y >>= g') := fun m hm => (hx m hm).bind hm fun a m' hrun => by
  have hrel := (hx m hm).1
  rw [hrun] at hrel
  exact hg a m' (Lawful.good_rel hm hrel)

theorem pure (a : α) : c.Alike (pure a) (pure a) := fun m _ => ⟨Lawful.refl m, fun _ => .inr rfl⟩

theorem throw (s : Stop) : c.Alike (throw s : Exec α) (throw s) :=
  fun m _ => ⟨Lawful.refl m, fun _ => .inr rfl⟩

theorem fail (f : Fault) : c.Alike (fail f : Exec α) (Exec.fail f) := throw _

theorem complain (e : Complaint) : c.Alike (complain e : Exec α) (Exec.complain e) := throw _

theorem internal (message : String) : c.Alike (internal message : Exec α) (Exec.internal message) :=
  throw _

theorem exhausted {y : Nat → Exec α} (hn : c.Enough 0 n')
    (hy : y 0 = MonadExcept.throw Stop.exhausted) :
    c.Alike (MonadExcept.throw Stop.exhausted) (y n') := by
  rcases hn with rfl | ⟨-, hlax⟩
  · rw [hy]
    exact throw _
  · exact fun m _ => ⟨Lawful.refl m, fun _ => .inl ⟨_, rfl, hlax m⟩⟩

theorem attempt_bind {g g' : Except Stop α → Exec β} (hx : c.Alike x y)
    (hstop : ∀ s, s.isCatchable = false → ∀ m, g (.error s) m = (.error s, m))
    (hg : ∀ r, c.Alike (g r) (g' r)) : c.Alike (attempt x >>= g) (attempt y >>= g') := by
  let _ : Parking α := ⟨fun _ => false⟩
  let _ : Parking β := ⟨fun _ => false⟩
  intro m hm
  obtain ⟨hrel, hsame⟩ := (hx m hm).run.attempt_follow hm hstop (fun hgood => (hg _ _ hgood).run)
    fun h => absurd h Bool.false_ne_true
  exact ⟨hrel.resolve_right fun h => Bool.false_ne_true h.1, hsame⟩

omit [c.Lawful] in
theorem ite [Decidable p] {x' y' : Exec α} (hx : c.Alike x y) (hx' : c.Alike x' y') :
    c.Alike (if p then x else x') (if p then y else y') := by
  split
  · exact hx
  · exact hx'

theorem first [Decidable p] {x y : Exec Unit} {g g' : Unit → Exec β} (hx : c.Alike x y)
    (hg : ∀ u, c.Alike (g u) (g' u)) :
    c.Alike (if p then x >>= g else g ()) (if p then y >>= g' else g' ()) :=
  ite (hx.bind hg) (hg ())

theorem mapM (h : ∀ a, c.Alike (g a) (g' a)) : c.Alike (l.mapM g) (l.mapM g') := by
  induction l with
  | nil => exact pure _
  | cons a l ih =>
    rw [List.mapM_cons, List.mapM_cons]
    exact (h a).bind fun _ => ih.bind fun _ => pure _

theorem foldlM {g g' : β → α → Exec β} (h : ∀ b a, c.Alike (g b a) (g' b a)) (b : β) :
    c.Alike (l.foldlM g b) (l.foldlM g' b) := by
  induction l generalizing b with
  | nil => exact pure _
  | cons a l ih =>
    rw [List.foldlM_cons, List.foldlM_cons]
    exact (h b a).bind fun b => ih b

theorem read {g : Machine → α} (hg : ∀ m, c.Good m → g (c.of m) = g m) :
    c.Alike (read g) (Exec.read g) := by
  refine fun m hm => ⟨Lawful.refl m, fun _ => .inr ?_⟩
  change (Except.ok (g (c.of m)), c.of m) = (.ok (g m), c.of m)
  rw [hg m hm]

theorem readFiber {f : FiberId} {g : Fiber → α} (hg : ∀ b budget, g { b with budget } = g b) :
    c.Alike (readFiber f g) (Exec.readFiber f g) := by
  refine read fun m _ => ?_
  obtain ⟨budget, hfiber⟩ := Lawful.fiber (c := c) m f
  rw [hfiber, hg]

theorem detached (hx : Detached x) : c.Alike x x := by
  refine fun m hm => ⟨Lawful.beside hm (hx.beside m), fun _ => .inr ?_⟩
  have hblind := hx.blind m ⟨c.image m.fibers, c.debug m.debug, c.events, Lawful.event⟩
  rw [of, of, (hx.beside m).fibers, hx.debug_eq m]
  exact hblind

theorem ofExcept (r : Except Fault α) : c.Alike (ofExcept r) (Exec.ofExcept r) :=
  detached (.ofExcept r)

theorem modifyFiber {f : FiberId} [c.Carries f] {u : Fiber → Fiber} (hrole : ∀ b, SameRole b (u b))
    (hsaved : ∀ b, (u b).savedIp = b.savedIp) (hframes : ∀ b, (u b).frames.size ≤ b.frames.size)
    (hu : ∀ b budget, u { b with budget } = { u b with budget }) :
    c.Alike (modifyFiber f u) (Exec.modifyFiber f u) := by
  refine fun m hm => ⟨Carries.onStacks hm (hrole _) (hsaved _)
    ((hframes _).trans (le_max_left _ _)), fun _ => .inr ?_⟩
  change (Except.ok (), (c.of m).withFiber f u) = (.ok (), c.of (m.withFiber f u))
  rw [of, of, withFiber, withFiber, Lawful.modify _ _ hu]

end Alike

section Runs

variable {m : Machine} [Parking α] [Parking β]

namespace AlikeRunAt

theorem followedBy {α : Type} {x y : Exec α} {g g' : α → Exec β} (hm : c.Good m) (hx : c.AlikeAt m x y)
    (hg : ∀ a m', x m = (.ok a, m') → c.Good m' → c.AlikeRunAt m' (g a) (g' a)) :
    c.AlikeRunAt m (x >>= g) (y >>= g') :=
  bind hm hx fun a m' hrun => hg a m' hrun <| by
    have hrel := hx.1
    rw [hrun] at hrel
    exact Lawful.good_rel hm hrel

theorem read {α : Type} {g : Machine → α} {k k' : α → Exec β} (hm : c.Good m)
    (hg : g (c.of m) = g m) (hk : c.AlikeRunAt m (k (g m)) (k' (g m))) :
    c.AlikeRunAt m (Exec.read g >>= k) (Exec.read g >>= k') := by
  have hread : c.AlikeAt m (Exec.read g) (Exec.read g) :=
    ⟨Lawful.refl m, fun _ => .inr (congrArg (fun a => (Except.ok a, c.of m)) hg)⟩
  refine bind hm hread fun a m' hrun => ?_
  obtain ⟨ha, rfl⟩ := Prod.mk.inj hrun
  exact Except.ok.inj ha ▸ hk

theorem readFiber {α : Type} {f : FiberId} {g : Fiber → α} {k k' : α → Exec β} (hm : c.Good m)
    (hg : ∀ b budget, g { b with budget } = g b)
    (hk : c.AlikeRunAt m (k (g (m.fiber f))) (k' (g (m.fiber f)))) :
    c.AlikeRunAt m (Exec.readFiber f g >>= k) (Exec.readFiber f g >>= k') := by
  obtain ⟨budget, hfiber⟩ := Lawful.fiber (c := c) m f
  exact read (g := fun m => g (m.fiber f)) hm (by rw [hfiber, hg]) hk

/-- What follows code on a flow. If that has given up control, the flow is not run any more. -/
theorem follow (hm : c.Good m) (hx : c.AlikeRunAt m x y)
    (hg : ∀ a m', x m = (.ok a, m') → c.Rel m m' → c.AlikeRunAt m' (g a) (g' a))
    (hparks : ∀ a m', x m = (.ok a, m') → Parking.parks (.ok a : Except Stop α) →
      c.AlikeAt m' (g a) (g' a) ∧ Parking.parks (g a m').1)
    (hstop : ∀ s, Parking.parks (.error s : Except Stop α) →
      Parking.parks (.error s : Except Stop β)) : c.AlikeRunAt m (x >>= g) (y >>= g') := by
  rcases hx.1 with hrel | ⟨hp, hyields, hparked⟩
  · exact bind hm ⟨hrel, hx.2⟩ fun a m' hrun => hg a m' hrun (by rw [hrun] at hrel; exact hrel)
  · have hgood (a : α) (m' : Machine) (hrun : x m = (.ok a, m')) : c.Good m' := by
      rw [hrun] at hparked
      exact Lawful.good hm hparked
    refine ⟨.inr ?_, SameAt.bind_unless hx.2 (fun a m' hrun => ?_) fun a m' hrun => ?_⟩
    · rcases hrun : x m with ⟨s | a, m'⟩ <;> rw [hrun] at hp hparked
      · rw [bind_error hrun]
        exact ⟨hstop s hp, hyields, hparked⟩
      · obtain ⟨hrest, hends⟩ := hparks a m' hrun hp
        rw [bind_ok hrun]
        exact ⟨hends, hyields, Lawful.parked_trans hparked (Lawful.parked (hgood a m' hrun) hrest.1)⟩
    all_goals obtain ⟨hrest, -⟩ := hparks a m' hrun (by rw [hrun] at hp; exact hp)
    · exact Lawful.past_rel (hgood a m' hrun) hrest.1
    · exact hrest.2

end AlikeRunAt

namespace AlikeRun

variable {g g' : α → Exec β}

omit [c.Lawful] in
theorem of (h : c.Alike x y) : c.AlikeRun x y := fun m hm => (h m hm).run

omit [c.Lawful] in
theorem alike [c.Frees] (h : c.AlikeRun x y) : c.Alike x y := fun m hm =>
  (h m hm).alikeAt fun _ _ => Frees.rel

theorem pure (a : α) : c.AlikeRun (pure a) (pure a) := of (.pure a)

theorem throw (s : Stop) : c.AlikeRun (throw s : Exec α) (throw s) := of (.throw s)

theorem fail (f : Fault) : c.AlikeRun (fail f : Exec α) (Exec.fail f) := throw _

theorem complain (e : Complaint) : c.AlikeRun (complain e : Exec α) (Exec.complain e) := throw _

theorem internal (message : String) :
    c.AlikeRun (internal message : Exec α) (Exec.internal message) := throw _

theorem exhausted {y : Nat → Exec α} (hn : c.Enough 0 n')
    (hy : y 0 = MonadExcept.throw Stop.exhausted) :
    c.AlikeRun (MonadExcept.throw Stop.exhausted) (y n') := of (.exhausted hn hy)

theorem bind {α : Type} {x y : Exec α} {g g' : α → Exec β} (hx : c.Alike x y)
    (hg : ∀ a, c.AlikeRun (g a) (g' a)) : c.AlikeRun (x >>= g) (y >>= g') := fun m hm =>
  .bind hm (hx m hm) fun a m' hrun => by
    have hrel := (hx m hm).1
    rw [hrun] at hrel
    exact hg a m' (Lawful.good_rel hm hrel)

omit [c.Lawful] in
theorem ite [Decidable p] {x' y' : Exec α} (hx : c.AlikeRun x y) (hx' : c.AlikeRun x' y') :
    c.AlikeRun (if p then x else x') (if p then y else y') := by
  split
  · exact hx
  · exact hx'

theorem first [Decidable p] {x y : Exec Unit} {g g' : Unit → Exec β} (hx : c.Alike x y)
    (hg : ∀ u, c.AlikeRun (g u) (g' u)) :
    c.AlikeRun (if p then x >>= g else g ()) (if p then y >>= g' else g' ()) :=
  ite (bind hx hg) (hg ())

theorem follow (hx : c.AlikeRun x y) (hg : ∀ a, c.AlikeRun (g a) (g' a))
    (hparks : ∀ a, Parking.parks (.ok a : Except Stop α) →
      c.Alike (g a) (g' a) ∧ ∀ m, Parking.parks (g a m).1)
    (hstop : ∀ s, Parking.parks (.error s : Except Stop α) →
      Parking.parks (.error s : Except Stop β)) :
    c.AlikeRun (x >>= g) (y >>= g') := fun m hm =>
  (hx m hm).follow hm (fun a m' _ hrel => hg a m' (Lawful.good_rel hm hrel))
    (fun a m' hrun hp => by
      have hparked := (hx m hm).parked hm
      rw [hrun] at hparked
      exact ⟨(hparks a hp).1 m' (Lawful.good hm hparked), (hparks a hp).2 m'⟩) hstop

theorem map (hx : c.AlikeRun x y) (h : α → β)
    (hparks : ∀ r : Except Stop α, Parking.parks r → Parking.parks (r.map h)) :
    c.AlikeRun (x >>= fun a => Pure.pure (h a)) (y >>= fun a => Pure.pure (h a)) :=
  hx.follow (fun a => pure (h a)) (fun a hp => ⟨.pure _, fun _ => hparks (.ok a) hp⟩)
    fun s hp => hparks (.error s) hp

theorem attempt_bind {α : Type} {x y : Exec α} {g g' : Except Stop α → Exec β} (hx : c.Alike x y)
    (hstop : ∀ s, s.isCatchable = false → ∀ m, g (.error s) m = (.error s, m))
    (hg : ∀ r, c.AlikeRun (g r) (g' r)) : c.AlikeRun (attempt x >>= g) (attempt y >>= g') := by
  let _ : Parking α := ⟨fun _ => false⟩
  exact fun m hm => (hx m hm).run.attempt_follow hm hstop (hg _ _)
    fun h => absurd h Bool.false_ne_true

end AlikeRun

end Runs

section Stacks

variable {f : FiberId} [c.Carries f]

/-- A flow gives up control: it saves where to go on and is not run any more. -/
theorem AlikeRunAt.park {m : Machine} [Parking α] (hm : c.Good m) (hyields : c.Yields m)
    (savedIp : Option Nat) (hx : c.Alike x y) (hparks : ∀ m, Parking.parks (x m).1) :
    c.AlikeRunAt m (modifyFiber f (fun b => { b with savedIp }) >>= fun _ => x)
      (modifyFiber f (fun b => { b with savedIp }) >>= fun _ => y) := by
  have hparked := Carries.parks (f := f) savedIp hm
  have hrest := hx _ (Lawful.good hm hparked)
  have hof : modifyFiber f (fun b => { b with savedIp }) (c.of m) =
      (.ok (), c.of (m.withFiber f fun b => { b with savedIp })) := by
    rw [of, of, modifyFiber_apply, withFiber, withFiber, Lawful.modify]
    exact fun _ _ => rfl
  rw [AlikeRunAt, SameAt, bind_ok (modifyFiber_apply _ _ _), bind_ok hof]
  exact ⟨.inr ⟨hparks _, hyields, Lawful.parked_trans hparked
    (Lawful.parked (Lawful.good hm hparked) hrest.1)⟩, hrest.2⟩

theorem alike_push (v : Value) : c.Alike (push f v) (push f v) :=
  .modifyFiber (fun _ => .stacks ..) (fun _ => rfl) (fun _ => le_rfl)
    fun _ _ => rfl

theorem alike_pushAll (vs : List Value) : c.Alike (pushAll f vs) (pushAll f vs) :=
  .modifyFiber (fun _ => .stacks ..) (fun _ => rfl) (fun _ => le_rfl)
    fun _ _ => rfl

theorem alike_truncate (n : Nat) : c.Alike (truncate f n) (truncate f n) :=
  .modifyFiber (fun _ => .stacks ..) (fun _ => rfl) (fun _ => le_rfl)
    fun _ _ => rfl

theorem alike_modifyFrame (g : Frame → Frame) : c.Alike (modifyFrame f g) (modifyFrame f g) :=
  .modifyFiber (fun _ => .stacks ..) (fun _ => rfl)
    (fun _ => Array.size_modify.le) fun _ _ => rfl

theorem alikeAt_pushFrame {m : Machine} (hm : c.Good m)
    (hroom : (m.fiber f).frames.size < m.options.maxCallDepth) (frame : Frame) :
    c.AlikeAt m (pushFrame f frame) (pushFrame f frame) := by
  refine ⟨Carries.onStacks hm (.stacks ..) rfl ?_, fun _ => .inr ?_⟩
  · rw [Array.size_push]
    exact hroom.trans_le (le_max_right _ _)
  · rw [pushFrame, modifyFiber_apply, modifyFiber_apply, of, of, withFiber,
      withFiber, Lawful.modify _ _ fun _ _ => rfl]

theorem alike_pop : c.Alike (pop f) (pop f) := by
  refine .bind (.readFiber fun _ _ => rfl) fun v? => ?_
  cases v? with
  | none => exact .internal _
  | some v =>
    exact .bind (.modifyFiber (fun _ => .stacks ..) (fun _ => rfl)
      (fun _ => le_rfl) fun _ _ => rfl) fun _ => .pure _

omit [c.Carries f] in
theorem alike_peek (depth : Nat) : c.Alike (peek f depth) (peek f depth) :=
  .bind (.readFiber fun _ _ => rfl) fun _ => .ite (.readFiber fun _ _ => rfl) (.internal _)

theorem alike_poke (depth : Nat) (v : Value) : c.Alike (poke f depth v) (poke f depth v) :=
  .bind (alike_peek depth) fun _ =>
    .modifyFiber (fun _ => .stacks ..) (fun _ => rfl) (fun _ => le_rfl)
      fun _ _ => rfl

theorem alike_drop (n : Nat) : c.Alike (drop f n) (drop f n) :=
  .bind (.readFiber fun _ _ => rfl) fun _ => .ite (.internal _) (alike_truncate _)

theorem alike_popMany (n : Nat) : c.Alike (popMany f n) (popMany f n) :=
  .bind (.readFiber fun _ _ => rfl) fun _ => .ite (.internal _)
    (.bind (.readFiber fun _ _ => rfl) fun _ => .bind (alike_truncate _) fun _ => .pure _)

omit [c.Carries f] in
theorem alike_topFrame : c.Alike (topFrame f) (topFrame f) := by
  refine .bind (.readFiber fun _ _ => rfl) fun frame => ?_
  cases frame with
  | none => exact .internal _
  | some frame => exact .pure _

theorem alike_popFrame : c.Alike (popFrame f) (popFrame f) :=
  .bind alike_topFrame fun _ =>
    .bind (.modifyFiber (fun _ => .stacks ..) (fun _ => rfl)
      (fun _ => Array.size_pop.trans_le (Nat.sub_le _ _)) fun _ _ => rfl) fun _ => .pure _

theorem alike_popArguments : c.Alike (popArguments f) (popArguments f) := by
  refine .bind alike_pop fun v => ?_
  cases v with
  | number x => exact .ite (.ite (alike_drop _) (.throw _)) (.internal _)
  | _ => exact .internal _

end Stacks

section Views

variable (m : Machine) (f : FiberId)

omit [c.Lawful] in
theorem callRowsFrom_of (frames : List Frame) (location : Option Location) :
    (c.of m).callRowsFrom frames location = m.callRowsFrom frames location := by
  induction frames generalizing location with
  | nil => rfl
  | cons frame outer ih => exact congrArg (m.callRows frame location ++ ·) (ih _)

theorem callStack_of (location : Option Location) :
    (c.of m).callStack f location = m.callStack f location := by
  obtain ⟨budget, hfiber⟩ := Lawful.fiber (c := c) m f
  rw [callStack, hfiber]
  exact callRowsFrom_of m _ location

theorem locationAtLevel_of (location : Option Location) (level : Nat) :
    (c.of m).locationAtLevel f location level = m.locationAtLevel f location level := by
  rw [locationAtLevel, callStack_of, locationAtLevel]

theorem coroutineStatus_of (id : CoroutineId) :
    (c.of m).coroutineStatus id = m.coroutineStatus id := by
  have hstatus (f : FiberId) : ((c.of m).fiber f).status = (m.fiber f).status := by
    obtain ⟨budget, hfiber⟩ := Lawful.fiber (c := c) m f
    rw [hfiber]
  have hheap : (c.of m).heap = m.heap := rfl
  simp only [coroutineStatus, hheap, hstatus]

theorem observe_of : (c.of m).observe = m.observe := by
  have hheap : (c.of m).heap = m.heap := rfl
  funext v
  exact snapshot_congr hheap (coroutineStatus_of m) _ v

end Views

end Likeness

end ScriptMachine
