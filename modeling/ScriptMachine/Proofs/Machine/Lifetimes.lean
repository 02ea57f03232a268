import ScriptMachine.Proofs.Machine.LifeCycle
import ScriptMachine.Session

namespace ScriptMachine

open Exec Relation Likeness

variable {m : Machine}

section Lives

variable {m m' : Machine} {f : FiberId} {co : CoroutineId}

theorem Lives.dead (h : Lives m m') (hf : (m.fiber f).status = .dead) :
    (m'.fiber f).status = .dead := by
  induction h with
  | refl => exact hf
  | @tail m' _ hlives hstep ih =>
    have hlt : f.index < m'.fibers.size := Machine.lt_size_of_status (by rw [ih]; nofun)
    rcases hstep.status f hlt with h | h
    · exact h.trans ih
    · rw [ih] at h
      cases h

theorem Lives.spent (h : Lives m m') (hco : co.index < m.heap.coroutines.size)
    (hspent : m.heap.coroutine co = .spent) :
    co.index < m'.heap.coroutines.size ∧ m'.heap.coroutine co = .spent := by
  induction h with
  | refl => exact ⟨hco, hspent⟩
  | tail _ hstep ih =>
    refine ⟨ih.1.trans_le hstep.handles, ?_⟩
    rcases hstep.handle co ih.1 with h | h
    · exact h.trans ih.2
    · rw [ih.2] at h
      cases h

end Lives

/-- A change that has nothing to do with the lives of coroutines. -/
structure SameLives (m m' : Machine) : Prop where
  active : m'.active = m.active
  size : m'.fibers.size = m.fibers.size
  status : ∀ f, (m'.fiber f).status = (m.fiber f).status
  coroutines : m'.heap.coroutines = m.heap.coroutines

/-- A machine between two others in the lives of the coroutines. -/
structure Between (m m' m'' : Machine) : Prop where
  attuned : m'.Attuned
  before : Lives m m'
  after : Lives m' m''

section Moments

variable {α : Type} {x : Engine → Exec α} (hx : Heeds (fun _ _ => True) x) {m m' : Machine}
  (hm : m.Attuned) {n k : Nat} {r : Request}
include hx hm

/-- What holds of the requests of a run holds of those that come up in them. -/
theorem between_of_reached (h : Reached n x m k r m') :
    Between m m' (x (engine n) m).2 ∧ Lives (engine k r m').2 (x (engine n) m).2 := by
  obtain ⟨hattuned, hbefore, hserved⟩ := hx.of_reached hm h
  exact ⟨⟨hattuned, hbefore.lives, (engine_lives hattuned k r).2.trans hserved.lives⟩, hserved.lives⟩

omit hx in
theorem between_of_mem_turns {t : Turn} (ht : t ∈ turns (engine n) n m r) :
    Between m t.machine (engine (n + 1) r m).2 := by
  have hE := tracking_engine (fun _ _ => True) m ∅ n
  have hgood : (living m ∅).Good m := ⟨hm, .refl m⟩
  obtain h | ⟨function, arguments, rfl⟩ | ⟨f, arguments, rfl, hf, haccepts, h⟩ :=
    turns_cases (engine n) n m r
  · exact (List.not_mem_nil (h ▸ ht)).elim
  · obtain ⟨hbefore, hafter⟩ := rel_of_mem_drivenTurns hE (good_prepared hgood)
      (alike_beginCall hE (.inl rfl) function arguments).alike ht
    have hlast := (callFunction_trails hE n hgood function arguments).2
    have hprepared := (good_prepared hgood).2.trans hbefore.2
    exact ⟨hprepared.lives.attuned hm, hprepared.lives, (hafter.2.trans hlast).lives⟩
  · rw [h] at ht
    have hbegun := good_begun hgood hf
    obtain ⟨hbefore, hafter⟩ := rel_of_mem_drivenTurns hE hbegun
      (alike_beginResume hE (.inl rfl) arguments _) ht
    have hlast := resume_trails hE n hgood hf haccepts
    have hstarted := hbegun.2.trans hbefore.2
    exact ⟨hstarted.lives.attuned hm, hstarted.lives, (hafter.2.trans hlast).lives⟩

omit hx in
theorem pairwise_turns (r : Request) :
    (turns (engine n) n m r).Pairwise fun t t' => Lives t.machine t'.machine := by
  have hE := tracking_engine (fun _ _ => True) m ∅ n
  have hgood : (living m ∅).Good m := ⟨hm, .refl m⟩
  obtain h | ⟨function, arguments, rfl⟩ | ⟨f, arguments, rfl, hf, haccepts, h⟩ :=
    turns_cases (engine n) n m r
  · rw [h]
    exact .nil
  · exact (pairwise_drivenTurns hE (good_prepared hgood)
      (alike_beginCall hE (.inl rfl) function arguments).alike).imp fun h => h.2.lives
  · rw [h]
    exact (pairwise_drivenTurns hE (good_begun hgood hf)
      (alike_beginResume hE (.inl rfl) arguments _)).imp fun h => h.2.lives

theorem between_of_userCode (h : UserCode n x m m') : Between m m' (x (engine n) m).2 := by
  cases h with
  | request h => exact (between_of_reached hx hm h).1
  | turn h ht =>
    obtain ⟨hbetween, hserved⟩ := between_of_reached hx hm h
    have hturn := between_of_mem_turns hbetween.attuned ht
    exact ⟨hturn.attuned, hbetween.before.trans hturn.before, hturn.after.trans hserved⟩

end Moments

/-- A callback coroutine is spent before its function is invoked. From then on, also inside the
function, resuming it does nothing. -/
theorem callback_once {co : CoroutineId} {id : NativeId} (h : m.heap.coroutine co = .callback id)
    (E : Engine) (site : CallSite) (arguments : List Value) :
    ∃ m', resumeCoroutine E site co arguments m = E (.invoke id site arguments false) m' ∧
      ∀ m'', Lives m' m'' → ∀ E' site' arguments', resumeCoroutine E' site' co arguments' m'' =
        (.error (.fault (.complain .resumeDead)), m'') := by
  have hco : co.index < m.heap.coroutines.size := by
    by_contra hco
    rw [Heap.coroutine, Array.getD_eq_getD_getElem?, Array.getElem?_eq_none (by omega)] at h
    cases h
  refine ⟨{ m with heap := m.heap.setCoroutine co .spent }, ?_, fun m'' hlives E' site' arguments' => ?_⟩
  · have hread : Exec.read (fun m => m.heap.coroutine co) m = (.ok (.callback id), m) :=
      congrArg (fun body => (Except.ok body, m)) h
    rw [resumeCoroutine, bind_ok hread]
    rfl
  · have hsize : co.index < (m.heap.setCoroutine co .spent).coroutines.size :=
      (Array.size_setIfInBounds ..).symm ▸ hco
    have hspent := (hlives.spent hsize (by
      rw [Heap.coroutine, Heap.setCoroutine, Array.getD_eq_getD_getElem?,
        Array.getElem?_setIfInBounds, if_pos rfl, if_pos hco]
      rfl)).2
    have hread : Exec.read (fun m => m.heap.coroutine co) m'' = (.ok .spent, m'') :=
      congrArg (fun body => (Except.ok body, m'')) hspent
    rw [resumeCoroutine, bind_ok hread]
    rfl

/-- Only flows that wait can be resumed or closed. -/
theorem engine_unchanged {f : FiberId} (hf : (m.fiber f).status = .main ∨
    (m.fiber f).status = .running ∨ (m.fiber f).status = .dead) (n : Nat) (arguments : List Value) :
    (engine n (.resume f arguments) m).2 = m ∧ (engine n (.close f) m).2 = m := by
  cases n with
  | zero => exact ⟨rfl, rfl⟩
  | succ n =>
    constructor
    · have hres : ¬ (m.fiber f).status.isResumable := by
        rcases hf with h | h | h <;> rw [h] <;> decide
      change (Exec.resume (engine n) n f arguments m).2 = m
      rw [resume_refused hres]
    · change (Exec.close (engine n) n f m).2 = m
      rw [close_apply]
      rcases hf with h | h | h <;> rw [h]

namespace Session

/-- What the host does to coroutines, and whatever else it does that has nothing to do with
them. -/
inductive Operation where
  | create (function : Value)
  | resume (co : CoroutineId) (arguments : List Value)
  | close (co : CoroutineId)
  | call (function : Value) (arguments : List Value)
  | recycle (co : CoroutineId) (function : Value)
  | other (x : Exec Value) (h : Preserves SameLives x)

namespace Operation

def run (E : Engine) : Operation → Exec Value
  | create function => Session.create function
  | resume co arguments => do E (.resume (← fiberOf co) arguments)
  | close co => closeCoroutine E co
  | call function arguments => E (.call function arguments)
  | recycle co function => Session.recycle co function
  | other x _ => x

def runAll (n : Nat) (ops : List Operation) (m : Machine) : Machine :=
  ops.foldl (fun m op => (op.run (engine n) m).2) m

example (n : Nat) (co : CoroutineId) (arguments : List Value) :
    (Operation.resume co arguments).run (engine n) = Session.resume n co arguments := rfl

theorem recycle_cases (co : CoroutineId) (function : Value) (m : Machine) :
    (Exec.recycle co function m).2 = m ∨ ∃ f id, m.heap.coroutine co = .fiber f ∧
      (m.fiber f).status = .dead ∧ (Exec.recycle co function m).2 =
        { m.withFiber f fun b => { b with values := #[], frames := #[] } with
          heap := m.heap.setCoroutine co .recycled }.spawned (.closure id) := by
  have hread : Exec.read (fun m => m.heap.coroutine co) m = (.ok (m.heap.coroutine co), m) := rfl
  rw [Exec.recycle, bind_ok hread]
  cases m.heap.coroutine co with
  | fiber f =>
    dsimp only
    rw [bind_ok (readFiber_apply _ _ _)]
    by_cases hdead : (m.fiber f).status = .dead
    · rw [if_neg (not_not.2 hdead)]
      cases function with
      | closure id => exact .inr ⟨f, id, rfl, hdead, rfl⟩
      | _ => exact .inl rfl
    · rw [if_pos hdead]
      exact .inl rfl
  | _ => exact .inl rfl

theorem lives_recycle (hm : m.Attuned) (co : CoroutineId) (function : Value) :
    (Exec.recycle co function m).2.active = m.active ∧ Lives m (Exec.recycle co function m).2 := by
  obtain h | ⟨f, id, hbody, hdead, h⟩ := recycle_cases co function m <;> rw [h]
  · exact ⟨rfl, .refl⟩
  · let cleared := m.withFiber f fun b => { b with values := #[], frames := #[] }
    have hcleared : Advance m cleared := hm.advance_withFiber rfl
    have hmove : (cleared.heap.coroutine co).Moves cleared .recycled := by
      have hsame : cleared.heap.coroutine co = .fiber f := hbody
      rw [hsame]
      exact .recycle f ((Machine.status_withFiber rfl f).trans hdead)
    have hrecycled := hcleared.attuned.advance_setCoroutine hmove
    exact ⟨rfl, ((ReflTransGen.single hcleared).tail hrecycled).tail
      (hrecycled.attuned.advance_spawned (.closure id))⟩

/-- A likeness takes along what the host does, if it does so with what the library has no part
in. -/
theorem alike_run {c : Likeness} [c.Lawful] {E E' : Engine} (hE : c.Agree E E') (op : Operation)
    (hrecycle : ∀ co function, op = .recycle co function →
      c.Alike (Exec.recycle co function) (Exec.recycle co function))
    (hother : ∀ x h, op = .other x h → c.Alike x x) : c.Alike (op.run E) (op.run E') := by
  cases op with
  | create function => exact .bind (alike_createCoroutine function) fun _ => .pure _
  | resume co arguments => exact .bind (.detached (detached_fiberOf co)) fun _ => hE _
  | close co => exact alike_closeCoroutine hE co
  | call function arguments => exact hE _
  | recycle co function => exact .bind (hrecycle co function rfl) fun _ => .pure _
  | other x h => exact hother x h rfl

theorem lives_other {x : Exec Value} (h : Preserves SameLives x) (hm : m.Attuned) :
    (x m).2.active = m.active ∧ Lives m (x m).2 :=
  ⟨(h m).active, .single (hm.advance_of_same
    (fun f => iff_of_eq (congrArg (f ∈ ·) (h m).active)) (h m).size (h m).status (h m).coroutines)⟩

theorem heeds_run (op : Operation) : Heeds (fun _ _ => True) (op.run ·) := by
  refine fun _ _ _ _ hE => alike_run hE op (fun co function _ _ hm => ⟨?_, fun _ => .inr rfl⟩)
    fun _ h _ _ hm => ⟨?_, fun _ => .inr rfl⟩
  · have hlives := lives_recycle hm.1 co function
    exact ⟨hlives.1, hlives.2, fun _ => trivial⟩
  · have hlives := lives_other h hm.1
    exact ⟨hlives.1, hlives.2, fun _ => trivial⟩

theorem lives_runAll (hm : m.Attuned) (n : Nat) (ops : List Operation) :
    Lives m (runAll n ops m) := by
  induction ops generalizing m with
  | nil => exact .refl
  | cons op ops ih =>
    have hlives := ((heeds_run op).rel hm n).2.lives
    exact hlives.trans (ih (Lives.attuned hlives hm))

end Operation

open Operation

/-- The life cycle of coroutines, over any operations of the host and whatever they lead to. In
every machine in which user code runs, the flows that are running are those that are active. All
moves are such that a flow or a handle can make. -/
theorem coroutines_live {m : Machine} (hm : m.Attuned) (n : Nat) (ops : List Operation)
    (op : Operation) :
    let start := runAll n ops m
    let final := (op.run (engine n) start).2
    (final.active = start.active ∧ Between m start final) ∧
    (∀ m', UserCode n (op.run ·) start m' → Between start m' final) ∧
    (∀ k r m', Reached n (op.run ·) start k r m' →
      (engine k r m').2.active = m'.active ∧ Between m' (engine k r m').2 final) ∧
    (∀ k r m', Reached n (op.run ·) start (k + 1) r m' →
      (turns (engine k) k m' r).Pairwise fun t t' => Lives t.machine t'.machine) ∧
    (∀ k m' f, (m'.fiber f).status = .main ∨ (m'.fiber f).status = .running ∨
        (m'.fiber f).status = .dead → ∀ arguments,
      (engine k (.resume f arguments) m').2 = m' ∧ (engine k (.close f) m').2 = m') ∧
    (∀ m' co id, m'.heap.coroutine co = .callback id → ∀ E site arguments,
      ∃ invoked, resumeCoroutine E site co arguments m' =
          E (.invoke id site arguments false) invoked ∧
        ∀ later, Lives invoked later → ∀ E site arguments,
          resumeCoroutine E site co arguments later =
            (.error (.fault (.complain .resumeDead)), later)) := by
  intro start final
  have hlives := lives_runAll hm n ops
  have hstart : start.Attuned := hlives.attuned hm
  have hop := (heeds_run op).rel hstart n
  refine ⟨⟨hop.1, hstart, hlives, hop.2.lives⟩, fun m' h => between_of_userCode (heeds_run op) hstart h,
    fun k r m' h => ?_,
    fun k r m' h => pairwise_turns (between_of_reached (heeds_run op) hstart h).1.attuned r,
    fun k m' f hf arguments => engine_unchanged hf k arguments,
    fun m' co id h E site arguments => callback_once h E site arguments⟩
  obtain ⟨hbetween, hserved⟩ := between_of_reached (heeds_run op) hstart h
  obtain ⟨hactive, hlives⟩ := engine_lives hbetween.attuned k r
  exact ⟨hactive, Lives.attuned hlives hbetween.attuned, hlives, hserved⟩

theorem attuned_of_main {b : Fiber} (hfibers : m.fibers = #[b]) (hb : b.status = .main)
    (hactive : m.active = []) : m.Attuned := by
  have hstatus (f : FiberId) : (m.fiber f).status = .main := by
    rw [Machine.fiber, hfibers, Array.getD_eq_getD_getElem?]
    obtain ⟨_ | i⟩ := f
    · exact hb
    · rfl
  refine ⟨⟨by simp [hfibers], hstatus _⟩, fun f => ?_⟩
  rw [hstatus, hactive]
  exact iff_of_false nofun (List.not_mem_nil)

theorem attuned_start (o : Options) : (start o).Attuned := attuned_of_main rfl rfl rfl

/-- A machine with a function that yields once. -/
def yielding : Machine where
  code := { instructions := #[{ op := .preamble },
    { op := .literal, value := some (.native ⟨0⟩) },
    { op := .call, number := 0 },
    { op := .ret, number := 1 }] }
  heap := {
    closures := #[{ entry := 0 }]
    natives := #[{ name := "yield", behavior := .builtin .yield }]
    coroutines := #[.fiber Machine.mainFiber] }
  fibers := #[{ status := .main, owner := ⟨0⟩ }]

theorem attuned_yielding : yielding.Attuned := attuned_of_main rfl rfl rfl

theorem coroutines_live_yielding : yielding.Attuned ∧
    let start := runAll 10 [.create (.closure ⟨0⟩)] yielding
    let final := ((Operation.resume ⟨1⟩ []).run (engine 10) start).2
    (start.fiber ⟨1⟩).status = .notStarted ∧ (final.fiber ⟨1⟩).status = .suspended ∧
      final.active = start.active ∧ Between yielding start final :=
  ⟨attuned_yielding, by decide +kernel, by decide +kernel,
    (coroutines_live attuned_yielding 10 [.create (.closure ⟨0⟩)] (.resume ⟨1⟩ [])).1⟩

end Session

end ScriptMachine
