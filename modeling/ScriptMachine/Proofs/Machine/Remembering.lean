import ScriptMachine.Proofs.Machine.Uncaught

namespace ScriptMachine

open Exec Relation Machine Likeness

variable {u : Fiber → Fiber} {m' m : Machine}

/-- What is kept of a flow over some time. One that is dead stays so, with what it died of. One that
has not been started has died of nothing. -/
structure Fiber.Remembers (b b' : Fiber) : Prop where
  dead : b.status = .dead → b'.status = .dead ∧ b'.closeError = b.closeError
  fresh : b'.status = .notStarted →
    b'.closeError = .nil ∨ b.status = .notStarted ∧ b'.closeError = b.closeError

namespace Fiber.Remembers

variable {b b' b'' : Fiber}

theorem of_same (hstatus : b'.status = b.status) (herror : b'.closeError = b.closeError) :
    b.Remembers b' :=
  ⟨fun h => ⟨hstatus.trans h, herror⟩, fun h => .inr ⟨hstatus ▸ h, herror⟩⟩

theorem refl (b : Fiber) : b.Remembers b := of_same rfl rfl

theorem trans (h : b.Remembers b') (h' : b'.Remembers b'') : b.Remembers b'' := by
  refine ⟨fun hdead => ?_, fun hfresh => ?_⟩
  · obtain ⟨hdead', herror⟩ := h.dead hdead
    obtain ⟨hdead'', herror'⟩ := h'.dead hdead'
    exact ⟨hdead'', herror'.trans herror⟩
  · rcases h'.fresh hfresh with hnil | ⟨hfresh', herror⟩
    · exact .inl hnil
    · rcases h.fresh hfresh' with hnil | ⟨hstart, herror'⟩
      · exact .inl (herror.trans hnil)
      · exact .inr ⟨hstart, herror.trans herror'⟩

theorem of_moved (hb : b.status ≠ .dead) (hb' : b'.status ≠ .notStarted) : b.Remembers b' :=
  ⟨fun h => absurd h hb, fun h => absurd h hb'⟩

end Fiber.Remembers

instance : Fiber.Lasting Fiber.Remembers where
  trans := .trans
  same := .of_same
  moved := .of_moved
  fresh hb herror := ⟨fun h => by simp [hb] at h, fun _ => .inl herror⟩

def Machine.Remembers (m m' : Machine) : Prop := ∀ f, (m.fiber f).Remembers (m'.fiber f)

/-- No flow that has not been started has died of anything. -/
def Machine.Fresh (m : Machine) : Prop :=
  ∀ f, (m.fiber f).status = .notStarted → (m.fiber f).closeError = .nil

namespace Machine.Remembers

variable {m m' m'' : Machine} {f : FiberId}

theorem refl (m : Machine) : m.Remembers m := fun _ => .refl _

theorem trans (h : m.Remembers m') (h' : m'.Remembers m'') : m.Remembers m'' :=
  fun f => (h f).trans (h' f)

theorem fresh (h : m.Remembers m') (hm : m.Fresh) : m'.Fresh := by
  intro f hf
  rcases (h f).fresh hf with hnil | ⟨hfresh, herror⟩
  · exact hnil
  · exact herror.trans (hm f hfresh)

end Machine.Remembers

def Turn.round (t : Turn) (f : FiberId) (E : Engine) : Exec Round :=
  Exec.round E f t.fuel t.limit t.executed t.ip

theorem heeds_round {P : Fiber → Fiber → Prop} [Fiber.Lasting P] (t : Turn) (f : FiberId) :
    Heeds P (t.round f) :=
  fun _ _ _ _ hE _ hm => (alike_round (f := f) hE (.inl rfl) t.ip t.limit t.executed hm
    fun _ => trivial).alikeAt fun _ _ h => h

section Turns

variable {f : FiberId} {m : Machine} (hm : m.Attuned) {n : Nat} {limit : Option Nat}
include hm

theorem remembers_of_mem_trace {k executed ip : Nat} {t : Turn}
    (ht : t ∈ trace (engine k) f n limit executed ip m) :
    t.machine.Attuned ∧ m.Remembers t.machine := by
  have hrel := (rel_of_mem_trace (tracking_engine Fiber.Remembers m ∅ k) ⟨hm, .refl m⟩
    (fun _ => trivial) ht).1
  exact ⟨hrel.2.lives.attuned hm, hrel.2.follows⟩

/-- Between two turns of a loop the first one comes to its end. -/
theorem pairwise_trace_round {k executed ip : Nat} :
    (trace (engine k) f n limit executed ip m).Pairwise fun t t' =>
      t.machine.Attuned ∧ (t.round f (engine k) t.machine).2.Remembers t'.machine := by
  induction n generalizing m executed ip limit with
  | zero => exact .nil
  | succ n ih =>
    rw [trace, List.pairwise_cons]
    have hround := ((heeds_round (P := fun _ _ => True) ⟨n, limit, executed, ip, m⟩ f).rel hm k).2.lives
    rcases hrun : Exec.round (engine k) f n limit executed ip m with ⟨s | r, m'⟩
    · exact ⟨List.forall_mem_nil _, .nil⟩
    · rw [Turn.round, hrun] at hround
      have hm' := hround.attuned hm
      cases r with
      | again limit' ip' =>
        refine ⟨fun t ht => ⟨hm, ?_⟩, ih hm'⟩
        rw [Turn.round, hrun]
        exact (remembers_of_mem_trace hm' ht).2
      | leave => exact ⟨List.forall_mem_nil _, .nil⟩

theorem turns_eq_trace (n : Nat) (r : Request) : turns (engine n) n m r = [] ∨
    ∃ m' limit ip, m'.Attuned ∧ m.Remembers m' ∧
      turns (engine n) n m r = trace (engine n) (r.flow m) n limit 0 ip m' := by
  have hE := tracking_engine Fiber.Remembers m ∅ n
  have hgood : (tracking Fiber.Remembers m ∅).Good m := ⟨hm, .refl m⟩
  -- Whatever leads to the loop, the machine is in order there.
  have hdriven {f : FiberId} {m' : Machine} {x : Exec Resumption} (hm' : (tracking Fiber.Remembers m ∅).Good m')
      (hx : (tracking Fiber.Remembers m ∅).Alike x x) : drivenTurns (engine n) f n (x m') = [] ∨
        ∃ m'' limit ip, m''.Attuned ∧ m.Remembers m'' ∧
          drivenTurns (engine n) f n (x m') = trace (engine n) f n limit 0 ip m'' := by
    have hrel := (hx m' hm').1
    rcases hrun : x m' with ⟨s | ip | _ | _, m''⟩ <;> rw [hrun] at hrel
    · exact .inl rfl
    · exact .inr ⟨m'', _, ip, hrel.2.lives.attuned hm'.1, (hm'.2.trans hrel.2).follows, rfl⟩
    · exact .inl rfl
    · exact .inl rfl
  obtain h | ⟨function, arguments, rfl⟩ | ⟨f, arguments, rfl, hf, -, h⟩ :=
    turns_cases (engine n) n m r
  · exact .inl h
  · exact hdriven (good_prepared hgood)
      (alike_beginCall (f := m.currentFiber) hE (.inl rfl) function arguments).alike
  · rw [h]
    exact hdriven (good_begun hgood hf)
      (alike_beginResume (f := f) hE (.inl rfl) arguments _)

theorem remembers_of_mem_turns {r : Request} {t : Turn} (ht : t ∈ turns (engine n) n m r) :
    t.machine.Attuned ∧ m.Remembers t.machine := by
  rcases turns_eq_trace hm n r with h | ⟨m', limit, ip, hm', hbefore, h⟩ <;> rw [h] at ht
  · cases ht
  · have hturn := remembers_of_mem_trace hm' ht
    exact ⟨hturn.1, hbefore.trans hturn.2⟩

theorem pairwise_turns_round (r : Request) : (turns (engine n) n m r).Pairwise fun t t' =>
    t.machine.Attuned ∧ (t.round (r.flow m) (engine n) t.machine).2.Remembers t'.machine := by
  rcases turns_eq_trace hm n r with h | ⟨m', limit, ip, hm', -, h⟩ <;> rw [h]
  · exact .nil
  · exact pairwise_trace_round hm'

end Turns

namespace Session

namespace Operation

/-- Whatever else the host does leaves it alone how coroutines have ended. -/
def Mindful : Operation → Prop
  | other x _ => Preserves Remembers x
  | _ => True

theorem remembers_recycle (co : CoroutineId) (function : Value) (m : Machine) :
    m.Remembers (Exec.recycle co function m).2 := by
  obtain h | ⟨f, id, -, -, h⟩ := recycle_cases co function m <;> rw [h]
  · exact .refl m
  · have hcleared : m.Remembers (m.withFiber f fun b => { b with values := #[], frames := #[] }) :=
      Follows.withFiber (.of_same rfl rfl)
    refine hcleared.trans (.trans ?_ (Follows.spawned _ (.closure id)))
    exact Follows.of_fibers rfl

theorem heeds_run_of_mindful {op : Operation} (hop : op.Mindful) : Heeds Fiber.Remembers (op.run ·) := by
  refine fun start past E E' hE => alike_run hE op (fun co function _ m hm => ⟨?_, fun _ => .inr rfl⟩) ?_
  · have hlives := lives_recycle hm.1 co function
    exact ⟨hlives.1, hlives.2, remembers_recycle co function m⟩
  · rintro x h rfl m hm
    have hlives := lives_other h hm.1
    exact ⟨⟨hlives.1, hlives.2, hop m⟩, fun _ => .inr rfl⟩

end Operation

/-- One moment of a session comes after another one. -/
inductive Then : Machine → Machine → Prop
  /-- The host does something. -/
  | done {op : Operation} {m} (n : Nat) (hop : op.Mindful) : Then m (op.run (engine n) m).2
  /-- A request comes up meanwhile, at any depth. -/
  | comes {n m k r m'} {op : Operation} (hop : op.Mindful) (h : Reached n (op.run ·) m k r m') : Then m m'
  /-- A request has been served. -/
  | served {n m k r m'} {op : Operation} (hop : op.Mindful) (hm : m.Attuned) (h : Reached n (op.run ·) m k r m') :
      Then (engine k r m').2 (op.run (engine n) m).2
  /-- A loop that serves a request takes a turn. -/
  | turn {n r m t} (ht : t ∈ turns (engine n) n m r) : Then m t.machine
  /-- A request comes up in a turn. -/
  | within {n f k r m} {t : Turn} (h : Reached n (t.round f) t.machine k r m) : Then t.machine m
  /-- A request of a turn has been served, and another turn comes. -/
  | next {n r m k r' m'} {t t' : Turn} (hm : m.Attuned) (hturns : [t, t'].Sublist (turns (engine n) n m r))
      (h : Reached n (t.round (r.flow m)) t.machine k r' m') : Then (engine k r' m').2 t'.machine

/-- One moment of a session comes some time after another one. -/
abbrev Later : Machine → Machine → Prop := ReflTransGen Then

theorem Then.remembers (h : Then m m') (hm : m.Attuned) : m'.Attuned ∧ m.Remembers m' := by
  cases h with
  | done n hop =>
    have hrel := (Operation.heeds_run_of_mindful hop).rel hm n
    exact ⟨hrel.2.lives.attuned hm, hrel.2.follows⟩
  | comes hop h =>
    obtain ⟨hattuned, hbefore, -⟩ := (Operation.heeds_run_of_mindful hop).of_reached hm h
    exact ⟨hattuned, hbefore.follows⟩
  | @served n _ _ _ _ _ hop hstart h =>
    have hheeds := Operation.heeds_run_of_mindful hop
    exact ⟨(hheeds.rel hstart n).2.lives.attuned hstart, (hheeds.of_reached hstart h).2.2.follows⟩
  | turn ht => exact remembers_of_mem_turns hm ht
  | within h =>
    obtain ⟨hattuned, hbefore, -⟩ := (heeds_round (P := Fiber.Remembers) _ _).of_reached hm h
    exact ⟨hattuned, hbefore.follows⟩
  | next hstart hturns h =>
    obtain ⟨hattuned, hround⟩ :=
      List.pairwise_iff_forall_sublist.1 (pairwise_turns_round hstart _) hturns
    have hserved := ((heeds_round (P := Fiber.Remembers) _ _).of_reached hattuned h).2.2
    have ht' := hturns.subset (List.mem_cons_of_mem _ List.mem_cons_self)
    exact ⟨(remembers_of_mem_turns hstart ht').1, hserved.follows.trans hround⟩

theorem Later.remembers (h : Later m m') (hm : m.Attuned) : m'.Attuned ∧ m.Remembers m' := by
  induction h with
  | refl => exact ⟨hm, .refl m⟩
  | tail _ h ih =>
    obtain ⟨hattuned, hremembers⟩ := h.remembers ih.1
    exact ⟨hattuned, ih.2.trans hremembers⟩

end Session

end ScriptMachine
