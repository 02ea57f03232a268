import ScriptMachine.Proofs.Machine.LikeRounds

namespace ScriptMachine

open Exec

theorem Machine.newFiber_apply (m : Machine) (function : Value) :
    newFiber function m = (.ok ⟨m.heap.coroutines.size⟩, m.spawned function) := rfl

namespace Likeness

variable {c : Likeness} [c.Lawful]

section Views

variable (m : Machine)

theorem runningCoroutine_of : Library.runningCoroutine (c.of m) = Library.runningCoroutine m := by
  obtain ⟨budget, hfiber⟩ := Lawful.fiber (c := c) m m.currentFiber
  have hcurrent : (c.of m).currentFiber = m.currentFiber := rfl
  rw [Library.runningCoroutine, hcurrent, hfiber]
  rfl

theorem whereabouts_of (site : CallSite) (levels : Nat) :
    Host.whereabouts (c.of m) site levels = Host.whereabouts m site levels := by
  obtain ⟨budget, hfiber⟩ := Lawful.fiber (c := c) m site.fiber
  have hyieldable : Library.isYieldable ((c.of m).fiber site.fiber) =
      Library.isYieldable (m.fiber site.fiber) := by
    rw [hfiber]
    rfl
  simp only [Host.whereabouts, hyieldable, locationAtLevel_of, runningCoroutine_of,
    coroutineStatus_of]

theorem stackTrace_of (co : CoroutineId) (skip : Nat) :
    (c.of m).stackTrace co skip = m.stackTrace co skip := by
  have hheap : (c.of m).heap = m.heap := rfl
  simp only [Machine.stackTrace, hheap, callStack_of]

theorem spawned_of (hm : c.Good m) (function : Value) :
    (c.of m).spawned function = c.of (m.spawned function) := by
  simp only [of, Machine.spawned, Lawful.size, Lawful.push _ hm]

end Views

theorem alike_newFiber (id : ClosureId) : c.Alike (newFiber (.closure id)) (newFiber (.closure id)) := by
  refine fun m hm => ⟨Lawful.spawned id hm, fun _ => .inr ?_⟩
  rw [Machine.newFiber_apply, spawned_of m hm, Machine.newFiber_apply]
  rfl

theorem alike_createCoroutine (v : Value) : c.Alike (createCoroutine v) (createCoroutine v) := by
  cases v with
  | native id => exact fun m hm => ⟨Lawful.callback id hm, fun _ => .inr rfl⟩
  | closure id => exact alike_newFiber _
  | _ => exact .fail _

section Asking

open Library

variable {E E' : Engine} (hE : c.Agree E E') (site : CallSite) (a : Arguments)
include hE

theorem alike_resumeCoroutine (co : CoroutineId) (arguments : List Value) :
    c.Alike (resumeCoroutine E site co arguments) (resumeCoroutine E' site co arguments) := by
  intro m hm
  have hread : c.AlikeAt m (read fun m => m.heap.coroutine co) (read fun m => m.heap.coroutine co) :=
    ⟨Lawful.refl m, fun _ => .inr rfl⟩
  refine hread.bind hm fun body m' hrun => ?_
  obtain ⟨hbody, rfl⟩ := Prod.mk.inj hrun
  obtain rfl := Except.ok.inj hbody
  dsimp only
  cases hbody : m.heap.coroutine co with
  | fiber f => exact hE _ m hm
  | callback native =>
    have hspent : c.AlikeAt m (modify fun m => { m with heap := m.heap.setCoroutine co .spent })
        (modify fun m => { m with heap := m.heap.setCoroutine co .spent }) :=
      ⟨Lawful.spent hm hbody, fun _ => .inr rfl⟩
    refine hspent.bind hm fun _ m' hrun => ?_
    obtain ⟨-, rfl⟩ := Prod.mk.inj hrun
    exact hE _ _ (Lawful.good_rel hm (Lawful.spent hm hbody))
  | spent => exact Alike.complain _ m hm
  | recycled => exact Alike.complain _ m hm

theorem alike_closeCoroutine (co : CoroutineId) :
    c.Alike (closeCoroutine E co) (closeCoroutine E' co) := by
  refine .bind (.read fun _ _ => rfl) fun body => ?_
  cases body with
  | fiber f => exact hE _
  | _ => exact .pure _

theorem alike_displayText (v : Value) : c.Alike (displayText E v) (displayText E' v) := by
  refine .bind (.read fun _ _ => rfl) fun handler => ?_
  cases handler with
  | none => exact .read fun _ _ => rfl
  | some handler =>
    refine .bind (hE _) fun v => ?_
    cases v.toScalar with
    | string s => exact .pure _
    | _ => exact .complain _

theorem alike_protectNative (name : String) (f : NativeId) (arguments : List Value)
    (handler : Option Value) : c.Alike (protectNative E site name f arguments handler)
      (protectNative E' site name f arguments handler) := by
  refine .bind (hE _) fun v => ?_
  cases v with
  | tailCall id =>
    exact .bind (.read fun _ _ => rfl) fun _ => .ite (.complain _) (.detached (detached_guardedCall ..))
  | yieldRequest items forced => exact .complain _
  | _ => exact .pure _

theorem alike_caught (handler : Option Value) (e : RuntimeError) :
    c.Alike (caught E site handler e) (caught E' site handler e) := by
  cases handler with
  | none => exact .bind (.pure _) fun _ => .pure _
  | some h => exact .bind (alike_handledError hE h _) fun _ => .pure _

theorem alike_protectedCall (name : String) (function : Value) (arguments : List Value)
    (handler : Option Value) : c.Alike (protectedCall E site name function arguments handler)
      (protectedCall E' site name function arguments handler) := by
  cases function with
  | native id =>
    refine (alike_protectNative hE site name id arguments handler).attempt_bind
      (fun s hs m => ?_) fun r => ?_
    · rcases s with (_ | _) | _
      · cases hs
      all_goals rfl
    rcases r with ((e | _) | _) | v
    case error.fault.runtime => exact alike_caught hE site handler e
    case ok => exact .pure _
    all_goals exact .throw _
  | closure id => exact .detached (detached_guardedCall ..)
  | _ => exact .pure _

theorem alike_libraryResume : c.Alike (Library.resume E site a) (Library.resume E' site a) := by
  refine .bind (.ofExcept _) fun co =>
    (alike_resumeCoroutine hE site co _).attempt_bind (fun s hs m => ?_) fun r => ?_
  · rcases s with (_ | _) | _
    · cases hs
    all_goals rfl
  rcases r with ((e | _) | _) | v
  case error.fault.runtime => exact .pure _
  case ok => split <;> first | exact .pure _ | exact .throw _
  all_goals exact .throw _

theorem alike_wrapped (co : CoroutineId) :
    c.Alike (wrapped E site co a) (wrapped E' site co a) := by
  refine .bind (alike_resumeCoroutine hE site co _) fun v => ?_
  split <;> exact .pure _

omit hE in
theorem alike_error : c.Alike (Library.error site a) (Library.error site a) := by
  refine .bind (.detached (detached_errorLevel a)) fun level => .bind (.read fun _ _ => rfl) fun e => ?_
  cases a.get 0 with
  | string s =>
    exact .ite (.bind (.read fun m _ => locationAtLevel_of m _ _ _) fun _ => .fail _) (.fail _)
  | _ => exact .fail _

omit hE in
theorem alike_tonumber : c.Alike (tonumber a) (tonumber a) := by
  refine .bind (.ofExcept _) fun v => .ite (.pure _)
    (.bind (.detached (detached_numeralBase _)) fun base => ?_)
  split
  · split
    · exact .ite (.pure _) (.throw _)
    · exact .pure _
  · exact .complain _

theorem alike_libraryRun (b : Builtin) :
    c.Alike (Library.run E site a b) (Library.run E' site a b) := by
  have hisyieldable : c.Alike (isyieldable site) (isyieldable site) :=
    .bind (.readFiber fun _ _ => rfl) fun _ => .pure _
  have hstatus : c.Alike (status a) (status a) :=
    .bind (.ofExcept _) fun _ => .bind (.read fun m _ => runningCoroutine_of m) fun _ =>
      .ite (.pure _) (.bind (.read fun m _ => coroutineStatus_of m _) fun _ => .pure _)
  cases b with
  | pcall => exact alike_protectedCall hE site _ _ _ _
  | xpcall => exact .first (.complain _) fun _ => alike_protectedCall hE site _ _ _ _
  | error => exact alike_error site a
  | assert => exact .detached (detached_assert a)
  | print =>
    exact .bind (.mapM fun v => alike_displayText hE _) fun _ =>
      .bind (.detached (detached_emit _ rfl)) fun _ => .pure _
  | type => exact .bind (.ofExcept _) fun _ => .pure _
  | tostring => exact .bind (.ofExcept _) fun _ => .bind (alike_displayText hE _) fun _ => .pure _
  | tonumber => exact alike_tonumber a
  | select => exact .detached (detached_select a)
  | setmetatable => exact .detached (detached_setmetatable a)
  | getmetatable => exact .detached (detached_getmetatable a)
  | rawget => exact .bind (.ofExcept _) fun _ => .bind (.read fun _ _ => rfl) fun _ => .pure _
  | rawset => exact .detached (detached_rawset a)
  | rawequal => exact .pure _
  | next => exact .detached (detached_next a)
  | ipairs => exact .detached (detached_ipairs a)
  | ipairsStep => exact .bind (.ofExcept _) fun _ => .bind (.read fun _ _ => rfl) fun _ => .pure _
  | create => exact .bind (.ofExcept _) fun _ => .bind (alike_createCoroutine _) fun _ => .pure _
  | wrap =>
    exact .bind (.ofExcept _) fun _ => .bind (alike_createCoroutine _) fun _ =>
      .bind (.detached (detached_newBuiltin _ _)) fun _ => .pure _
  | resume => exact alike_libraryResume hE site a
  | yield => exact .pure _
  | running => exact .bind (.read fun m _ => runningCoroutine_of m) fun _ => .pure _
  | status => exact hstatus
  | close => exact .bind (.ofExcept _) fun _ => alike_closeCoroutine hE _
  | isyieldable => exact hisyieldable
  | wrapped co => exact alike_wrapped hE site a co
  | withStatus ok => exact .pure _

theorem alike_hostRun (id : NativeId) (action : HostAction Value Template) :
    c.Alike (Host.run E id site a action) (Host.run E' id site a action) := by
  cases action with
  | const v => exact .pure _
  | arguments => exact .pure _
  | count => exact .pure _
  | isMethod => exact .pure _
  | argument n => exact .pure _
  | labelled text => exact .bind (.read fun _ _ => rfl) fun _ => .pure _
  | fail fault => exact .fail _
  | raise v => exact .detached (detached_raise v)
  | call => exact hE _
  | apply function => exact hE _
  | yield forced => exact .pure _
  | tailCall function arguments continuation onError beforeUnwind =>
    exact .detached (detached_tailCallAction E id site a ..)
  | whereabouts levels => exact .read fun m _ => whereabouts_of m site levels
  | createCoroutine => exact .bind (alike_createCoroutine _) fun _ => .pure _
  | globals => exact .bind (.read fun _ _ => rfl) fun _ => .pure _
  | countUp limit => exact .bind (.detached (detached_countCall id)) fun _ => .pure _
  | resume name =>
    exact .bind (.detached (detached_namedCoroutine name)) fun _ =>
      .bind (.detached (detached_fiberOf _)) fun _ => hE _
  | close name =>
    exact .bind (.detached (detached_namedCoroutine name)) fun _ => alike_closeCoroutine hE _
  | state name =>
    exact .bind (.detached (detached_namedCoroutine name)) fun _ =>
      .bind (.read fun m _ => coroutineStatus_of m _) fun _ => .pure _
  | save name => exact .bind (.detached (detached_setVariable _ _)) fun _ => .pure _
  | trace name skip =>
    refine .bind (.detached (detached_namedCoroutine name)) fun co =>
      .bind (.read fun m _ => ?_) fun _ => .pure _
    rw [stackTrace_of]
    rfl

theorem alike_invoke (id : NativeId) : c.Alike (invoke E id site a) (invoke E' id site a) := by
  refine .bind (.read fun _ _ => rfl) fun f => ?_
  cases f.behavior with
  | builtin b => exact alike_libraryRun hE site a b
  | host action =>
    have hlog : c.Alike (Host.log f a) (Host.log f a) :=
      .ite (.bind (.read fun m _ => by rw [observe_of]) fun _ => .detached (detached_emit _ rfl)) (.pure _)
    exact .bind hlog fun _ => alike_hostRun hE site a id action

end Asking

end Likeness

theorem undisturbed_invoke {E : Engine} (hE : Quiet E) (site : CallSite) (a : Arguments) (id : NativeId) :
    Preserves Undisturbed (Exec.invoke E id site a) := fun m hm =>
  ((Likeness.alike_invoke (c := keepingTo fun _ => False) hE.keepsTo site a id m ⟨hm, nofun⟩).1.1).mono
    fun _ _ h => h

end ScriptMachine
