import ScriptMachine.Proofs.Machine.Rounds

namespace ScriptMachine

open Exec

theorem Exec.Safe.observes {α : Type} {x : Exec α} (h : Observes x) : Safe x := by
  intro m _
  obtain ⟨a, debug, events, hrun, -⟩ := h m
  rw [hrun]
  trivial

/-- Nothing that is asked of the engine crashes. -/
def Tactful (E : Engine) : Prop := ∀ request, Safe (E request)

section Natives

open Library

theorem safe_newFiber (function : Value) : Safe (newFiber function) :=
  .bind (.read _) fun _ => .bind (.modifyGet _) fun _ => .bind (.modify _) fun _ => .pure _

theorem safe_createCoroutine (v : Value) : Safe (createCoroutine v) := by
  unfold createCoroutine
  split
  · exact .modifyGet _
  · exact safe_newFiber _
  · exact .fail _

theorem safe_error (site : CallSite) (a : Arguments) : Safe (error site a) := by
  refine .bind (detached_errorLevel a).safe fun level => .bind (.read _) fun e => ?_
  split
  · exact .ite (.bind (.read _) fun _ => .fail _) (.fail _)
  · exact .fail _

/-- Whether the first argument is a numeral, in the base that the second one gives, of a number
that is no word. -/
def Arguments.overflows (a : Arguments) : Bool :=
  match a.get 0, (a.get 1).toInteger? with
  | .string s, some b =>
    2 ≤ b && b ≤ 36 && (numeralIn b.toInt.toNat s).any fun n => !Number.isWord n
  | _, _ => false

theorem safe_tonumber {a : Arguments} (h : a.overflows = false) : Safe (tonumber a) := by
  unfold tonumber Arguments.present
  split
  · change Safe (if (a.get 1).isNil then _ else _)
    refine .ite (.pure _) ?_
    unfold numeralBase
    split
    · rename_i b hb
      by_cases hrange : 2 ≤ b ∧ b ≤ 36
      · rw [if_pos hrange]
        rw [pure_bind]
        split
        · rename_i s hs
          split
          · rename_i n hn
            simp only [Arguments.overflows, hs, hb, hrange.1, hrange.2, hn, decide_true,
              Bool.true_and, Option.any_some, Bool.not_eq_false'] at h
            rw [if_pos h]
            exact .pure _
          · exact .pure _
        · exact .complain _
      · rw [if_neg hrange]
        exact .fail_bind _ _
    · exact .fail_bind _ _
  · exact .fail_bind _ _

variable {E : Engine} (hE : Tactful E) (site : CallSite) (a : Arguments)
include hE

theorem safe_resumeCoroutine (co : CoroutineId) (arguments : List Value) :
    Safe (resumeCoroutine E site co arguments) := by
  refine .bind (.read _) fun body => ?_
  split
  · exact hE _
  · exact .bind (.modify _) fun _ => hE _
  · exact .complain _
  · exact .complain _

theorem safe_closeCoroutine (co : CoroutineId) : Safe (closeCoroutine E co) := by
  refine .bind (.read _) fun body => ?_
  split
  · exact hE _
  · exact .pure _

theorem safe_handledError (handler : Value) (e : RuntimeError) : Safe (handledError E handler e) := by
  have hrest (r : Except Stop Value) (hr : r ≠ .error .crash) : Safe (rephrased e r) := by
    unfold rephrased
    split
    · exact .bind (.read _) fun _ => .pure _
    · exact .pure _
    · exact .rethrow hr
  rw [handledError_eq]
  split
  · exact .attempt (hE _) hrest
  · exact hrest _ nofun

theorem safe_displayText (v : Value) : Safe (displayText E v) := by
  refine .bind (.read _) fun handler => ?_
  split
  · refine .bind (hE _) fun v => ?_
    split
    · exact .pure _
    · exact .complain _
  · exact .read _

theorem safe_protectNative (name : String) (f : NativeId) (arguments : List Value)
    (handler : Option Value) : Safe (protectNative E site name f arguments handler) := by
  refine .bind (hE _) fun v => ?_
  split
  · exact .bind (.read _) fun _ => .ite (.complain _) ((detached_guardedCall ..).safe)
  · exact .complain _
  · exact .pure _

theorem safe_caught (handler : Option Value) (e : RuntimeError) : Safe (caught E site handler e) := by
  unfold caught
  cases handler with
  | none => exact .bind (.pure _) fun _ => .pure _
  | some h => exact .bind (safe_handledError hE h _) fun _ => .pure _

theorem safe_protectedCall (name : String) (function : Value) (arguments : List Value)
    (handler : Option Value) : Safe (protectedCall E site name function arguments handler) := by
  unfold protectedCall
  split
  · refine .attempt (safe_protectNative hE site _ _ _ _) fun r hr => ?_
    split
    · exact safe_caught hE site _ _
    · cases r with
      | ok v => exact .pure _
      | error s => exact .rethrow hr
  · exact (detached_guardedCall ..).safe
  · exact .pure _

theorem safe_resume : Safe (Library.resume E site a) := by
  refine .bind (.ofExcept _) fun co => .attempt (safe_resumeCoroutine hE site co _) fun r hr => ?_
  split
  · exact .pure _
  · exact .pure _
  · exact .pure _
  · exact .rethrow hr

theorem safe_wrapped (co : CoroutineId) : Safe (wrapped E site co a) := by
  refine .bind (safe_resumeCoroutine hE site co _) fun v => ?_
  split <;> exact .pure _

theorem safe_libraryRun (b : Builtin) (h : b = .tonumber → a.overflows = false) :
    Safe (Library.run E site a b) := by
  cases b with
  | pcall => exact safe_protectedCall hE site _ _ _ _
  | xpcall => exact .first (.complain _) fun _ => safe_protectedCall hE site _ _ _ _
  | error => exact safe_error site a
  | assert => exact (detached_assert a).safe
  | print =>
    exact .bind (.mapM fun v => safe_displayText hE _) fun _ => .bind (.modify _) fun _ => .pure _
  | type => exact .bind (.ofExcept _) fun _ => .pure _
  | tostring => exact .bind (.ofExcept _) fun _ => .bind (safe_displayText hE _) fun _ => .pure _
  | tonumber => exact safe_tonumber (h rfl)
  | select => exact (detached_select a).safe
  | setmetatable => exact (detached_setmetatable a).safe
  | getmetatable => exact (detached_getmetatable a).safe
  | rawget => exact .bind (.ofExcept _) fun _ => .bind (.read _) fun _ => .pure _
  | rawset => exact (detached_rawset a).safe
  | next => exact (detached_next a).safe
  | ipairs => exact (detached_ipairs a).safe
  | ipairsStep => exact .bind (.ofExcept _) fun _ => .bind (.read _) fun _ => .pure _
  | create => exact .bind (.ofExcept _) fun _ => .bind (safe_createCoroutine _) fun _ => .pure _
  | wrap =>
    exact .bind (.ofExcept _) fun _ => .bind (safe_createCoroutine _) fun _ =>
      .bind (.modifyGet _) fun _ => .pure _
  | resume => exact safe_resume hE site a
  | running => exact .bind (.read _) fun _ => .pure _
  | status =>
    exact .bind (.ofExcept _) fun _ => .bind (.read _) fun _ =>
      .ite (.pure _) (.bind (.read _) fun _ => .pure _)
  | close => exact .bind (.ofExcept _) fun _ => safe_closeCoroutine hE _
  | isyieldable => exact .bind (.readFiber _ _) fun _ => .pure _
  | wrapped co => exact safe_wrapped hE site a co
  | rawequal | yield | withStatus ok => exact .pure _

theorem safe_hostRun (id : NativeId) (action : HostAction Value Template) :
    Safe (Host.run E id site a action) := by
  cases action with
  | labelled text => exact .bind (.read _) fun _ => .pure _
  | fail fault => exact .fail _
  | raise v => exact .bind (.read _) fun _ => .fail _
  | call => exact hE _
  | apply function => exact hE _
  | tailCall function arguments continuation onError beforeUnwind =>
    exact (detached_tailCallAction ..).safe
  | whereabouts levels => exact .read _
  | createCoroutine => exact .bind (safe_createCoroutine _) fun _ => .pure _
  | globals => exact .bind (.read _) fun _ => .pure _
  | countUp limit => exact .bind (.modifyGet _) fun _ => .pure _
  | resume name =>
    exact .bind (detached_namedCoroutine name).safe fun co => .bind (detached_fiberOf co).safe fun _ => hE _
  | close name => exact .bind (detached_namedCoroutine name).safe fun co => safe_closeCoroutine hE co
  | state name => exact .bind (detached_namedCoroutine name).safe fun _ => .bind (.read _) fun _ => .pure _
  | save name => exact .bind (.modify _) fun _ => .pure _
  | trace name skip =>
    exact .bind (detached_namedCoroutine name).safe fun _ => .bind (.read _) fun _ => .pure _
  | _ => exact .pure _

end Natives

section Stacks

variable (f : FiberId)

theorem safe_pop : Safe (pop f) := by
  refine .bind (.readFiber _ _) fun v => ?_
  cases v with
  | none => exact .internal _
  | some v => exact .bind (.modify _) fun _ => .pure _

theorem safe_poke (depth : Nat) (v : Value) : Safe (poke f depth v) :=
  .bind (safe_peek f depth) fun _ => .modify _

theorem safe_drop (n : Nat) : Safe (drop f n) :=
  .bind (.readFiber _ _) fun _ => .ite (.internal _) (.modify _)

theorem safe_popMany (n : Nat) : Safe (popMany f n) :=
  .bind (.readFiber _ _) fun _ => .ite (.internal _)
    (.bind (.readFiber _ _) fun _ => .bind (.modify _) fun _ => .pure _)

theorem safe_popFrame : Safe (popFrame f) :=
  .bind (safe_topFrame f) fun _ => .bind (.modify _) fun _ => .pure _

theorem safe_result (v : Value) : Safe (result f v) := .bind (.modify _) fun _ => .pure _

end Stacks

section Instructions

variable (f : FiberId)

theorem safe_steady : Logic.Steady f (fun _ _ => True) (fun _ _ => True) (fun s _ => s ≠ .crash) where
  stop hs _ := hs
  next _ := trivial
  result v := safe_result f v
  tame h := h.safe
  pop := safe_pop f

theorem safe_moves :
    (Logic.single f (fun _ _ => True) (fun _ _ => True) (fun s _ => s ≠ .crash)).Moves :=
  (safe_steady f).moves (fun _ => Safe.modify _) (fun _ => Safe.modify _) (safe_drop f)
    (safe_popMany f) fun v _ => safe_poke f _ v

variable {E : Engine} (hE : Tactful E)
include hE

theorem safe_scopes : (Logic.single f (fun _ _ => True) (fun _ _ => True)
    (fun s _ => s ≠ .crash)).Scopes (· = ·) E E :=
  (safe_steady f).scopes ((safe_steady f).asks (fun _ => Safe.modify _) fun _ _ => hE _)
    fun _ => Safe.modify _

theorem safe_closeBlocks (error : Value) (n : Nat) : Safe (closeBlocks E f error n) :=
  have hkeeps : Logic.Keeps _ 0 0 (closeBlocks E f error n) (closeBlocks E f error n) :=
    (safe_scopes f hE).closeBlocks trivial rfl
  hkeeps.triple

end Instructions

end ScriptMachine
