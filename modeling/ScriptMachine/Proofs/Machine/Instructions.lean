import ScriptMachine.Proofs.Machine.Logic

namespace ScriptMachine

open Exec

namespace Scene

variable {c : Scene} {k k' j : Nat} {m m' : Machine} {α β : Type} {E : Engine} {fuel : Nat}
  {Q : Flow → Machine → Prop} {S : Stop → Machine → Prop}

section Logic

variable (hnext : ∀ m, c.At 0 m → Q .next m) (hfail : ∀ s m, c.At 0 m → S s m)
include hfail

theorem Uses.ends {x : Exec α} (h : c.Uses k j x) : Triple (c.At k) x (fun _ => c.At j) S :=
  h.failing hfail

include hnext

theorem steady : Logic.Steady c.fiber c.At Q S where
  stop _ hm := hfail _ _ (hm.mono (Nat.zero_le _))
  next hm := hnext _ (hm.mono (Nat.zero_le _))
  result v := .bind ((uses_push v).ends hfail) fun _ => .pure fun m hm =>
    hnext m (hm.mono (Nat.zero_le _))
  tame h := (Uses.aside h.aside).ends hfail
  pop := uses_pop.ends hfail

theorem scopes (hE : Quiet E) : (Logic.single c.fiber c.At Q S).Scopes (· = ·) E E :=
  (steady hnext hfail).scopes ((steady hnext hfail).asks (fun _ => (uses_push _).ends hfail)
    fun _ _ => (Uses.quiet (hE _)).ends hfail) fun hu => (uses_modifyFrame hu.like).ends hfail

end Logic

theorem uses_closeBlocks (hE : Quiet E) (error : Value) (n : Nat) :
    c.Uses k k (closeBlocks E c.fiber error n) :=
  ((scopes (Q := fun _ => c.At 0) (fun _ h => h) (fun _ _ h => h) hE).closeBlocks trivial rfl).triple

theorem uses_stackedArguments : c.Uses k k (stackedArguments c.fiber) := by
  refine .bind uses_topFrame fun frame => ?_
  refine .bind (.readFiber _ _) fun v => ?_
  split
  · exact .ite (.readFiber _ _) (.throw _)
  · exact .internal _

/-- What may be relied on at the end of an instruction: the conditions cover the machine in its
middle, and calls that come back to the flow lead to them. -/
structure Exits (c : Scene) (E : Engine) (fuel : Nat) (Q : Flow → Machine → Prop)
    (S : Stop → Machine → Prop) : Prop where
  next : ∀ m, c.At 0 m → Q .next m
  jump : ∀ ip m, c.At 0 m → Q (.transfer (.jump ip)) m
  fail : ∀ s m, c.At 0 m → S s m
  call : ∀ argc setup, setup.returnTo.isSome → setup.isEntry = false →
    Triple (c.At (argc + 1)) (performCall E c.fiber fuel argc setup) (fun r => Q (.transfer r)) S

variable (hx : c.Exits E fuel Q S)
include hx

theorem Exits.bind {x : Exec α} {g : α → Exec β} {U : β → Machine → Prop} (h : c.Uses k j x)
    (hg : ∀ a, Triple (c.At j) (g a) U S) : Triple (c.At k) (x >>= g) U S := .bind (h.ends hx.fail) hg

theorem Exits.callHandler (ip : Nat) (handler : Value) (arguments : List Value) :
    Triple (c.At k) (callHandler E c.fiber fuel ip handler arguments) Q S := by
  refine hx.bind (uses_push handler) fun _ => hx.bind (uses_pushAll arguments) fun _ => ?_
  exact .bind ((hx.call arguments.length (.byInstruction ip) rfl rfl).before
    fun m hm => hm.mono (by omega)) fun r => .pure fun _ h => h

/-- What an instruction does to the stacks of its flow, by what calls and returns do to them. -/
theorem ends_execute (hE : Quiet E) (ip : Nat) (i : Instruction)
    (hret : i.op = .ret → Triple (c.At (if i.number = 1 then 1 else 0))
      (performReturn E c.fiber fuel i ip) (fun r => Q (.transfer r)) S) :
    Triple (c.At i.demand) (execute E c.fiber fuel ip i) Q S := by
  have hsteady := steady hx.next hx.fail
  refine Logic.execute (L := .single c.fiber c.At Q S)
    (hsteady.moves (fun v => (uses_push v).ends hx.fail) (fun vs => (uses_pushAll vs).ends hx.fail)
      (fun n => (uses_drop n).ends hx.fail) (fun n => (uses_popMany n).ends hx.fail)
      fun v h => (uses_poke h v).ends hx.fail)
    (hsteady.calls (fun _ => (uses_push _).ends hx.fail) (fun bs => ?_)
      fun handler arguments => hx.callHandler ip handler arguments)
    (scopes hx.next hx.fail hE) rfl (fun _ _ => trivial)
    (fun k m hm => hx.jump _ m (hm.mono (Nat.zero_le _)))
    (.of_triple (uses_stackedArguments.ends hx.fail) fun _ _ _ => trivial)
    (fun _ => .bind (hx.call _ _ rfl rfl) fun _ => .pure fun _ h => h)
    fun hop => .bind (hret hop) fun _ => .pure fun _ h => h
  rw [← bs.length_map Value.bool]
  exact (uses_pushAll _).ends hx.fail

end Scene

end ScriptMachine
