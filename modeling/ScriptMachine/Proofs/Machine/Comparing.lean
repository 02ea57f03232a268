import Mathlib.Data.String.Basic
import ScriptMachine.Proofs.Machine.Suspending
import ScriptMachine.Proofs.Machine.VariableAccess

namespace ScriptMachine

open Exec Machine

section Orders

theorem encode_lt {c d : Char} (h : c < d) (x y : List UInt8) :
    String.utf8EncodeChar c ++ x < String.utf8EncodeChar d ++ y := by
  have hlt : c.val.toNat < d.val.toNat := h
  have hd : d.val.toNat < 0x110000 := by
    rcases d.valid with h | h
    · exact h.trans (by decide)
    · exact h.2
  have hdigits (v : Nat) : v / 262144 = v / 4096 / 64 ∧ v / 4096 = v / 64 / 64 := by omega
  have hsix (v : Nat) : (v % 64 + 128) % 256 = v % 64 + 128 := by omega
  have hthree (v : Nat) : (v % 8 + 240) % 256 = v % 8 + 240 := by omega
  unfold String.utf8EncodeChar
  dsimp only
  split_ifs <;>
  simp only [List.cons_append, List.nil_append, List.cons_lt_cons_iff, UInt8.lt_iff_toNat_lt, ← UInt8.toNat_inj,
    UInt8.toNat_ofNat', (hdigits _).1, (hdigits _).2, Nat.reducePow, hsix, hthree] <;> omega

theorem flatMap_encode_lt {l l' : List Char} (h : l < l') :
    l.flatMap String.utf8EncodeChar < l'.flatMap String.utf8EncodeChar := by
  induction h with
  | @nil d l' =>
    rw [List.flatMap_nil, List.flatMap_cons]
    cases henc : String.utf8EncodeChar d with
    | nil => exact absurd henc String.utf8EncodeChar_ne_nil
    | cons => exact List.nil_lt_cons _ _
  | rel h => exact encode_lt h _ _
  | @cons c l l' _ ih =>
    rw [List.flatMap_cons, List.flatMap_cons]
    exact List.append_left_lt ih

/-- Texts are in the order of their bytes. -/
theorem compare_isLE (a b : String) :
    (compare a b).isLE = decide (a.toByteArray.data.toList ≤ b.toByteArray.data.toList) := by
  have hbytes (s : String) : s.toByteArray.data.toList = s.toList.flatMap String.utf8EncodeChar := by
    rw [← String.utf8Encode_toList]
    simp [List.utf8Encode]
  have hlt {a b : String} (h : a < b) : a.toByteArray.data.toList < b.toByteArray.data.toList := by
    rw [hbytes, hbytes]
    exact flatMap_encode_lt h
  have hcompare : compare a b = if a < b then .lt else if a = b then .eq else .gt := rfl
  rw [hcompare]
  rcases lt_trichotomy a b with h | h | h
  · rw [if_pos h]
    exact (decide_eq_true (List.le_of_lt (hlt h))).symm
  · rw [if_neg h.not_lt, if_pos h, h]
    exact (decide_eq_true (List.le_refl _)).symm
  · rw [if_neg h.not_gt, if_neg h.ne']
    exact (decide_eq_false fun hle => hle (hlt h)).symm

/-- What two operands that have an order come to. -/
def lessOrEqual? : Value → Value → Option Bool
  | .number a, .number b => some (decide (a ≤ b))
  | .string a, .string b => some (decide (a.toByteArray.data.toList ≤ b.toByteArray.data.toList))
  | _, _ => none

/-- Whether an order is that of a first operand that is not the larger one. -/
def PrimitiveOrder.isLE : PrimitiveOrder → Bool
  | .ordered o => o.isLE
  | .unordered => false

theorem PrimitiveOrder.isLE_ofNumbers (a b : Number) : (ofNumbers a b).isLE = decide (a ≤ b) := by
  have hlt (a b : Number) : a < b ↔ (Number.comparable a b && decide (a.rank < b.rank)) = true := Iff.rfl
  have hle (a b : Number) : a ≤ b ↔ (Number.comparable a b && decide (a.rank ≤ b.rank)) = true := Iff.rfl
  have heq : (a == b) = (Number.comparable a b && a.rank == b.rank) := rfl
  have hcomm : Number.comparable b a = Number.comparable a b := Bool.and_comm _ _
  unfold ofNumbers
  rw [heq]
  cases hc : Number.comparable a b with
  | false => simp [hlt, hle, hcomm, hc, isLE]
  | true =>
    simp only [hlt, hle, hcomm, hc, Bool.true_and, decide_eq_true_eq, beq_iff_eq, Int64.lt_iff_toInt_lt,
      Int64.le_iff_toInt_le, ← Int64.toInt_inj]
    rcases lt_trichotomy a.rank.toInt b.rank.toInt with h | h | h
    · simp [h, h.le, isLE, Ordering.isLE]
    · simp [h, isLE, Ordering.isLE]
    · simp [h, h.not_gt, h.ne', h.not_ge, isLE, Ordering.isLE]

theorem PrimitiveOrder.map_isLE_of? (l r : Value) : (of? l r).map isLE = lessOrEqual? l r := by
  cases l with
  | number a =>
    cases r with
    | number b => exact congrArg some (isLE_ofNumbers a b)
    | _ => rfl
  | string a =>
    cases r with
    | string b => exact congrArg some (compare_isLE a b)
    | _ => rfl
  | _ => rfl

end Orders

/-- The handler that is asked for a comparison, whether its answer is to be negated, and what it is
asked about. -/
def Heap.comparison? (h : Heap) (l r : Value) : Option (Value × Bool × Value × Value) :=
  ((h.metamethod? l "__le" <|> h.metamethod? r "__le").map fun handler => (handler, false, l, r)) <|>
    (h.metamethod? r "__lt" <|> h.metamethod? l "__lt").map fun handler => (handler, true, r, l)

section Operands

variable {E : Engine} {f : FiberId} {fuel ip : Nat} {m : Machine} {rest : Array Value} {l r : Value}

/-- The machine with other values on the stack of a flow. -/
def Machine.withValues (m : Machine) (f : FiberId) (values : Array Value) : Machine :=
  m.withFiber f fun b => { b with values }

theorem Machine.fiber_withValues (hf : f.index < m.fibers.size) (values : Array Value) :
    (m.withValues f values).fiber f = { m.fiber f with values } := fiber_withFiber_self hf

theorem Exec.pop_withValues (hf : f.index < m.fibers.size) (values : Array Value) (v : Value) :
    pop f (m.withValues f (values.push v)) = (.ok v, m.withValues f values) := by
  have hback : ((m.withValues f (values.push v)).fiber f).values.back? = some v := by
    rw [fiber_withValues hf]
    exact Array.back?_push
  rw [pop_apply hback, withValues, withFiber_withFiber]
  simp [Function.comp_def, withValues]

theorem Exec.push_withValues (m : Machine) (f : FiberId) (values : Array Value) (v : Value) :
    push f v (m.withValues f values) = (.ok (), m.withValues f (values.push v)) := by
  rw [push, modifyFiber_apply, withValues, withFiber_withFiber]
  rfl

theorem Machine.withValues_of_eq (h : (m.fiber f).values = rest) : m.withValues f rest = m :=
  withFiber_eq_self (by rw [← h])

theorem Exec.popOperands_apply (hf : f.index < m.fibers.size)
    (hvalues : (m.fiber f).values = (rest.push l).push r) :
    popOperands f m = (.ok (l.toScalar, r.toScalar), m.withValues f rest) := by
  have hpop : popOperands f (m.withValues f ((rest.push l).push r)) =
      (.ok (l.toScalar, r.toScalar), m.withValues f rest) :=
    (bind_ok (pop_withValues hf _ r)).trans (bind_ok (pop_withValues hf _ l))
  rwa [withValues_of_eq hvalues] at hpop

/-- The second instruction of a comparison turns its two values into the answer. -/
theorem Exec.conditionalNot_apply (hf : f.index < m.fibers.size) {negated : Bool} {v : Value}
    (hvalues : (m.fiber f).values = (rest.push (.bool negated)).push v) : conditionalNot f m =
      (.ok .next, m.withValues f (rest.push (.bool (negated != v.toScalar.isTruthy)))) := by
  have hrun : conditionalNot f (m.withValues f ((rest.push (.bool negated)).push v)) =
      (.ok .next, m.withValues f (rest.push (.bool (negated != v.toScalar.isTruthy)))) :=
    (bind_ok (pop_withValues hf _ v)).trans ((bind_ok (pop_withValues hf _ _)).trans
      (bind_ok (push_withValues m f _ _)))
  rwa [withValues_of_eq hvalues] at hrun

/-- An operator calls a handler of its operands above a flag, or goes on without one. -/
theorem Exec.binaryMetamethod?_apply {g : Option Flow → Exec Flow} (hg : ∀ flow, g (some flow) = pure flow)
    (a b w : Value) (event : String) :
    (binaryMetamethod? E f fuel ip a b event [w] >>= g) (m.withValues f rest) =
      match m.heap.metamethod? a event <|> m.heap.metamethod? b event with
      | none => g none (m.withValues f rest)
      | some handler => callHandler E f fuel ip handler [a, b] (m.withValues f (rest.push w)) := by
  have hread : read (fun m => m.heap.metamethod? a event <|> m.heap.metamethod? b event) (m.withValues f rest) =
      (.ok (m.heap.metamethod? a event <|> m.heap.metamethod? b event), m.withValues f rest) := rfl
  have hpush : pushAll f [w] (m.withValues f rest) = (.ok (), m.withValues f (rest.push w)) := by
    rw [pushAll, modifyFiber_apply, withValues, withFiber_withFiber]
    rfl
  rw [Logic.binaryMetamethod?_bind E fuel ip hg, bind_ok hread]
  cases m.heap.metamethod? a event <|> m.heap.metamethod? b event with
  | none => rfl
  | some handler => exact bind_ok hpush

/-- The first instruction of a comparison leaves its answer on a flag, or calls the handler there. -/
theorem Exec.lessEqual_apply (hf : f.index < m.fibers.size)
    (hvalues : (m.fiber f).values = (rest.push l).push r) : lessEqual E f fuel ip m =
      match lessOrEqual? l.toScalar r.toScalar, m.heap.comparison? l.toScalar r.toScalar with
      | some b, _ => (.ok .next, m.withValues f ((rest.push (.bool false)).push (.bool b)))
      | none, some (handler, negated, a, b) =>
        callHandler E f fuel ip handler [a, b] (m.withValues f (rest.push (.bool negated)))
      | none, none => (.error (.fault (.complain (.ofComparison l.toScalar r.toScalar))), m.withValues f rest) := by
  rw [lessEqual, bind_ok (popOperands_apply hf hvalues)]
  dsimp only
  rw [← PrimitiveOrder.map_isLE_of?]
  cases PrimitiveOrder.of? l.toScalar r.toScalar with
  | some o =>
    refine (bind_ok (push_withValues m f _ _)).trans ((bind_ok (push_withValues m f _ _)).trans ?_)
    match o with
    | .ordered .lt | .ordered .eq | .ordered .gt | .unordered => rfl
  | none =>
    rw [Option.map_none, Heap.comparison?]
    refine (binaryMetamethod?_apply (fun _ => rfl) _ _ _ _).trans ?_
    cases m.heap.metamethod? l.toScalar "__le" <|> m.heap.metamethod? r.toScalar "__le" with
    | some handler => rfl
    | none =>
      refine (binaryMetamethod?_apply (g := (orComplain · _)) (fun _ => rfl) _ _ _ _).trans ?_
      cases m.heap.metamethod? r.toScalar "__lt" <|> m.heap.metamethod? l.toScalar "__lt" <;> rfl

end Operands

/-- The ground that the call of a handler by an instruction stands on. -/
def Machine.calling (m : Machine) (f : FiberId) (ip : Nat) (calls : List Frame) (height : Nat) : Footing where
  fiber := f
  start := m
  Bottom bottom := bottom = calls ∧ (m.code.get? (ip + 1)).all fun i => !(i.op == .ret && i.number == 1)
  Returns returnTo isEntry := returnTo = some (ip + 1) ∧ isEntry = false
  solid _ _ _ hbottom h := .inr (Option.some.inj h.1 ▸ hbottom.2)
  height := height
  valued := True

/-- What a round leads to, as the end of a call. -/
def Round.resumption : Round → Resumption
  | .again _ ip => .jump ip
  | .leave => .yielded

/-- A handler runs on a flow, from the end of one of its calls until the frames of its caller are on
top again. -/
inductive Exec.Course (E : Engine) (f : FiberId) (ip : Nat) (calls : List Frame) :
    Resumption → Machine → Nat → Machine → Prop
  | back {target : Nat} {m : Machine} (hcalls : (m.fiber f).calls = calls) :
      Course E f ip calls (.jump target) m target m
  /-- The next instruction takes only what is above the base of its frame. An error is caught above
  the caller. -/
  | turn {t : Turn} {round : Round} {target : Nat} {m₁ m' : Machine} (hframes : (t.machine.fiber f).calls ≠ calls)
      (hdisciplined : t.disciplined f) (hcountable : t.machine.countable f)
      (hunspent : t.limit.any (· ≤ t.executed) = false)
      (hcaught : ∀ e m, step E f t.fuel t.limit t.executed t.ip t.machine =
          (.error (.fault (.runtime e)), m) → m.countable f ∧
        ∃ own, (m.fiber f).calls = own ++ calls ∧ ∃ frame ∈ own, frame.handlers.onError.isSome)
      (hround : Exec.round E f t.fuel t.limit t.executed t.ip t.machine = (.ok round, m₁))
      (hrest : Course E f ip calls round.resumption m₁ target m') :
      Course E f ip calls (.jump t.ip) t.machine target m'
  /-- The flow goes on later, with its stacks as they were. -/
  | later {start target : Nat} {m m₁ m' : Machine} (hcalls : (m₁.fiber f).calls = (m.fiber f).calls)
      (hvalues : (m₁.fiber f).values = (m.fiber f).values) (hsound : Sound m₁) (hbusy : Busy m₁ f)
      (hcode : m₁.code.get? (ip + 1) = m.code.get? (ip + 1))
      (hrest : Course E f ip calls (.jump start) m₁ target m') : Course E f ip calls (.jump start) m target m'
  /-- The flow has yielded, and is resumed with arguments in the place of the request. -/
  | resumed {start target : Nat} {m m₁ m' : Machine} {items arguments : List Value}
      (hyielded : (m.fiber f).values.back? = some (.yieldRequest items false))
      (hsaved : (m.fiber f).savedIp = some start) (hcalls : (m₁.fiber f).calls = (m.fiber f).calls)
      (hvalues : (m₁.fiber f).values = (m.fiber f).values.pop) (hf : f.index < m₁.fibers.size)
      (hsound : Sound (m₁.continued f arguments))
      (hcode : (m₁.continued f arguments).code.get? (ip + 1) = m.code.get? (ip + 1))
      (hrest : Course E f ip calls (.jump start) (m₁.continued f arguments) target m') :
      Course E f ip calls .yielded m target m'

section Running

variable {E : Engine} {f : FiberId} {ip : Nat} {calls : List Frame} {lower : Array Value} {m m' m₁ : Machine}
  {own : List Frame} {P P' : Array Value → Prop}

/-- Some frames are on top of the caller, and below them the values are as when the handler was
called. -/
structure Under (f : FiberId) (ip : Nat) (calls : List Frame) (lower : Array Value) (own : List Frame)
    (P : Array Value → Prop) (m : Machine) : Prop where
  sits : (m.calling f ip calls lower.size).Sits own P m
  kept : ∀ i < lower.size, (m.fiber f).values[i]? = lower[i]?

/-- How far a handler has come. -/
def Handles (f : FiberId) (ip : Nat) (calls : List Frame) (lower : Array Value) : Resumption → Machine → Prop
  | .jump target, m =>
    (∃ frame own, frame.native = none ∧ Under f ip calls lower (frame :: own) (fun _ => True) m) ∨
      target = ip + 1 ∧ Under f ip calls lower [] ((m.calling f ip calls lower.size).Stacked [] 0) m
  | .done, _ => False
  | .yielded, m => ∃ own isEntry, (m.calling f ip calls lower.size).Route own (m.fiber f).savedIp isEntry ∧
    Under f ip calls lower own ((m.calling f ip calls lower.size).Stacked own 0) m

theorem routed_calling (k : Nat) (h : (m.calling f ip calls k).Routed own) : (m'.calling f ip calls k).Routed own := by
  induction own with
  | nil => trivial
  | cons frame own ih =>
    refine ⟨?_, ih h.2⟩
    cases own <;> exact h.1

theorem layered_calling {k : Nat} {values : Array Value} (h : (m.calling f ip calls k).Layered values own) :
    (m'.calling f ip calls k).Layered values own := by
  induction own with
  | nil => trivial
  | cons frame own ih =>
    refine ⟨?_, ih h.2⟩
    cases own <;> exact h.1

/-- The frames stand on any machine in which they and what is below them are the same. -/
theorem Under.moved (h : (m.calling f ip calls lower.size).Sits own P m')
    (hkept : ∀ i < lower.size, (m.fiber f).values[i]? = lower[i]?)
    (hcalls : (m₁.fiber f).calls = (m'.fiber f).calls)
    (hbelow : ∀ i < (m.calling f ip calls lower.size).level own, (m₁.fiber f).values[i]? = (m'.fiber f).values[i]?)
    (hsize : (m.calling f ip calls lower.size).level own ≤ (m₁.fiber f).values.size)
    (hsound : Sound m₁) (hbusy : Busy m₁ f) (hcode : m₁.code.get? (ip + 1) = m'.code.get? (ip + 1))
    (hP : P' (m₁.fiber f).values) : Under f ip calls lower own P' m₁ := by
  obtain ⟨bottom, ⟨rfl, hreturn⟩, hown⟩ := h.calls
  have hpiled : (m.calling f ip bottom lower.size).Piled own
      { m₁.fiber f with savedIp := (m'.fiber f).savedIp } := (h.piled trivial).1.congr hbelow hsize rfl
  refine ⟨⟨.refl _ _, hsound, hbusy, ⟨bottom, ⟨rfl, ?_⟩, hcalls.trans hown⟩, routed_calling _ h.routed,
    fun _ => ⟨⟨layered_calling hpiled.layered, ?_, fun _ _ => rfl, rfl⟩, hP⟩⟩, fun i hi => ?_⟩
  · rw [hcode, h.alone.keeps.code]
    exact hreturn
  · cases own <;> exact hsize
  · exact (hpiled.kept i hi).trans (hkept i hi)

theorem Under.of_sits (h : (m.calling f ip calls lower.size).Sits own P m')
    (hkept : ∀ i < lower.size, (m.fiber f).values[i]? = lower[i]?) : Under f ip calls lower own P m' :=
  .moved h hkept rfl (fun _ _ => rfl) (h.piled trivial).1.level h.sound h.busy rfl (h.piled trivial).2

theorem catches_handles (hkept : ∀ i < lower.size, (m.fiber f).values[i]? = lower[i]?) :
    (m.calling f ip calls lower.size).Catches (Handles f ip calls lower) where
  jump _ frame own _ hscript hm := .inl ⟨frame, own, hscript, .of_sits hm hkept⟩
  back target _ _ hreturns hm := .inr ⟨Option.some.inj hreturns.1, .of_sits hm hkept⟩
  done _ _ hreturns _ _ := nomatch hreturns.1
  yielded own returnTo isEntry items forced m' hroute hm _ _ := by
    have hfiber : (m.calling f ip calls lower.size).fiber = f := rfl
    have hself : (m'.withFiber f fun b => { b with savedIp := returnTo }).fiber f =
        { m'.fiber f with savedIp := returnTo } := fiber_withFiber_self hm.busy.1
    have halone := Alone.withFiber (g := fun b => { b with savedIp := returnTo }) hm.busy.1 (.stacks ..)
    refine ⟨own, isEntry, ?_, .moved hm hkept ?_ (fun _ _ => ?_) ?_ (halone.sound hm.sound) (halone.busy hm.busy)
      rfl ?_⟩
    · rw [hfiber, hself]
      cases own <;> exact hroute
    all_goals rw [hfiber, hself]
    · rfl
    · exact (hm.piled trivial).1.level
    · exact (hm.piled trivial).2

theorem Under.low (h : Under f ip calls lower own P m) (hcount : m.countable f) :
    (m.calling f ip calls lower.size).Low own := (h.sits.mono fun _ _ => trivial).low hcount

/-- A turn of the handler. -/
theorem Under.round (hE : Quiet E) {frame : Frame} (h : Under f ip calls lower (frame :: own) (fun _ => True) m)
    (hscript : frame.native = none) {fuel executed start : Nat} {limit : Option Nat}
    (hdisciplined : Turn.disciplined ⟨fuel, limit, executed, start, m⟩ f) (hcountable : m.countable f)
    (hunspent : limit.any (· ≤ executed) = false)
    (hcaught : ∀ e m', step E f fuel limit executed start m = (.error (.fault (.runtime e)), m') →
      m'.countable f ∧ ∃ own, (m'.fiber f).calls = own ++ calls ∧ ∃ frame ∈ own, frame.handlers.onError.isSome)
    {round : Round} (hround : Exec.round E f fuel limit executed start m = (.ok round, m₁)) :
    Handles f ip calls lower round.resumption m₁ := by
  obtain ⟨bottom, ⟨rfl, -⟩, hcalls⟩ := h.sits.calls
  have hQ : (m.calling f ip bottom lower.size).Catches (Handles f ip bottom lower) := catches_handles h.kept
  have hback : (m.fiber f).frames.back? = some frame := by
    rw [Fiber.back?_frames]
    exact congrArg List.head? hcalls
  have hfits (i : Instruction) (hi : m.code.get? start = some i) :
      frame.base + i.demand ≤ (m.fiber f).values.size := by
    simpa [Turn.disciplined, hback, hi] using hdisciplined
  have hstep : Triple (· = m) (step E f fuel limit executed start) _ _ :=
    Footing.step_catches hQ hE fuel hunspent h.sits hscript (h.low hcountable) fun _ => hfits
  have hstep := hstep m rfl
  rcases hrun : step E f fuel limit executed start m with ⟨s | flow, m'⟩ <;> rw [hrun] at hstep
  · by_cases hs : s.isCatchable
    · obtain ⟨e, rfl⟩ := Stop.eq_runtime hs
      obtain ⟨own', hsits⟩ := hstep
      obtain ⟨hcount, own'', hown, hhandler⟩ := hcaught e m' hrun
      obtain ⟨_, ⟨rfl, -⟩, hown'⟩ := hsits.calls
      obtain rfl := List.append_cancel_right (hown'.symm.trans hown)
      have hunwind : Triple _ (unwind E f fuel e start) _ _ :=
        Footing.unwind_catches hQ hE fuel e start (hsits.low hcount) (.inl hhandler)
      have hunwind := hunwind m' hsits
      rw [round_of_runtime hrun, recover] at hround
      rcases hends : unwind E f fuel e start m' with ⟨s | r, m''⟩ <;> rw [hends] at hunwind
      · rw [bind_error hends] at hround
        cases hround
      · rw [bind_ok hends] at hround
        cases r with
        | jump target =>
          cases hround
          exact hunwind
        | done => exact hunwind.elim
        | yielded =>
          cases hround
          exact hunwind
    · rw [round_of_error hrun (by simpa using hs)] at hround
      cases hround
  · rw [round_of_ok hrun] at hround
    cases hround
    rcases flow with _ | (_ | _ | _)
    case next =>
      obtain ⟨top, own, hscript, hsits⟩ := hstep
      exact .inl ⟨top, own, hscript, .of_sits hsits h.kept⟩
    case transfer.done => exact hstep.elim
    all_goals exact hstep

theorem eq_push_of_kept {values : Array Value} (hsize : 0 + 1 ≤ values.size) (hground : values.size - 0 - 1 = lower.size)
    (hkept : ∀ i < lower.size, values[i]? = lower[i]?) : values = lower.push (values.back?.getD .nil) := by
  refine Array.ext_getElem? fun i => ?_
  rw [Array.getElem?_push]
  rcases lt_trichotomy i lower.size with hi | rfl | hi
  · rw [if_neg hi.ne, hkept i hi]
  · rw [if_pos rfl, Array.back?_eq_getElem?, ← hground, Nat.sub_zero,
      Array.getElem?_eq_getElem (by omega), Option.getD_some]
  · rw [if_neg hi.ne', Array.getElem?_eq_none (by omega), Array.getElem?_eq_none hi.le]

/-- Through all turns of a handler, and whatever happens between them, what is below it stays the same.
In the end its answer is on top of that, and the caller goes on behind its instruction. -/
theorem Exec.Course.answers (hE : Quiet E) {r : Resumption} {target : Nat}
    (h : Course E f ip calls r m target m') (hm : Handles f ip calls lower r m) :
    target = ip + 1 ∧ Busy m' f ∧ (m'.fiber f).calls = calls ∧ ∃ v, (m'.fiber f).values = lower.push v := by
  induction h with
  | back hcalls =>
    rcases hm with ⟨frame, own, -, hunder⟩ | ⟨rfl, hunder⟩
    · obtain ⟨_, ⟨rfl, -⟩, hown⟩ := hunder.sits.calls
      have hlength := congrArg List.length (hcalls.symm.trans hown)
      simp only [List.cons_append, List.length_cons, List.length_append] at hlength
      omega
    · obtain ⟨hsize, hground⟩ := (hunder.sits.piled trivial).2
      refine ⟨rfl, hunder.sits.busy, hcalls, _, eq_push_of_kept hsize hground hunder.kept⟩
  | turn hframes hdisciplined hcountable hunspent hcaught hround _ ih =>
    rcases hm with ⟨frame, own, hscript, hunder⟩ | ⟨-, hunder⟩
    · exact ih (hunder.round hE hscript hdisciplined hcountable hunspent hcaught hround)
    · obtain ⟨_, ⟨rfl, -⟩, hown⟩ := hunder.sits.calls
      exact (hframes hown).elim
  | later hcalls hvalues hsound hbusy hcode _ ih =>
    have hmoved {own : List Frame} {P : Array Value → Prop} (h : Under f ip calls lower own P _) :
        Under f ip calls lower own P _ :=
      .moved h.sits h.kept hcalls (fun _ _ => by rw [hvalues]) (hvalues ▸ (h.sits.piled trivial).1.level) hsound hbusy
        hcode (hvalues ▸ (h.sits.piled trivial).2)
    exact ih (hm.imp (fun ⟨frame, own, hscript, h⟩ => ⟨frame, own, hscript, hmoved h⟩) fun h => ⟨h.1, hmoved h.2⟩)
  | @resumed start _ m m₁ _ _ arguments hyielded hsaved hcalls hvalues hf hsound hcode _ ih =>
    obtain ⟨own, isEntry, hroute, hunder⟩ := hm
    have hfiber := fiber_continued hf arguments
    obtain ⟨hsize, hground⟩ : 0 + 1 ≤ (m.fiber f).values.size ∧ _ := (hunder.sits.piled trivial).2
    have hlevel : _ ≤ (m.fiber f).values.size - 0 - 1 := hground.level_le
    have hstack : ((m₁.continued f arguments).fiber f).values = (m.fiber f).values.pop.push (.tuple arguments) := by
      rw [hfiber, ← hvalues]
    have hheight : ((m₁.continued f arguments).fiber f).values.size = (m.fiber f).values.size := by
      rw [hstack, Array.size_push, Array.size_pop]
      exact Nat.sub_add_cancel hsize
    have hmoved : Under f ip calls lower own ((m.calling f ip calls lower.size).Stacked own 0)
        (m₁.continued f arguments) := by
      refine .moved hunder.sits hunder.kept ?_ (fun i hi => ?_) ?_ hsound ⟨?_, .inr ?_⟩ hcode ?_
      · rw [hfiber]
        exact hcalls
      · rw [hstack, Array.getElem?_push, if_neg (by rw [Array.size_pop]; omega), Array.getElem?_pop,
          if_pos (by omega)]
      · rw [hheight]
        omega
      · rw [continued, withFiber, Array.size_modify, size_entered]
        exact hf
      · rw [hfiber]
      · rw [Footing.Stacked, hheight]
        exact ⟨hsize, hground⟩
    rw [hsaved] at hroute
    cases own with
    | nil => exact ih (.inr ⟨Option.some.inj hroute.1, hmoved⟩)
    | cons caller own =>
      exact ih (.inl ⟨caller, own, hroute.2.2, hmoved.sits.mono fun _ _ => trivial, hmoved.kept⟩)

end Running

/-- The call of a handler above some values is the first part of its course. -/
theorem callHandler_handles {E : Engine} (hE : Quiet E) {m : Machine} {f : FiberId} {ip : Nat} (hsound : Sound m)
    (hbusy : Busy m f) (hcode : (m.code.get? (ip + 1)).all fun i => !(i.op == .ret && i.number == 1))
    {fuel : Nat} {handler : Value} {arguments : List Value} {flow : Flow} {m₁ : Machine}
    (hrun : callHandler E f fuel ip handler arguments m = (.ok flow, m₁)) :
    ∃ res, flow = .transfer res ∧ Handles f ip (m.fiber f).calls (m.fiber f).values res m₁ := by
  let g := m.calling f ip (m.fiber f).calls (m.fiber f).values.size
  have hsits : g.Sits [] (fun vs => g.Ground [] vs.size) m := ⟨.refl _ _, hsound, hbusy, ⟨_, ⟨rfl, hcode⟩, rfl⟩,
    trivial, fun _ => ⟨⟨trivial, le_rfl, fun _ _ => rfl, rfl⟩, rfl⟩⟩
  have hQ : g.Catches (Handles f ip (m.fiber f).calls (m.fiber f).values) := catches_handles fun _ _ => rfl
  have hcall : Triple (g.Ready [] (0 + arguments.length))
      (performCall E f fuel arguments.length (.byInstruction ip)) (Handles f ip (m.fiber f).calls (m.fiber f).values)
      (fun _ => g.Holds) := by
    rw [Nat.zero_add]
    exact Footing.performCall_catches hQ hE fuel ⟨rfl, rfl⟩ fun _ _ h => nomatch h
  have htriple : Triple (g.Sits [] fun vs => g.Ground [] vs.size) (callHandler E f fuel ip handler arguments)
      (fun flow m => ∃ res, flow = .transfer res ∧ Handles f ip _ _ res m) (fun _ => g.Holds) :=
    .bind (Footing.push_grounded handler) fun _ => .bind (Footing.pushAll_ready arguments) fun _ =>
      .bind hcall fun res => .pure fun m h => ⟨res, rfl, h⟩
  have hends := htriple m hsits
  rwa [hrun] at hends

/-- The code of a comparison removes both operands and leaves whether the first one is not the larger
one: by the order of numbers or texts, or else by what a handler answers. -/
theorem less_equal_computed {E : Engine} (hE : Quiet E) {m : Machine} {f : FiberId} {ip : Nat} {rest : Array Value}
    {l r : Value} (hsound : Sound m) (hbusy : Busy m f) (hvalues : (m.fiber f).values = (rest.push l).push r)
    {i j : Instruction} (hemitted : Instruction.operator .lessEq = [i, j]) (hnext : m.code.get? (ip + 1) = some j) :
    match lessOrEqual? l.toScalar r.toScalar, m.heap.comparison? l.toScalar r.toScalar with
    | some b, _ => ∀ fuel, Straight E f fuel ip [i, j] m (m.withValues f (rest.push (.bool b)))
    | none, none => ∀ fuel, (execute E f fuel ip i m).1 =
      .error (.fault (.complain (.ofComparison l.toScalar r.toScalar)))
    | none, some (handler, negated, a, b) => ∀ fuel,
      execute E f fuel ip i m =
        callHandler E f fuel ip handler [a, b] (m.withValues f (rest.push (.bool negated))) ∧
      ∀ flow m₁, execute E f fuel ip i m = (.ok flow, m₁) → ∃ res, flow = .transfer res ∧
        ∀ target m', Course E f ip (m.fiber f).calls res m₁ target m' → target = ip + 1 ∧
          ∃ v, (m'.fiber f).values = (rest.push (.bool negated)).push v ∧
            ∀ fuel, execute E f fuel target j m' =
              (.ok .next, m'.withValues f (rest.push (.bool (negated != v.toScalar.isTruthy)))) ∧
            ((m'.withValues f (rest.push (.bool (negated != v.toScalar.isTruthy)))).fiber f).calls =
              (m.fiber f).calls := by
  obtain ⟨rfl, rfl⟩ : i = .plain .lessEq ∧ j = .plain .conditionalNot := by
    simpa [Instruction.operator, eq_comm] using hemitted
  have hexecute (fuel : Nat) : execute E f fuel ip (.plain .lessEq) m = lessEqual E f fuel ip m := rfl
  have hnot (fuel target : Nat) : execute E f fuel target (.plain .conditionalNot) = conditionalNot f := rfl
  have happly (fuel : Nat) : lessEqual E f fuel ip m = _ := lessEqual_apply hbusy.1 hvalues
  cases hprimitive : lessOrEqual? l.toScalar r.toScalar with
  | some b =>
    simp only [hprimitive] at happly
    intro fuel
    have hnegate := conditionalNot_apply (m := m.withValues f ((rest.push (.bool false)).push (.bool b))) (f := f)
      (m.present_withFiber hbusy.1) (by rw [Machine.fiber_withValues hbusy.1])
    rw [Machine.withValues, Machine.withValues, Machine.withFiber_withFiber] at hnegate
    refine .next (happly fuel) (.next (hnegate.trans ?_) .done)
    cases b <;> rfl
  | none =>
    cases hcomparison : m.heap.comparison? l.toScalar r.toScalar with
    | none =>
      simp only [hprimitive, hcomparison] at happly
      exact fun fuel => congrArg Prod.fst (happly fuel)
    | some comparison =>
      obtain ⟨handler, negated, a, b⟩ := comparison
      simp only [hprimitive, hcomparison] at happly
      refine fun fuel => ⟨happly fuel, fun flow m₁ hrun => ?_⟩
      have halone := Alone.withFiber (g := fun b => { b with values := rest.push (.bool negated) }) hbusy.1 (.stacks ..)
      have hcode : (m.code.get? (ip + 1)).all fun i => !(i.op == .ret && i.number == 1) := by
        rw [hnext]
        rfl
      obtain ⟨res, hflow, hhandles⟩ := callHandler_handles hE (halone.sound hsound) (halone.busy hbusy) hcode
        ((happly fuel).symm.trans hrun)
      rw [← Machine.withValues, Machine.fiber_withValues hbusy.1] at hhandles
      refine ⟨res, hflow, fun target m' hcourse => ?_⟩
      obtain ⟨htarget, hbusy', hcalls, v, hvalues'⟩ := hcourse.answers hE hhandles
      refine ⟨htarget, v, hvalues', fun fuel => ⟨conditionalNot_apply hbusy'.1 hvalues', ?_⟩⟩
      rw [Machine.fiber_withValues hbusy'.1]
      exact hcalls

/-- A machine that is about to compare an object with something else. The code of the object's handler
comes behind that of the comparison. -/
def comparing (handler : List Instruction) : Machine where
  code := { instructions := ⟨.plain .lessEq :: .plain .conditionalNot :: handler⟩ }
  heap := {
    tables := #[({} : Table).append (.string "__le") (.string "__le") (.closure ⟨0⟩),
      { metatable := some ⟨0⟩ }]
    closures := #[{ entry := 2 }] }
  fibers := #[{
    values := #[.table ⟨1⟩, .bool true]
    frames := #[{ base := 0, isEntry := true }], status := .main, owner := ⟨0⟩ }]

/-- The machine when the handler has been entered, with some values of its own. -/
def comparingIn (handler : List Instruction) (flag : Bool) (own : List Value) : Machine :=
  { comparing handler with
    fibers := #[{
      values := ⟨[.bool flag, .closure ⟨0⟩, .table ⟨1⟩, .bool true, .ofNat 2] ++ own⟩
      frames := #[{ base := 0, isEntry := true }, { entry := 2, base := 5, returnTo := some 1 }]
      status := .main, owner := ⟨0⟩ }] }

/-- The machine when the handler has come back. -/
def comparingOut (handler : List Instruction) (values : Array Value) : Machine :=
  { comparing handler with
    fibers := #[{ values, frames := #[{ base := 0, isEntry := true }], status := .main, owner := ⟨0⟩ }] }

theorem values_comparing (handler : List Instruction) :
    ((comparing handler).fiber ⟨0⟩).values = (#[].push (.table ⟨1⟩)).push (.bool true) := rfl

theorem handler_comparing (handler : List Instruction) :
    (comparing handler).heap.comparison? (.table ⟨1⟩) (.bool true) =
      some (.closure ⟨0⟩, false, .table ⟨1⟩, .bool true) := rfl

theorem execute_comparing (E : Engine) (handler : List Instruction) :
    execute E ⟨0⟩ 1 0 (.plain .lessEq) (comparing handler) =
      (.ok (.transfer (.jump 2)), comparingIn handler false []) := by
  have hcompare : lessEqual E ⟨0⟩ 1 0 (comparing handler) = _ :=
    lessEqual_apply Nat.zero_lt_one (values_comparing handler)
  simp only [Value.toScalar, lessOrEqual?, handler_comparing] at hcompare
  let m := (comparing handler).withValues ⟨0⟩ #[.bool false]
  have hcall : callHandler E ⟨0⟩ 1 0 (.closure ⟨0⟩) [.table ⟨1⟩, .bool true] m =
      enterHandler E ⟨0⟩ 0 0 2 (m.stacked ⟨0⟩ (.closure ⟨0⟩) [.table ⟨1⟩, .bool true]) :=
    callHandler_apply Nat.zero_lt_one rfl 0 _
  exact hcompare.trans (hcall.trans (Prod.ext rfl rfl))

/-- A handler that answers with true. -/
def agreeing : List Instruction := [.literal (.bool true), .numbered .ret 1]

/-- A handler that puts true in the place of a value of its caller, and answers with that one. -/
def swapping : List Instruction := [.literal (.bool true), .swap 0 5, .numbered .ret 1]

/-- The handler of an object agrees, and so does the comparison. -/
theorem less_equal_comparing : ∃ m', Course (watched 1) ⟨0⟩ 0 ((comparing agreeing).fiber ⟨0⟩).calls (.jump 2)
      (comparingIn agreeing false []) 1 m' ∧ ∃ v : Value, (m'.fiber ⟨0⟩).values = #[.bool false, v] ∧
    ∀ fuel, execute (watched 1) ⟨0⟩ fuel 1 (.plain .conditionalNot) m' =
      (.ok .next, m'.withValues ⟨0⟩ #[.bool (false != v.toScalar.isTruthy)]) := by
  have hnext : (comparing agreeing).code.get? (0 + 1) = some (.plain .conditionalNot) := rfl
  have hcompared := less_equal_computed (quiet_watched 1) (m := comparing agreeing)
    ⟨⟨Nat.zero_lt_one, rfl⟩, fun _ h => nomatch h⟩
    ⟨Nat.zero_lt_one, .inl rfl⟩ (values_comparing agreeing) rfl hnext
  simp only [Value.toScalar, lessOrEqual?, handler_comparing] at hcompared
  obtain ⟨_, hflow, hback⟩ := (hcompared 1).2 _ _ (execute_comparing (watched 1) agreeing)
  obtain rfl := Flow.transfer.inj hflow
  have hliteral : Exec.round (watched 1) ⟨0⟩ 1 none 0 2 (comparingIn agreeing false []) =
      (.ok (.again none 3), comparingIn agreeing false [.bool true]) := rfl
  have hreturn : Exec.round (watched 1) ⟨0⟩ 1 none 0 3 (comparingIn agreeing false [.bool true]) =
      (.ok (.again none 1), comparingOut agreeing #[.bool false, .bool true]) := rfl
  have hcourse : Course (watched 1) ⟨0⟩ 0 ((comparing agreeing).fiber ⟨0⟩).calls (.jump 2) _ 1 _ :=
    .turn (t := ⟨1, none, 0, 2, comparingIn agreeing false []⟩)
      (fun h => nomatch congrArg List.length h) rfl rfl rfl (fun _ _ h => nomatch congrArg Prod.fst h) hliteral
      (.turn (t := ⟨1, none, 0, 3, comparingIn agreeing false [.bool true]⟩)
        (fun h => nomatch congrArg List.length h) rfl rfl rfl (fun _ _ h => nomatch congrArg Prod.fst h) hreturn (.back rfl))
  obtain ⟨-, v, hvalues, hnot⟩ := hback _ _ hcourse
  exact ⟨_, hcourse, v, hvalues, fun fuel => (hnot fuel).1⟩

/-- The handler has answered with false, and the comparison comes to true: the flag below the handler is
not what it was. -/
theorem comparison_misled : ∃ m m₁ m₂,
    execute (engine 1) ⟨0⟩ 1 0 (.plain .lessEq) (comparing swapping) = (.ok (.transfer (.jump 2)), m) ∧
    Straight (engine 1) ⟨0⟩ 1 2 [.literal (.bool true), .swap 0 5] m m₁ ∧
    (m₁.fiber ⟨0⟩).values.back? = some (.bool false) ∧
    execute (engine 1) ⟨0⟩ 1 4 (.numbered .ret 1) m₁ = (.ok (.transfer (.jump 1)), m₂) ∧
    (m₂.fiber ⟨0⟩).values = #[.bool true, .bool false] ∧
    execute (engine 1) ⟨0⟩ 1 1 (.plain .conditionalNot) m₂ = (.ok .next, m₂.withValues ⟨0⟩ #[.bool true]) := by
  have hliteral : execute (engine 1) ⟨0⟩ 1 2 (.literal (.bool true)) (comparingIn swapping false []) =
      (.ok .next, comparingIn swapping false [.bool true]) := rfl
  have hswap : execute (engine 1) ⟨0⟩ 1 3 (.swap 0 5) (comparingIn swapping false [.bool true]) =
      (.ok .next, comparingIn swapping true [.bool false]) := rfl
  exact ⟨_, _, comparingOut swapping #[.bool true, .bool false], execute_comparing _ _,
    .next hliteral (.next hswap .done), rfl, rfl, rfl, rfl⟩

end ScriptMachine
