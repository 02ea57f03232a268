import ScriptMachine.Proofs.Machine.Comparing
import ScriptMachine.Proofs.Machine.Flatness

namespace ScriptMachine

open Exec

variable {vs : List Value} {v : Value}

namespace Value

/-- A value that is no tuple, or a tuple with no tuple among its items. -/
def isShallow : Value → Bool
  | tuple items => items.all fun v => !v.isTuple
  | _ => true

/-- The first items of all values but the last one, and all items of that. -/
def flattened (vs : List Value) : List Value :=
  vs.dropLast.map (fun v => v.toList.headD nil) ++ vs.getLast?.elim [] toList

theorem join_eq_flattened (vs : List Value) : join vs = flattened vs := by
  fun_induction join vs with
  | case1 => rfl
  | case2 v => rfl
  | case3 v vs hvs ih =>
    obtain ⟨w, ws, rfl⟩ := List.exists_cons_of_ne_nil fun h => hvs h
    have hleading : v.leading = v.toList.headD nil := by cases v <;> rfl
    rw [ih, hleading]
    simp [flattened]

theorem not_isTuple_of_mem_toList (h : v.isShallow) : ∀ w ∈ v.toList, w.isTuple = false := by
  cases v with
  | tuple items => simpa [isShallow, toList] using h
  | _ => simp [toList, isTuple]

theorem not_isTuple_of_mem_flattened (hvs : ∀ v ∈ vs, v.isShallow) :
    ∀ v ∈ flattened vs, v.isTuple = false := by
  intro v hv
  rcases List.mem_append.1 hv with hv | hv
  · obtain ⟨w, hw, rfl⟩ := List.mem_map.1 hv
    have hitems := not_isTuple_of_mem_toList (hvs w (List.mem_of_mem_dropLast hw))
    cases hlist : w.toList with
    | nil => rfl
    | cons x xs => exact hitems x (by simp [hlist])
  · cases hlast : vs.getLast? with
    | none => simp [hlast] at hv
    | some w =>
      rw [hlast] at hv
      exact not_isTuple_of_mem_toList (hvs w (List.mem_of_getLast? hlast)) v hv

theorem toList_of_not_isTuple (h : v.isTuple = false) : v.toList = [v] := by
  cases v with
  | tuple items => cases h
  | _ => rfl

theorem toList_pack (h : ∀ v ∈ join vs, v.isTuple = false) : (pack vs).toList = join vs := by
  unfold pack
  split
  next v hv => rw [hv, toList_of_not_isTuple (h v (by simp [hv]))]
  next => rfl

/-- Values without a tuple among them are joined as they are. -/
theorem join_of_not_isTuple (h : ∀ v ∈ vs, v.isTuple = false) : join vs = vs := by
  fun_induction join vs with
  | case1 => rfl
  | case2 v => exact toList_of_not_isTuple (h v (by simp))
  | case3 v vs hvs ih =>
    have hv : v.leading = v := by
      cases v with
      | tuple items => cases h (.tuple items) (by simp)
      | _ => rfl
    rw [hv, ih fun w hw => h w (by simp [hw])]

end Value

open Value

section Instruction

variable {E : Engine} {f : FiberId} {fuel ip : Nat} {m : Machine} {rest : Array Value}
  {i : Instruction}

theorem Exec.popMany_apply (hvalues : (m.fiber f).values = rest ++ vs.toArray) :
    popMany f vs.length m = (.ok vs, m.withValues f rest) := by
  have hsize : (m.fiber f).values.size = rest.size + vs.length := by simp [hvalues]
  have htaken : ((m.fiber f).values.extract rest.size (rest.size + vs.length)).toList = vs := by
    simp [hvalues]
  have hleft : m.withFiber f (fun b => { b with values := b.values.shrink rest.size }) =
      m.withValues f rest := Machine.withFiber_congr (by simp [hvalues])
  rw [popMany_eq, if_neg (by omega), hsize, Nat.add_sub_cancel, htaken, hleft]

theorem Exec.execute_makeTuple (hi : i.op = .makeTuple) (hcount : i.count = vs.length)
    (hvalues : (m.fiber f).values = rest ++ vs.toArray) : execute E f fuel ip i m =
      (.ok .next, m.withValues f (rest.push (.tuple (pack vs).toList))) := by
  rw [execute, hi]
  simp only [hcount]
  exact (bind_ok (popMany_apply hvalues)).trans (bind_ok (push_withValues m f rest _))

end Instruction

/-- Values without nested tuples are packed into a value that is no tuple, or into a tuple that has no
tuple in it and does not have just one item. Its items are the first ones of all values but the last,
and all of that; packing them again changes nothing. The instruction that makes a tuple replaces its
operands by the tuple of these items. -/
theorem values_flattened (hvs : ∀ v ∈ vs, v.isShallow) :
    (pack vs).isShallow ∧ (∀ items, pack vs = .tuple items → items.length ≠ 1) ∧
      (pack vs).toList = flattened vs ∧ pack (pack vs).toList = pack vs ∧
      (Value.tuple (flattened vs)).isShallow ∧
      ∀ (E : Engine) (f : FiberId) (fuel ip : Nat) (i : Instruction) (m : Machine) (rest : Array Value),
        i.op = .makeTuple → i.count = vs.length → (m.fiber f).values = rest ++ vs.toArray →
        execute E f fuel ip i m = (.ok .next, m.withValues f (rest.push (.tuple (flattened vs)))) := by
  have hitems := not_isTuple_of_mem_flattened hvs
  have hjoin := join_eq_flattened vs
  have hlist : (pack vs).toList = flattened vs := by
    rw [toList_pack (hjoin ▸ hitems), hjoin]
  have hshallow : (Value.tuple (flattened vs)).isShallow := by simpa [isShallow] using hitems
  refine ⟨?_, ?_, hlist, ?_, hshallow, fun E f fuel ip i m rest hi hcount hvalues => ?_⟩
  · unfold pack
    rw [hjoin]
    split
    next v hv =>
      have hv := hitems v (by simp [hv])
      cases v with
      | tuple items => cases hv
      | _ => rfl
    next => exact hshallow
  · intro items h hlength
    obtain ⟨v, rfl⟩ := List.length_eq_one_iff.1 hlength
    have hone : flattened vs = [v] := by rw [← hlist, h, toList]
    rw [pack, hjoin, hone] at h
    have hv := hitems v (by simp [hone])
    simp only at h
    rw [h] at hv
    cases hv
  · rw [hlist]
    unfold pack
    rw [join_of_not_isTuple hitems, hjoin]
  · rw [execute_makeTuple hi hcount hvalues, hlist]

/-- A machine with a tuple, a number and the tuple again on its stack. -/
def packing : Machine where
  fibers := #[{
    status := .main
    owner := ⟨0⟩
    values := #[.nil, .tuple [.ofNat 2, .ofNat 3], .ofNat 1, .tuple [], .tuple [.ofNat 2, .ofNat 3]] }]

theorem values_flattened_packing :
    execute (fun _ => complain .tostringResult) ⟨0⟩ 0 0 { op := .makeTuple, number := 4 } packing =
      (.ok .next, packing.withValues ⟨0⟩ #[.nil, .tuple [.ofNat 2, .ofNat 1, .nil, .ofNat 2, .ofNat 3]]) := by
  obtain ⟨-, -, -, -, -, hrun⟩ := @values_flattened
    [.tuple [.ofNat 2, .ofNat 3], .ofNat 1, .tuple [], .tuple [.ofNat 2, .ofNat 3]] (by decide)
  exact hrun _ ⟨0⟩ 0 0 { op := .makeTuple, number := 4 } packing #[.nil] rfl (by decide) rfl

end ScriptMachine
