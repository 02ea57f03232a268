import ScriptMachine.Proofs.Machine.PendingValues
import ScriptMachine.Proofs.Table.Representation

namespace ScriptMachine

open Exec

namespace Heap

/-- Reads and writes of a table that does not hold a key go on with the same table, or end there. -/
structure Mirrored (h : Heap) (t : TableId) (next : Option TableId) : Prop where
  index : h.metamethod? (.table t) "__index" = next.map .table
  newindex : h.metamethod? (.table t) "__newindex" = next.map .table

/-- From a table one comes through others to a last one. -/
inductive Leads (h : Heap) : TableId → List TableId → TableId → Prop
  | here (t : TableId) : Leads h t [] t
  | next {t t' last : TableId} {ts : List TableId} (hnext : h.Mirrored t (some t'))
      (hrest : Leads h t' ts last) : Leads h t (t :: ts) last

/-- A table from which one comes to others, where all of them have a next one or none for reading and
writing alike, exist, and have room. -/
structure MirrorChain (h : Heap) (t₀ : TableId) : Prop where
  mirrored {ts : List TableId} {t : TableId} : h.Leads t₀ ts t → ∃ next, h.Mirrored t next
  present {ts : List TableId} {t : TableId} : h.Leads t₀ ts t → t.index < h.tables.size
  consistent {ts : List TableId} {t : TableId} : h.Leads t₀ ts t → (h.table t).Consistent
  roomy {ts : List TableId} {t : TableId} : h.Leads t₀ ts t → (h.table t).load + 1 < 2 ^ 53

/-- The first table that holds a key, or else the one where the chain ends. -/
structure StopsAt (h : Heap) (key : Value) (t₀ : TableId) (ts : List TableId) (last : TableId) :
    Prop where
  leads : h.Leads t₀ ts last
  free : ∀ t ∈ ts, (h.table t).get key = .nil
  stops : (h.table last).get key ≠ .nil ∨ h.Mirrored last none

end Heap

section Tables

open Table

theorem Table.metatable_absorb (n : Nat) (t : Table) : (absorb n t).metatable = t.metatable := by
  induction n generalizing t with
  | zero => rfl
  | succ n ih =>
    rw [absorb]
    cases hnext : t.absorbNext? with
    | none => rfl
    | some t' =>
      refine (ih t').trans ?_
      simp only [absorbNext?, Option.bind_eq_bind, Option.bind_eq_some_iff] at hnext
      obtain ⟨k, -, ⟨i, v⟩, -, hnext⟩ := hnext
      split at hnext
      · cases hnext
      · cases hnext
        rfl

theorem Table.metatable_setEntry (t : Table) (k : Key) (key v : Value) :
    (t.setEntry k key v).metatable = t.metatable := by
  unfold setEntry
  split
  · rfl
  · split
    · rfl
    · split <;> rfl

theorem Table.metatable_insertEntry (t : Table) (key v : Value) :
    (t.insertEntry key v).metatable = t.metatable := by
  unfold insertEntry
  split
  · exact metatable_setEntry ..
  · rfl

theorem Table.metatable_insert (t : Table) (key v : Value) :
    (t.insert key v).metatable = t.metatable := by
  have herase : (t.eraseEntry key).metatable = t.metatable := by
    unfold eraseEntry
    split <;> rfl
  unfold insert
  split
  · exact metatable_insertEntry ..
  · split_ifs
    · rfl
    · exact (metatable_absorb ..).trans herase
    · exact metatable_insertEntry ..

theorem Table.get_string (t : Table) (s : String) : t.get (.string s) = t.getString s := rfl

theorem Table.key?_ne_string {key : Value} {s : String} (h : key ≠ .string s) (hkey : isKey key = true) :
    key? key ≠ key? (.string s) := by
  intro heq
  cases key <;> simp_all [isKey, key?]

end Tables

section Writing

open Table

variable {h : Heap} {t last : TableId} {key v : Value} {g : Table → Table}

theorem Heap.table_modifyTable_self (ht : t.index < h.tables.size) :
    (h.modifyTable t g).table t = g (h.table t) := by
  simp only [table, modifyTable, Array.getD_eq_getD_getElem?, Array.getElem?_modify, if_true,
    Array.getElem?_eq_getElem ht]
  rfl

theorem Heap.table_modifyTable_ne {t' : TableId} (hne : t' ≠ t) :
    (h.modifyTable t g).table t' = h.table t' := by
  have hindex : t.index ≠ t'.index := fun heq => hne (by cases t; cases t'; cases heq; rfl)
  simp only [table, modifyTable, Array.getD_eq_getD_getElem?, Array.getElem?_modify, if_neg hindex]

theorem Heap.metamethod?_modifyTable (hlast : last.index < h.tables.size)
    (hconsistent : (h.table last).Consistent) (hroomy : (h.table last).load + 1 < 2 ^ 53)
    (hkey : isKey key = true) {event : String} (hevent : key ≠ .string event) (t : TableId) :
    (h.modifyTable last fun t => t.insert key v).metamethod? (.table t) event =
      h.metamethod? (.table t) event := by
  have hmetatable (t : TableId) : ((h.modifyTable last fun t => t.insert key v).table t).metatable =
      (h.table t).metatable := by
    by_cases ht : t = last
    · rw [ht, table_modifyTable_self hlast, metatable_insert]
    · rw [table_modifyTable_ne ht]
  have hget (t : TableId) : ((h.modifyTable last fun t => t.insert key v).table t).getString event =
      (h.table t).getString event := by
    by_cases ht : t = last
    · rw [ht, table_modifyTable_self hlast, ← get_string, hconsistent.get_insert hroomy hkey rfl,
        if_neg (key?_ne_string hevent hkey), get_string]
    · rw [table_modifyTable_ne ht]
  simp only [metamethod?, metatable?, hmetatable, hget]

end Writing

namespace Heap

variable {h h' : Heap} {t₀ t last : TableId} {ts : List TableId} {key : Value} {next : Option TableId}

theorem Mirrored.handler (hm : h.Mirrored t next) {event : String}
    (hevent : event = "__index" ∨ event = "__newindex") :
    h.metamethod? (.table t) event = next.map .table := by
  rcases hevent with rfl | rfl
  · exact hm.index
  · exact hm.newindex

theorem Leads.snoc {t' : TableId} (hleads : h.Leads t₀ ts t) (hnext : h.Mirrored t (some t')) :
    h.Leads t₀ (ts ++ [t]) t' := by
  induction hleads with
  | here t => exact .next hnext (.here t')
  | next hfirst _ ih => exact .next hfirst (ih hnext)

theorem Leads.exists_next (hleads : h.Leads t₀ ts last) (ht : t ∈ ts) :
    ∃ t', h.Mirrored t (some t') := by
  induction hleads with
  | here _ => cases ht
  | @next _ t' _ _ hnext _ ih =>
    rcases List.mem_cons.1 ht with rfl | ht
    · exact ⟨t', hnext⟩
    · exact ih ht

theorem Leads.mono (hmirrored : ∀ t next, h.Mirrored t next → h'.Mirrored t next)
    (hleads : h.Leads t₀ ts last) : h'.Leads t₀ ts last := by
  induction hleads with
  | here t => exact .here t
  | next hnext _ ih => exact .next (hmirrored _ _ hnext) ih

/-- A chain stops somewhere, or goes on for as long as one likes. -/
theorem MirrorChain.stops_or_leads (hchain : h.MirrorChain t₀) (key : Value) (n : Nat) :
    (∃ ts last, h.StopsAt key t₀ ts last ∧ ts.length < n) ∨
      ∃ ts last, h.Leads t₀ ts last ∧ (∀ t ∈ ts, (h.table t).get key = .nil) ∧ ts.length = n := by
  induction n with
  | zero => exact .inr ⟨[], t₀, .here t₀, nofun, rfl⟩
  | succ n ih =>
    rcases ih with ⟨ts, last, hstops, hlength⟩ | ⟨ts, last, hleads, hfree, hlength⟩
    · exact .inl ⟨ts, last, hstops, Nat.lt_succ_of_lt hlength⟩
    · obtain ⟨next, hnext⟩ := hchain.mirrored hleads
      by_cases hnil : (h.table last).get key = .nil
      · cases next with
        | none => exact .inl ⟨ts, last, ⟨hleads, hfree, .inr hnext⟩, by omega⟩
        | some t' =>
          refine .inr ⟨ts ++ [last], t', hleads.snoc hnext, fun t ht => ?_, ?_⟩
          · rcases List.mem_append.1 ht with ht | ht
            · exact hfree t ht
            · rw [List.mem_singleton.1 ht, hnil]
          · rw [List.length_append, List.length_singleton, hlength]
      · exact .inl ⟨ts, last, ⟨hleads, hfree, .inl hnil⟩, by omega⟩

theorem StopsAt.not_mem (hstops : h.StopsAt key t₀ ts last) : last ∉ ts := by
  intro hmem
  rcases hstops.stops with hheld | hnone
  · exact hheld (hstops.free last hmem)
  · obtain ⟨t', hnext⟩ := hstops.leads.exists_next hmem
    have hsame := hnone.index.symm.trans hnext.index
    cases hsame

end Heap

section Access

variable {E : Engine} {m m' : Machine} {f : FiberId} {fuel ip hops : Nat} {mode : Indexing}
  {t₀ t t' last : TableId} {ts : List TableId} {key v : Value} {event : String}
  (hmode : mode ≠ .list)
include hmode

theorem Exec.accessStep_via (hevent : event = "__index" ∨ event = "__newindex")
    (hfree : (m.heap.table t).get key = .nil) (hnext : m.heap.Mirrored t (some t')) :
    accessStep (.table t) key mode event m = (.ok (.via (.table t')), m) := by
  rw [accessStep_table hmode, hfree, hnext.handler hevent]
  rfl

theorem Exec.accessStep_here (hevent : event = "__index" ∨ event = "__newindex")
    (hstops : (m.heap.table t).get key ≠ .nil ∨ m.heap.Mirrored t none) :
    accessStep (.table t) key mode event m = (.ok .here, m) := by
  rw [accessStep_table hmode]
  rcases hstops with hheld | hnone
  · rw [if_neg (by rwa [Table.isNil_iff])]
  · rw [hnone.handler hevent]
    split <;> rfl

/-- Both kinds of access come to the same table with the same number of steps left. -/
theorem Exec.writeThrough_leads (hleads : m.heap.Leads t₀ ts last)
    (hfree : ∀ t ∈ ts, (m.heap.table t).get key = .nil) :
    writeThrough E f fuel ip mode key v (hops + ts.length) (.table t₀) m =
      writeThrough E f fuel ip mode key v hops (.table last) m := by
  induction hleads with
  | here _ => rfl
  | next hnext _ ih =>
    rw [List.forall_mem_cons] at hfree
    rw [List.length_cons, ← Nat.add_assoc, writeThrough,
      bind_ok (accessStep_via hmode (.inr rfl) hfree.1 hnext)]
    exact ih hfree.2

theorem Exec.readThrough_leads (hleads : m.heap.Leads t₀ ts last)
    (hfree : ∀ t ∈ ts, (m.heap.table t).get key = .nil) :
    readThrough E f fuel ip mode key (hops + ts.length) (.table t₀) m =
      readThrough E f fuel ip mode key hops (.table last) m := by
  induction hleads with
  | here _ => rfl
  | next hnext _ ih =>
    rw [List.forall_mem_cons] at hfree
    rw [List.length_cons, ← Nat.add_assoc, readThrough,
      bind_ok (accessStep_via hmode (.inl rfl) hfree.1 hnext)]
    exact ih hfree.2

theorem Exec.writeThrough_stopsAt (hstops : m.heap.StopsAt key t₀ ts last)
    (hlength : ts.length < maxMetaHops) (hkey : Table.isKey key = true) :
    writeThrough E f fuel ip mode key v maxMetaHops (.table t₀) m =
      (.ok .next, { m with heap := m.heap.modifyTable last fun t => t.insert key v }) := by
  obtain ⟨hops, hhops⟩ := Nat.exists_eq_add_of_lt hlength
  have hcount : maxMetaHops = hops + 1 + ts.length := by omega
  have hcheck : Table.checkKey key.toScalar = .ok () := by
    rw [Table.toScalar_of_isKey hkey]
    cases key <;> simp_all [Table.isKey, Table.checkKey] <;> rfl
  have hset : setIndex last key v m =
      (.ok (), { m with heap := m.heap.modifyTable last fun t => t.insert key.toScalar v }) := by
    rw [setIndex, hcheck]
    rfl
  rw [hcount, writeThrough_leads hmode hstops.leads hstops.free, writeThrough,
    bind_ok (accessStep_here hmode (.inr rfl) hstops.stops)]
  dsimp only
  rw [bind_ok hset, Table.toScalar_of_isKey hkey]
  rfl

theorem Exec.readThrough_stopsAt (hstops : m.heap.StopsAt key t₀ ts last)
    (hlength : ts.length < maxMetaHops) :
    readThrough E f fuel ip mode key maxMetaHops (.table t₀) m =
      (.ok .next, m.withFiber f fun b =>
        { b with values := b.values.push ((m.heap.table last).get key) }) := by
  obtain ⟨hops, hhops⟩ := Nat.exists_eq_add_of_lt hlength
  have hcount : maxMetaHops = hops + 1 + ts.length := by omega
  rw [hcount, readThrough_leads hmode hstops.leads hstops.free, readThrough,
    bind_ok (accessStep_here hmode (.inl rfl) hstops.stops)]
  rfl

end Access

section Mirroring

variable {E : Engine} {m m₁ : Machine} {f : FiberId} {fuel ip : Nat} {mode mode' : Indexing}
  {t₀ last : TableId} {ts : List TableId} {key v : Value} {i j : Instruction}

theorem Exec.setIndexed_apply (hi : i.op = .setIndex mode)
    (hpop : popObjectAndKey f i m = (.ok (.table t₀, key), m₁))
    (hstored : storedValue f i m₁ = (.ok v, m₁)) : execute E f fuel ip i m =
      writeThrough E f fuel ip mode key v maxMetaHops (.table t₀) m₁ := by
  unfold execute
  rw [hi]
  dsimp only
  rw [setIndexed, bind_ok hpop]
  exact bind_ok hstored

theorem Exec.getIndex_apply (hj : j.op = .getIndex mode)
    (hpop : popObjectAndKey f j m = (.ok (.table t₀, key), m₁)) : execute E f fuel ip j m =
      readThrough E f fuel ip mode key maxMetaHops (.table t₀) m₁ := by
  unfold execute
  rw [hj]
  dsimp only
  rw [getIndex, bind_ok hpop]

/-- After a write the chain stops at the same table, which holds the value. -/
theorem Heap.StopsAt.write {h : Heap} (hchain : h.MirrorChain t₀) (hstops : h.StopsAt key t₀ ts last)
    (hkey : Table.isKey key = true) (hindex : key ≠ .string "__index")
    (hnewindex : key ≠ .string "__newindex") (hv : v ≠ .nil) :
    (h.modifyTable last fun t => t.insert key v).StopsAt key t₀ ts last ∧
      ((h.modifyTable last fun t => t.insert key v).table last).get key = v := by
  have hlast := hchain.present hstops.leads
  have hconsistent := hchain.consistent hstops.leads
  have hroomy := hchain.roomy hstops.leads
  have hget : ((h.modifyTable last fun t => t.insert key v).table last).get key = v := by
    rw [table_modifyTable_self hlast, hconsistent.get_insert hroomy hkey hkey, if_pos rfl]
  refine ⟨⟨hstops.leads.mono fun t next hnext => ?_, fun t ht => ?_, .inl (hget.symm ▸ hv)⟩, hget⟩
  · exact ⟨(metamethod?_modifyTable hlast hconsistent hroomy hkey hindex t).trans hnext.index,
      (metamethod?_modifyTable hlast hconsistent hroomy hkey hnewindex t).trans hnext.newindex⟩
  · have hne : t ≠ last := fun heq => hstops.not_mem (heq ▸ ht)
    rw [table_modifyTable_ne hne]
    exact hstops.free t ht

/-- Through a chain of tables that are mirrored, a successful store changes the first one that holds
the key, or else the last one, and a load then gives the value. If none of as many tables as an
access follows holds the key or ends the chain, both fail and nothing is changed. -/
theorem load_after_mirrored_store (hchain : m.heap.MirrorChain t₀) (hi : i.op = .setIndex mode)
    (hj : j.op = .getIndex mode') (hmode : mode ≠ .list) (hmode' : mode' ≠ .list)
    (hkey : Table.isKey key = true) (hindex : key ≠ .string "__index")
    (hnewindex : key ≠ .string "__newindex") (hv : v ≠ .nil)
    (hpop : popObjectAndKey f i m = (.ok (.table t₀, key), m₁))
    (hstored : storedValue f i m₁ = (.ok v, m₁)) :
    (∀ flow m', execute E f fuel ip i m = (.ok flow, m') → flow = .next ∧
      ∃ ts last, m.heap.StopsAt key t₀ ts last ∧ ts.length < maxMetaHops ∧
        (∀ t ≠ last, m'.heap.table t = m.heap.table t) ∧
        (m'.heap.table last).get key = v ∧
        (∀ k, Table.isKey k = true → Table.key? key ≠ Table.key? k →
          (m'.heap.table last).get k = (m.heap.table last).get k) ∧
        ∀ E f fuel ip m₂ m₃, m₂.heap = m'.heap →
          popObjectAndKey f j m₂ = (.ok (.table t₀, key), m₃) →
            execute E f fuel ip j m₂ =
              (.ok .next, m₃.withFiber f fun b => { b with values := b.values.push v })) ∧
    ((∀ ts t, m.heap.Leads t₀ ts t → ts.length < maxMetaHops →
        (m.heap.table t).get key = .nil ∧ ∃ t', m.heap.Mirrored t (some t')) →
      execute E f fuel ip i m = (.error (.fault (.complain .loopInSet)), m₁) ∧
      m₁.heap = m.heap ∧
      ∀ E f fuel ip m₂ m₃, m₂.heap = m.heap →
        popObjectAndKey f j m₂ = (.ok (.table t₀, key), m₃) →
          execute E f fuel ip j m₂ = (.error (.fault (.complain .loopInGet)), m₃) ∧
          m₃.heap = m.heap) := by
  have hheap {f : FiberId} {i : Instruction} {m m₁ : Machine} {p : Value × Value}
      (hpop : popObjectAndKey f i m = (.ok p, m₁)) : m₁.heap = m.heap := by
    rw [popObjectAndKey_eq_ok hpop]
    rfl
  have hstore : execute E f fuel ip i m = _ := setIndexed_apply hi hpop hstored
  rw [← hheap hpop] at hchain ⊢
  refine ⟨fun flow m' hrun => ?_, fun hendless => ?_⟩
  · rw [hstore] at hrun
    rcases hchain.stops_or_leads key maxMetaHops with ⟨ts, last, hstops, hlength⟩ |
      ⟨ts, last, hleads, hfree, hlength⟩
    · rw [writeThrough_stopsAt hmode hstops hlength hkey] at hrun
      obtain ⟨hflow, rfl⟩ := Prod.mk.inj hrun
      obtain ⟨hstops', hget⟩ := hstops.write hchain hkey hindex hnewindex hv
      refine ⟨(Except.ok.inj hflow).symm, ts, last, hstops, hlength,
        fun t ht => Heap.table_modifyTable_ne ht, hget, fun k hk hne => ?_,
        fun E f fuel ip m₂ m₃ hm₂ hpop => ?_⟩
      · rw [Heap.table_modifyTable_self (hchain.present hstops.leads),
          (hchain.consistent hstops.leads).get_insert (hchain.roomy hstops.leads) hkey hk, if_neg hne]
      · have hm₃ : m₃.heap = m₁.heap.modifyTable last fun t => t.insert key v :=
          (hheap hpop).trans hm₂
        rw [← hm₃] at hstops' hget
        rw [getIndex_apply hj hpop, readThrough_stopsAt hmode' hstops' hlength, hget]
    · have hloop : writeThrough E f fuel ip mode key v (0 + ts.length) (.table t₀) m₁ = _ :=
        writeThrough_leads hmode hleads hfree
      rw [Nat.zero_add, hlength, hrun] at hloop
      cases hloop
  · rcases hchain.stops_or_leads key maxMetaHops with ⟨ts, last, hstops, hlength⟩ |
      ⟨ts, last, hleads, hfree, hlength⟩
    · obtain ⟨hnil, t', hnext⟩ := hendless ts last hstops.leads hlength
      rcases hstops.stops with hheld | hnone
      · exact absurd hnil hheld
      · have hsame := hnone.index.symm.trans hnext.index
        cases hsame
    · refine ⟨?_, rfl, fun E f fuel ip m₂ m₃ hm₂ hpop => ?_⟩
      · have hloop : writeThrough E f fuel ip mode key v (0 + ts.length) (.table t₀) m₁ = _ :=
          writeThrough_leads hmode hleads hfree
        rw [Nat.zero_add, hlength] at hloop
        exact hstore.trans hloop
      · have hm₃ := (hheap hpop).trans hm₂
        rw [← hm₃] at hleads hfree
        have hloop : readThrough E f fuel ip mode' key (0 + ts.length) (.table t₀) m₃ = _ :=
          readThrough_leads hmode' hleads hfree
        rw [Nat.zero_add, hlength] at hloop
        exact ⟨(getIndex_apply hj hpop).trans hloop, hm₃⟩

end Mirroring

/-- A machine with a table that stands for another one. -/
def proxying : Machine where
  heap := {
    tables := #[(({} : Table).append (.string "__index") (.string "__index") (.table ⟨2⟩)).append
      (.string "__newindex") (.string "__newindex") (.table ⟨2⟩), { metatable := some ⟨0⟩ }, {}] }
  fibers := #[{
    values := #[.bool true, .table ⟨1⟩]
    frames := #[{ base := 0, isEntry := true }], status := .main, owner := ⟨0⟩ }]

theorem mirrored_proxying : proxying.heap.Mirrored ⟨1⟩ (some ⟨2⟩) := ⟨rfl, rfl⟩

theorem leads_proxying {ts : List TableId} {t : TableId} (h : proxying.heap.Leads ⟨1⟩ ts t) :
    t = ⟨1⟩ ∨ t = ⟨2⟩ := by
  cases h with
  | here _ => exact .inl rfl
  | next hnext hrest =>
    have hsame := hnext.index.symm.trans mirrored_proxying.index
    cases hsame
    cases hrest with
    | here _ => exact .inr rfl
    | next hnext _ => cases hnext.index

theorem mirrorChain_proxying : proxying.heap.MirrorChain ⟨1⟩ where
  mirrored h := by
    rcases leads_proxying h with rfl | rfl
    · exact ⟨_, mirrored_proxying⟩
    · exact ⟨none, rfl, rfl⟩
  present h := by rcases leads_proxying h with rfl | rfl <;> decide
  consistent h := by
    have hempty := Table.WellFormed.empty.toConsistent
    rcases leads_proxying h with rfl | rfl
    · exact ⟨⟨hempty.isKey_of_mem, hempty.position_iff⟩, hempty.freeBelow⟩
    · exact hempty
  roomy h := by rcases leads_proxying h with rfl | rfl <;> decide

def proxyingWith (values : Array Value) : Machine := proxying.withFiber ⟨0⟩ fun b => { b with values }

def proxyingAfter (values : Array Value) : Machine := { proxyingWith values with
  heap := proxying.heap.modifyTable ⟨2⟩ fun t => t.insert (.string "k") (.bool true) }

/-- A store to the table that stands for the other one, and the load after it. -/
theorem load_after_store_proxying :
    execute (engine 1) ⟨0⟩ 1 0 { op := .setIndex .plain, value := some (.string "k") } proxying =
      (.ok .next, proxyingAfter #[.bool true]) ∧
    execute (engine 1) ⟨0⟩ 1 1 { op := .getIndex .plain, value := some (.string "k") }
        (proxyingAfter #[.table ⟨1⟩]) = (.ok .next, proxyingAfter #[.bool true]) := by
  have hpop : popObjectAndKey ⟨0⟩ { op := .setIndex .plain, value := some (.string "k") } proxying =
      (.ok (.table ⟨1⟩, .string "k"), proxyingWith #[.bool true]) := rfl
  have hstored : storedValue ⟨0⟩ { op := .setIndex .plain, value := some (.string "k") }
      (proxyingWith #[.bool true]) = (.ok (.bool true), proxyingWith #[.bool true]) := rfl
  have hstore : execute (engine 1) ⟨0⟩ 1 0 { op := .setIndex .plain, value := some (.string "k") }
      proxying = (.ok .next, proxyingAfter #[.bool true]) := rfl
  obtain ⟨-, ts, last, -, -, -, -, -, hload⟩ := (load_after_mirrored_store (v := .bool true)
    (j := { op := .getIndex .plain, value := some (.string "k") }) mirrorChain_proxying rfl rfl
    (by decide) (by decide) rfl (by simp) (by simp) (by simp) hpop hstored).1 _ _ hstore
  exact ⟨hstore, hload (engine 1) ⟨0⟩ 1 1 (proxyingAfter #[.table ⟨1⟩]) (proxyingAfter #[]) rfl rfl⟩

end ScriptMachine
