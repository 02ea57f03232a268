import ScriptMachine.Proofs.Chunk.Reading

namespace ScriptMachine

variable {s : Symbol}

namespace Symbol

def depth : Symbol → Nat
  | global _ environment => environment.depth + 1
  | _ => 0

/-- The slots and the lengths of the names, those of the environments included, fit their fields. -/
def Fits : Symbol → Prop
  | global name environment => name.utf8ByteSize < 2 ^ 32 ∧ environment.Fits
  | s => s.index < 2 ^ 31 ∧ s.name.utf8ByteSize < 2 ^ 32

/-- A symbol as far as a chunk holds it: only 32 bits of a slot are written. -/
def narrow : Symbol → Symbol
  | localVar name index c t => localVar name (index % 2 ^ 32) c t
  | upvalue name index => upvalue name (index % 2 ^ 32)
  | global name environment => global name environment.narrow
  | defaultEnvironment => defaultEnvironment

def chain : Symbol → List Symbol
  | global name environment => global name environment :: environment.chain
  | s => [s]

/-- The lengths of the names, those of the environments included, fit their fields. -/
def Named (s : Symbol) : Prop := ∀ x ∈ s.chain, x.name.utf8ByteSize < 2 ^ 32

theorem mem_chain (s : Symbol) : s ∈ s.chain := by
  cases s <;> exact List.mem_cons_self

theorem Fits.index_lt (h : s.Fits) : s.index < 2 ^ 31 := by
  cases s with
  | global name environment => exact Nat.two_pow_pos 31
  | localVar name index c t => exact h.1
  | upvalue name index => exact h.1
  | defaultEnvironment => exact h.1

theorem Fits.named (h : s.Fits) : s.Named := by
  induction s with
  | global name environment ih => exact List.forall_mem_cons.2 ⟨h.1, ih h.2⟩
  | _ => exact List.forall_mem_singleton.2 h.2

theorem Fits.narrow_eq (h : s.Fits) : s.narrow = s := by
  have hmod {index : Nat} (h : index < 2 ^ 31) : index % 2 ^ 32 = index :=
    Nat.mod_eq_of_lt (h.trans (by decide))
  induction s with
  | global name environment ih => rw [narrow, ih h.2]
  | localVar name index c t => exact congrArg (localVar name · c t) (hmod h.1)
  | upvalue name index => exact congrArg (upvalue name) (hmod h.1)
  | defaultEnvironment => rfl

end Symbol

namespace Chunk

variable {known ss : List Symbol}

section Table

variable {P : Symbol → Prop} {is : List Instruction} {i : Instruction}

/-- Every environment of a listed symbol is listed, except perhaps one. -/
def ClosedUpTo (known : List Symbol) (missing : Option Symbol) : Prop :=
  ∀ s ∈ known, ∀ e, s.environment? = some e → e ∈ known ∨ some e = missing

theorem subset_addSymbol (known : List Symbol) (s : Symbol) : known ⊆ addSymbol known s := by
  induction s generalizing known with
  | global name environment ih =>
    unfold addSymbol
    split
    · exact List.Subset.refl _
    · exact List.Subset.trans (List.subset_append_left _ _) (ih _)
  | _ =>
    unfold addSymbol
    split
    · exact List.Subset.refl _
    · exact List.subset_append_left _ _

theorem mem_addSymbol (known : List Symbol) (s : Symbol) : s ∈ addSymbol known s := by
  unfold addSymbol
  split
  · assumption
  · split
    · exact subset_addSymbol _ _ (List.mem_append_right _ List.mem_cons_self)
    · exact List.mem_append_right _ List.mem_cons_self

theorem ClosedUpTo.concat (h : ClosedUpTo known (some s)) :
    ClosedUpTo (known ++ [s]) s.environment? := by
  intro x hx e he
  rcases List.mem_append.1 hx with hx | hx
  · left
    rcases h x hx e he with he | he
    · exact List.mem_append_left _ he
    · rw [Option.some.inj he]
      exact List.mem_append_right _ List.mem_cons_self
  · rw [List.mem_singleton.1 hx] at he
    exact .inr he.symm

theorem ClosedUpTo.of_mem (h : ClosedUpTo known (some s)) (hs : s ∈ known) :
    ClosedUpTo known none := by
  intro x hx e he
  rcases h x hx e he with he | he
  · exact .inl he
  · exact .inl (Option.some.inj he ▸ hs)

theorem ClosedUpTo.addSymbol (h : ClosedUpTo known (some s)) :
    ClosedUpTo (addSymbol known s) none := by
  induction s generalizing known with
  | global name environment ih =>
    unfold Chunk.addSymbol
    split
    · rename_i hs
      exact h.of_mem hs
    · exact ih h.concat
  | _ =>
    unfold Chunk.addSymbol
    split
    · rename_i hs
      exact h.of_mem hs
    · exact h.concat

/-- What holds of a symbol and passes to environments holds of all symbols that it adds. -/
theorem forall_mem_addSymbol (hP : ∀ name e, P (.global name e) → P e) (hs : P s)
    (h : ∀ x ∈ known, P x) : ∀ x ∈ addSymbol known s, P x := by
  induction s generalizing known with
  | global name environment ih =>
    unfold addSymbol
    split
    · exact h
    · exact ih (hP _ _ hs) (List.forall_mem_append.2 ⟨h, List.forall_mem_singleton.2 hs⟩)
  | _ =>
    unfold addSymbol
    split
    · exact h
    · exact List.forall_mem_append.2 ⟨h, List.forall_mem_singleton.2 hs⟩

/-- The symbols that an instruction mentions. -/
def mentioned (i : Instruction) : List Symbol := i.symbol.toList ++ i.symbolList

theorem forall_mentioned (h : ∀ s ∈ mentioned i, P s) :
    (∀ s, i.symbol = some s → P s) ∧ ∀ s ∈ i.symbols.getD [], P s :=
  ⟨fun s hs => h s (List.mem_append_left _ (by simp [hs])), fun s hs =>
    h s (List.mem_append_right _ hs)⟩

theorem symbolTable_eq (is : List Instruction) :
    symbolTable is = (is.flatMap mentioned).foldl addSymbol [] := by
  rw [List.foldl_flatMap]
  simp only [symbolTable, mentioned, List.foldl_append]

theorem subset_foldl_addSymbol (ss known : List Symbol) : known ⊆ ss.foldl addSymbol known := by
  induction ss generalizing known with
  | nil => exact List.Subset.refl _
  | cons s ss ih => exact List.Subset.trans (subset_addSymbol known s) (ih _)

theorem mem_foldl_addSymbol (hs : s ∈ ss) (known : List Symbol) : s ∈ ss.foldl addSymbol known := by
  induction ss generalizing known with
  | nil => cases hs
  | cons x ss ih =>
    rcases List.mem_cons.1 hs with rfl | hs
    · exact subset_foldl_addSymbol ss _ (mem_addSymbol known s)
    · exact ih hs _

theorem mem_symbolTable (hi : i ∈ is) (hs : s ∈ mentioned i) : s ∈ symbolTable is := by
  rw [symbolTable_eq]
  exact mem_foldl_addSymbol (List.mem_flatMap.2 ⟨i, hi, hs⟩) []

theorem ClosedUpTo.foldl_addSymbol (ss : List Symbol) (h : ClosedUpTo known none) :
    ClosedUpTo (ss.foldl Chunk.addSymbol known) none := by
  induction ss generalizing known with
  | nil => exact h
  | cons s ss ih =>
    refine ih (ClosedUpTo.addSymbol fun x hx e he => ?_)
    exact .inl ((h x hx e he).resolve_right nofun)

theorem closed_symbolTable (is : List Instruction) : ClosedUpTo (symbolTable is) none := by
  rw [symbolTable_eq]
  exact ClosedUpTo.foldl_addSymbol _ nofun

theorem forall_mem_foldl_addSymbol (hP : ∀ name e, P (.global name e) → P e) (hss : ∀ s ∈ ss, P s)
    (h : ∀ s ∈ known, P s) : ∀ s ∈ ss.foldl addSymbol known, P s := by
  induction ss generalizing known with
  | nil => exact h
  | cons s ss ih =>
    obtain ⟨hs, hss⟩ := List.forall_mem_cons.1 hss
    exact ih hss (forall_mem_addSymbol hP hs h)

theorem forall_mem_symbolTable (hP : ∀ name e, P (.global name e) → P e)
    (h : ∀ i ∈ is, ∀ s ∈ mentioned i, P s) : ∀ s ∈ symbolTable is, P s := by
  rw [symbolTable_eq]
  refine forall_mem_foldl_addSymbol hP (fun s hs => ?_) nofun
  obtain ⟨i, hi, hs⟩ := List.mem_flatMap.1 hs
  exact h i hi s hs

end Table

section Numbering

def record (known : List Symbol) (s : Symbol) : SymbolRecord where
  kind := s.kind
  index := .ofNat s.index
  name := s.name
  attributes := s.attributes
  environment := symbolNumber known s.environment?

def SymbolRecord.write (r : SymbolRecord) : Bytes :=
  [r.kind] ++ (writeInt r.index ++ (writeString r.name ++ ([r.attributes] ++
    writeInt r.environment)))

theorem reads_write {r : SymbolRecord} (h : r.name.utf8ByteSize < 2 ^ 32) :
    Reads readSymbolRecord r.write r :=
  (reads_readByte _).bind ((reads_readInt _).bind ((reads_readString h).bind
    ((reads_readByte _).bind ((reads_readInt _).map _))))

theorem writeSymbol_eq (known : List Symbol) (s : Symbol) :
    writeSymbol known s = (record known s).write := by
  simp [writeSymbol, SymbolRecord.write, record]

theorem symbolNumber_some (hs : s ∈ known) (hlen : known.length < 2 ^ 31) :
    ∃ n : Nat, (symbolNumber known (some s)).toInt = n ∧ known[n]? = some s := by
  obtain ⟨n, hn⟩ := Option.isSome_iff_exists.1 (List.isSome_idxOf?.2 hs)
  obtain ⟨hlt, hget, -⟩ := List.findIdx?_eq_some_iff_getElem.1 hn
  refine ⟨n, ?_, List.getElem?_eq_some_iff.2 ⟨hlt, by simpa using hget⟩⟩
  simp only [symbolNumber, Option.bind_some, hn]
  exact Int32.toInt_ofNat_of_lt (by omega)

theorem reads_readSymbol? {s : Option Symbol} (hs : ∀ x, s = some x → x ∈ known)
    (hlen : known.length < 2 ^ 31) :
    Reads (readSymbol? (known.map Symbol.narrow).toArray) (writeInt (symbolNumber known s))
      (s.map Symbol.narrow) := by
  refine (reads_readInt _).bind_nil ?_
  cases s with
  | none => exact Reads.pure none
  | some x =>
    obtain ⟨n, hn, hget⟩ := symbolNumber_some (hs x rfl) hlen
    simp only [hn, List.getElem?_toArray, List.getElem?_map, hget]
    exact Reads.pure (some x.narrow)

theorem reads_readSymbols? {ss : Option (List Symbol)} (hss : ∀ x ∈ ss.getD [], x ∈ known)
    (hcount : (ss.getD []).length < 2 ^ 31) (hlen : known.length < 2 ^ 31) :
    Reads (readSymbols? (known.map Symbol.narrow).toArray) (writeSymbols known ss)
      (ss.map (·.map Symbol.narrow)) := by
  cases ss with
  | none => exact reads_readCount?_none.bind_nil (Reads.pure none)
  | some ss =>
    have hmany : Reads (readMany (readListedSymbol (known.map Symbol.narrow).toArray) ss.length)
        (ss.flatMap fun s => writeInt (symbolNumber known (some s))) (ss.map Symbol.narrow) :=
      reads_readMany fun x hx => by
        refine (reads_readSymbol? (s := some x) ?_ hlen).bind_nil (Reads.pure x.narrow)
        rintro _ ⟨⟩
        exact hss x hx
    exact (reads_readCount? hcount).bind (hmany.map some)

end Numbering

section Resolving

variable {id : Nat}

theorem localWithBits_attributes (name : String) (index : Nat) (c t : Bool) :
    Symbol.localWithBits name index (Symbol.localVar name index c t).attributes =
      .localVar name index c t := by
  cases c <;> cases t <;> simp [Symbol.localWithBits, Symbol.attributes] <;> decide

theorem getElem?_records (hid : known[id]? = some s) :
    (known.map (record known)).toArray[id]? = some (record known s) := by
  rw [List.getElem?_toArray, List.getElem?_map, hid, Option.map_some]

variable {records : List SymbolRecord}

/-- All that putting a symbol together can do. -/
theorem resolve_cases {n : Nat} (h : resolve records.toArray n id = .ok s) :
    ∃ depth r, n = depth + 1 ∧ records[id]? = some r ∧ ∃ index : Nat, r.index.toInt = index ∧
      (r.kind = 0 ∧ s = .localWithBits r.name index r.attributes ∨
        r.kind = 1 ∧ s = .upvalue r.name index ∨
        (r.kind = 2 ∧ ∃ e : Nat, r.environment.toInt = e ∧ ∃ environment,
          resolve records.toArray depth e = .ok environment ∧ s = .global r.name environment) ∨
        r.kind = 3 ∧ s = .defaultEnvironment) := by
  cases n with
  | zero => cases h
  | succ depth =>
    rw [resolve, List.getElem?_toArray] at h
    cases hr : records[id]? with
    | none =>
      rw [hr] at h
      cases h
    | some r =>
      rw [hr] at h
      dsimp only at h
      cases hindex : r.index.toInt with
      | negSucc k =>
        rw [hindex] at h
        cases h
      | ofNat index =>
        rw [hindex] at h
        dsimp only at h
        refine ⟨depth, r, rfl, rfl, index, hindex, ?_⟩
        split_ifs at h with h0 h1 h2 h3
        · exact .inl ⟨h0, (Except.ok.inj h).symm⟩
        · exact .inr (.inl ⟨h1, (Except.ok.inj h).symm⟩)
        · cases he : r.environment.toInt with
          | negSucc k =>
            rw [he] at h
            cases h
          | ofNat e =>
            rw [he] at h
            dsimp only at h
            refine .inr (.inr (.inl ⟨h2, e, rfl, ?_⟩))
            cases henv : resolve records.toArray depth e with
            | error fault =>
              rw [henv] at h
              cases h
            | ok environment =>
              rw [henv] at h
              exact ⟨environment, rfl, (Except.ok.inj h).symm⟩
        · exact .inr (.inr (.inr ⟨h3, (Except.ok.inj h).symm⟩))

theorem resolve_of_resolveAll (h : resolveAll records = .ok ss) :
    ss.length = records.length ∧ ∀ id s, ss[id]? = some s →
      resolve records.toArray (maxEnvironmentDepth + 1) id = .ok s := by
  obtain ⟨hlen, hok⟩ := List.forall₂_iff_get.1 (forall₂_of_mapM h)
  rw [List.length_range] at hlen
  refine ⟨hlen.symm, fun id s hs => ?_⟩
  obtain ⟨hid, rfl⟩ := List.getElem?_eq_some_iff.1 hs
  have hresolve := hok id (by rw [List.length_range, hlen]; exact hid) hid
  rwa [List.get_eq_getElem, List.getElem_range] at hresolve

theorem toInt_ofNat_eq {n k : Nat} (h : (Int32.ofNat n).toInt = k) : k = n % 2 ^ 32 := by
  have hlt := (Int32.ofNat n).toInt_lt
  have hmod : (Int32.ofNat n).toUInt32.toNat = n % 2 ^ 32 := by simp
  have hint : Int32.ofNat n = Int32.ofNat k := by
    rw [← Int32.toInt_inj, h, Int32.toInt_ofNat_of_lt (by omega)]
  rw [← hmod, hint]
  simp
  omega

/-- A listed symbol is put together again from the records, as far as they hold it, unless too many
environments follow it. -/
theorem resolve_record (hclosed : ClosedUpTo known none) (hlen : known.length < 2 ^ 31)
    (hindex : ∀ s ∈ known, 0 ≤ (Int32.ofNat s.index).toInt) (depth : Nat)
    (hid : known[id]? = some s) : (resolve (known.map (record known)).toArray depth id).toOption =
      if s.depth < depth then some s.narrow else none := by
  have hslot {s : Symbol} (hs : s ∈ known) :
      (record known s).index.toInt = .ofNat (s.index % 2 ^ 32) := by
    obtain ⟨k, hk⟩ := Int.eq_ofNat_of_zero_le (hindex s hs)
    exact toInt_ofNat_eq hk ▸ hk
  have hmem := List.mem_of_getElem? hid
  induction s generalizing depth id with
  | global name environment ih =>
    cases depth with
    | zero => rfl
    | succ depth =>
      have henv := (hclosed _ hmem environment rfl).resolve_right nofun
      obtain ⟨n, hn, hget⟩ := symbolNumber_some henv hlen
      have hnumber : (record known (.global name environment)).environment.toInt = .ofNat n := hn
      have hmap (x : Except Fault Symbol) : (do return Symbol.global name (← x)).toOption =
          x.toOption.map (.global name) := by
        cases x <;> rfl
      rw [resolve]
      simp only [getElem?_records hid, hslot hmem, hnumber]
      refine (hmap _).trans ?_
      simp only [ih depth hget henv, Symbol.depth, Nat.add_lt_add_iff_right]
      split <;> rfl
  | localVar name index c t =>
    cases depth with
    | zero => rfl
    | succ depth =>
      rw [resolve]
      simp only [getElem?_records hid, hslot hmem]
      exact congrArg some (localWithBits_attributes name _ c t)
  | _ =>
    cases depth with
    | zero => rfl
    | succ depth =>
      rw [resolve]
      simp only [getElem?_records hid, hslot hmem]
      rfl

theorem exists_mapM_iff {ε α β : Type} {f : α → Except ε β} {l : List α} :
    (∃ ys, l.mapM f = .ok ys) ↔ ∀ a ∈ l, (f a).toOption.isSome := by
  induction l with
  | nil => exact ⟨fun _ => nofun, fun _ => ⟨[], rfl⟩⟩
  | cons a l ih =>
    rw [List.forall_mem_cons, ← ih, List.mapM_cons]
    cases f a <;> cases l.mapM f <;> simp [Except.toOption, bind, Except.bind, pure, Except.pure]

section ResolveAll

variable {ss : List Symbol} (hclosed : ClosedUpTo known none) (hlen : known.length < 2 ^ 31)
include hclosed hlen

theorem eq_narrow_of_resolveAll (h : resolveAll (known.map (record known)) = .ok ss) :
    ss = known.map Symbol.narrow := by
  obtain ⟨hlength, hget⟩ := resolve_of_resolveAll h
  rw [List.length_map] at hlength
  have hindex : ∀ s ∈ known, 0 ≤ (Int32.ofNat s.index).toInt := by
    intro s hs
    obtain ⟨id, hid⟩ := List.mem_iff_getElem?.1 hs
    have hlt : id < ss.length := hlength ▸ (List.getElem?_eq_some_iff.1 hid).1
    obtain ⟨-, r, -, hr, index, hindex, -⟩ := resolve_cases (hget id _ (List.getElem?_eq_getElem hlt))
    rw [List.getElem?_map, hid] at hr
    cases hr
    exact (hindex ▸ Int.natCast_nonneg index :)
  refine List.ext_getElem (by rw [List.length_map, hlength]) fun id hid hid' => ?_
  rw [List.length_map] at hid'
  have hresolve := resolve_record hclosed hlen hindex (maxEnvironmentDepth + 1)
    (List.getElem?_eq_getElem hid')
  rw [hget id _ (List.getElem?_eq_getElem hid)] at hresolve
  rw [List.getElem_map]
  split at hresolve
  · exact Option.some.inj hresolve
  · cases hresolve

/-- Symbols that fit their fields can be put together again unless one of them nests too deep. -/
theorem resolveAll_iff (hfits : ∀ s ∈ known, s.Fits) :
    (∃ ss, resolveAll (known.map (record known)) = .ok ss) ↔
      ∀ s ∈ known, s.depth ≤ maxEnvironmentDepth := by
  have hindex : ∀ s ∈ known, 0 ≤ (Int32.ofNat s.index).toInt := fun s hs => by
    rw [Int32.toInt_ofNat_of_lt (hfits s hs).index_lt]
    exact Int.natCast_nonneg _
  rw [resolveAll, exists_mapM_iff, List.length_map]
  simp only [List.mem_range, List.forall_mem_iff_forall_getElem]
  refine forall₂_congr fun id hid => ?_
  rw [resolve_record hclosed hlen hindex _ (List.getElem?_eq_getElem hid)]
  simp

end ResolveAll

end Resolving

end Chunk

end ScriptMachine
