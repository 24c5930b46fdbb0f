import Mathlib.Order.Interval.Finset.Nat
import SecureTape.Proofs.Slots

/-!
# Lifetimes

The lifetime of an alias set reaches from where it is written first to where it occurs last, in the
order of the code. Main statements:
1. `Allocator.Sound.isDone_iff`: a slot is given back once every element of the alias set is
   written.
2. `Allocator.Runs.not_settled`: no element is written twice, so a set that will be written is not
   complete yet; and `Allocator.Runs.slot_eq`: a slot that is in use is not exchanged for another.
3. `Allocator.Reached.inUse_of_alive`: all alias sets alive at an instruction have their slots when
   the walk has reached it.
4. `allocateRegisters_separates`: alias sets with a common instruction in their lifetimes get
   disjoint slots, unless the code jumps back.
-/

namespace SecureTape

open Action RegisterFile List

variable {blocks : Array Block} {is : List Instruction} {limit t : Nat} {m : Allocator}
  {pre : List Step} {f : RegisterFile} {r : Reg}

namespace RegisterFile

/-- A valid file without empty views. -/
structure Proper (f : RegisterFile) : Prop extends f.Valid where
  nonempty : ∀ {id base offset : Nat}, id < f.size → (f.data id).view = some (base, offset) →
    0 < (f.data id).size

/-- The element of a base register is one of the register. -/
def Holds (f : RegisterFile) (r : Reg) (base e : Nat) : Prop :=
  f.baseOf r = base ∧ (f.resolve r).2 ≤ e ∧ e < (f.resolve r).2 + f.sizeOf r

/-- A register of the alias set keeps its slot for the whole tape. -/
def Exports (f : RegisterFile) (key : Nat) : Prop :=
  ∃ id ∈ f.aliases key, (f.data id).exported = true

instance (f : RegisterFile) (r : Reg) (base e : Nat) : Decidable (f.Holds r base e) :=
  inferInstanceAs (Decidable (_ ∧ _))

instance (f : RegisterFile) (key : Nat) : Decidable (f.Exports key) :=
  inferInstanceAs (Decidable (∃ id ∈ f.aliases key, _))

theorem Valid.view_of_mem_aliases (hv : f.Valid) (hr : r.id < f.size) {id : Nat}
    (hid : id ∈ f.aliases (f.baseOf r)) : (f.data id).view = none := by
  cases hset : (f.data (f.baseOf r)).aliasSet with
  | none =>
    rw [aliases_of_none hset, mem_singleton] at hid
    rw [hid]
    exact hv.view_baseOf hr
  | some set =>
    rw [aliases_of_some hset] at hid
    exact (hv.of_mem_members hid).2.1

theorem Valid.alike_slotKey (hv : f.Valid) (hr : r.id < f.size) :
    (f.data (f.slotKey r)).cls = f.classOf r ∧
      (f.data (f.slotKey r)).size = (f.data (f.baseOf r)).size := by
  have hbase := hv.baseOf_lt hr
  obtain ⟨hcls, hsize⟩ := hv.alike_of_mem_aliases hbase (hv.keyOf_mem_aliases hbase)
  exact ⟨hcls.trans (hv.cls_baseOf hr), hsize⟩

theorem Proper.sizeOf_pos (hf : f.Proper) (hr : r.id < f.size)
    (hpos : 0 < (f.data (f.slotKey r)).size) : 0 < f.sizeOf r := by
  cases hview : (f.data r.id).view with
  | some v => exact hf.nonempty hr hview
  | none =>
    have hbase : f.baseOf r = r.id := by simp [baseOf, resolve, hview]
    rwa [(hf.alike_slotKey hr).2, hbase] at hpos

end RegisterFile

namespace Allocator

variable {a b c : Allocator} {s : Step} {ss : List Step} {key : Nat}

/-! ## Elements -/

theorem foldl_add_eq (ps : List (Nat × Nat)) (n : Nat) :
    (ps.map (·.2)).foldl (· + ·) n = n + (ps.flatMap fun p => List.range' p.1 p.2).length := by
  induction ps generalizing n with
  | nil => rfl
  | cons p ps ih =>
    simp only [map_cons, foldl_cons, ih, flatMap_cons, length_append,
      length_range', add_assoc]

theorem foldl_add_eq_iff {ps : List (Nat × Nat)} {n : Nat}
    (hapart : ps.Pairwise fun p q => overlap p q = false) (hinside : ∀ p ∈ ps, p.1 + p.2 ≤ n) :
    (ps.map (·.2)).foldl (· + ·) 0 = n ↔ ∀ e < n, ∃ p ∈ ps, p.1 ≤ e ∧ e < p.1 + p.2 := by
  rw [foldl_add_eq, zero_add]
  have hmem (e : Nat) : e ∈ (ps.flatMap fun p => List.range' p.1 p.2) ↔
      ∃ p ∈ ps, p.1 ≤ e ∧ e < p.1 + p.2 := by
    simp only [mem_flatMap, mem_range'_1]
  have hnodup : (ps.flatMap fun p => List.range' p.1 p.2).Nodup := by
    refine nodup_flatMap.2 ⟨fun p _ => nodup_range', hapart.imp ?_⟩
    intro p q hpq e hp hq
    rw [mem_range'_1] at hp hq
    simp only [overlap, Bool.and_eq_false_iff, decide_eq_false_iff_not] at hpq
    omega
  have hsub : (ps.flatMap fun p => List.range' p.1 p.2) ⊆ List.range n := by
    intro e he
    obtain ⟨p, hp, -, hlt⟩ := (hmem e).1 he
    exact mem_range.2 (hlt.trans_le (hinside p hp))
  have hsubperm := hnodup.subperm hsub
  constructor
  · intro hlength e he
    have hperm := hsubperm.perm_of_length_le (by simp [hlength])
    exact (hmem e).1 (hperm.mem_iff.2 (mem_range.2 he))
  · intro hall
    have hrange : List.range n ⊆ ps.flatMap fun p => List.range' p.1 p.2 :=
      fun e he => (hmem e).2 (hall e (mem_range.1 he))
    have hge := (nodup_range.subperm hrange).length_le
    have hle := hsubperm.length_le
    rw [length_range] at hle hge
    exact le_antisymm hle hge

/-- The element of a base register has been written. -/
def Covered (a : Allocator) (base e : Nat) : Prop := ∃ p ∈ a.runs base, p.1 ≤ e ∧ e < p.1 + p.2

/-- All elements of all registers of the alias set have been written. -/
def Settled (f : RegisterFile) (a : Allocator) (key : Nat) : Prop :=
  ∀ id ∈ f.aliases key, ∀ e < (f.data id).size, a.Covered id e

theorem covered_note (f : RegisterFile) (a : Allocator) (r : Reg) (base e : Nat) :
    (a.note f r).Covered base e ↔ a.Covered base e ∨ f.Holds r base e := by
  unfold Covered Holds
  rw [runs_note]
  by_cases h : f.baseOf r = base
  · simp [h, or_comm]
  · simp [h]

theorem inUse_giveBack_iff {k : Nat} : (a.giveBack key).InUse k ↔ a.InUse k ∧ k ≠ key := by
  unfold giveBack
  split
  · rename_i hnone
    refine (and_iff_left_of_imp ?_).symm
    rintro hk rfl
    rw [← isSome_lookup_iff, hnone] at hk
    cases hk
  · simp only [InUse, mem_map, mem_filter, decide_eq_true_eq]
    constructor
    · rintro ⟨e, ⟨he, hne⟩, rfl⟩
      exact ⟨⟨e, he, rfl⟩, hne⟩
    · rintro ⟨⟨e, he, rfl⟩, hne⟩
      exact ⟨e, ⟨he, hne⟩, rfl⟩

theorem Sound.isDone_iff (ha : Sound f a) (hkey : key < f.size) (hpos : 0 < (f.data key).size) :
    a.isDone f key ↔ Settled f a key ∧ ¬ f.Exports key := by
  have hcovered (id : Nat) (hid : id ∈ f.aliases key) :
      a.isCovered id = true ↔ ∀ e < (f.data id).size, a.Covered id e := by
    rw [← (ha.valid.alike_of_mem_aliases hkey hid).2] at hpos
    rw [isCovered, ha.file.sameShape.width, Bool.and_eq_true, beq_iff_eq,
      foldl_add_eq_iff (ha.apart id) (ha.inside id)]
    refine and_iff_right_of_imp fun hall => ?_
    obtain ⟨p, hp, -⟩ := hall 0 hpos
    unfold runs at hp
    cases hlookup : a.written.lookup id with
    | none => simp [hlookup] at hp
    | some => rfl
  simp only [isDone, Bool.and_eq_true, all_eq_true, Bool.not_eq_true', any_eq_false,
    Settled, Exports, not_exists, not_and]
  exact and_congr_left fun _ => forall₂_congr hcovered

/-! ## What a step changes -/

variable {base e : Nat} {r : Reg} {code : List (PoolId × Instruction)}

theorem Moves.covered_iff (h : Moves f a s b) :
    b.Covered base e ↔ a.Covered base e ∨ ∃ r, s = .write r ∧ f.Holds r base e := by
  cases h with
  | idle => simp
  | place _ hopens =>
    unfold Covered
    rw [runs_place hopens]
    simp
  | note => simp [covered_note]
  | finish =>
    rw [Covered, runs_giveBack, ← Covered, covered_note]
    simp

theorem Moves.settled (h : Moves f a s b) (ha : Settled f a key) : Settled f b key :=
  fun id hid e he => h.covered_iff.2 (.inl (ha id hid e he))

theorem Moves.not_covered (h : Moves f a (.write r) b) (he : f.Holds r base e) :
    ¬ a.Covered base e := by
  obtain ⟨rfl, hle, hlt⟩ := he
  rintro ⟨p, hp, hple, hplt⟩
  have hfresh : (a.runs (f.baseOf r)).any (overlap ((f.resolve r).2, f.sizeOf r)) = false := by
    cases h <;> assumption
  have hoverlap := any_eq_false.1 hfresh p hp
  simp only [overlap, Bool.and_eq_true, decide_eq_true_eq, not_and] at hoverlap
  omega

theorem Moves.inUse_or_settled (h : Moves f a s b) (ha : Sound f a) (hs : f.owns s.reg)
    (hpos : 0 < (f.data key).size) (hkey : a.InUse key) :
    b.InUse key ∨ Settled f b key ∧ ¬ f.Exports key := by
  cases h with
  | idle | note => exact .inl hkey
  | place _ hopens => exact .inl (.tail _ (hopens.obtained.used ▸ hkey))
  | @finish r hfresh hdone =>
    by_cases hr : key = f.slotKey r
    · subst hr
      have hlt := (slotKey_spec ha.valid hs).1
      refine .inr ((((ha.note hs hfresh).isDone_iff hlt hpos).1 hdone).imp_left ?_)
      intro h id hid e he
      rw [Covered, runs_giveBack]
      exact h id hid e he
    · exact .inl (inUse_giveBack_iff.2 ⟨hkey, hr⟩)

/-! ## What a run changes -/

theorem Runs.covered_iff (h : Runs f a ss b) :
    b.Covered base e ↔ a.Covered base e ∨ ∃ r, .write r ∈ ss ∧ f.Holds r base e := by
  induction h with
  | nil => simp
  | cons _ _ hmove _ ih =>
    rw [ih, hmove.covered_iff, or_assoc, ← exists_or]
    simp only [mem_cons, or_and_right, eq_comm]

theorem Runs.settled (h : Runs f a ss b) (ha : Settled f a key) : Settled f b key :=
  fun id hid e he => h.covered_iff.2 (.inl (ha id hid e he))

/-- A set that will be written is not complete yet. -/
theorem Runs.not_settled (h : Runs f a ss b) (hf : f.Proper) (hpos : 0 < (f.data key).size)
    (hmem : .write r ∈ ss) (hr : f.slotKey r = key) : ¬ Settled f a key := by
  subst hr
  intro hsettled
  have howns : f.owns r = true := h.owns _ hmem
  have hid := (owns_iff.1 howns).2
  have hsize := hf.sizeOf_pos hid hpos
  have hinside := hf.resolve_add_size_le hid
  have hholds : f.Holds r (f.baseOf r) (f.resolve r).2 := ⟨rfl, le_rfl, by omega⟩
  induction h with
  | nil => cases hmem
  | cons _ _ hmove _ ih =>
    rcases mem_cons.1 hmem with rfl | hmem
    · exact hmove.not_covered hholds
        (hsettled _ (slotKey_spec hf.toValid howns).2.2 _ (by omega))
    · exact ih hmem (hmove.settled hsettled)

theorem Runs.inUse_or_settled (h : Runs f a ss b) (hpos : 0 < (f.data key).size)
    (hkey : a.InUse key ∨ ∃ r pool, .need r pool ∈ ss ∧ f.slotKey r = key) :
    b.InUse key ∨ Settled f b key ∧ ¬ f.Exports key := by
  induction h with
  | nil => exact .inl (by simpa using hkey)
  | cons ha hs hmove hrest ih =>
    rcases hkey with hkey | ⟨r, pool, hmem, rfl⟩
    · rcases hmove.inUse_or_settled ha hs hpos hkey with hmid | ⟨hmid, hnot⟩
      · exact ih (.inl hmid)
      · exact .inr ⟨hrest.settled hmid, hnot⟩
    · rcases mem_cons.1 hmem with rfl | hmem
      · exact ih (.inl hmove.inUse_need)
      · exact ih (.inr ⟨r, pool, hmem, rfl⟩)

/-- Where a register needs a slot, its alias set is exported or will be written. -/
def Ready (f : RegisterFile) : List Step → Prop
  | [] => True
  | .need r _ :: ss =>
    (f.Exports (f.slotKey r) ∨ ∃ w, .write w ∈ ss ∧ f.slotKey w = f.slotKey r) ∧ Ready f ss
  | .write _ :: ss => Ready f ss

theorem Ready.tail (h : Ready f (s :: ss)) : Ready f ss := by
  cases s with
  | need => exact h.2
  | write => exact h

theorem Ready.of_append {xs : List Step} (h : Ready f (xs ++ ss)) : Ready f ss := by
  induction xs with
  | nil => exact h
  | cons s xs ih => exact ih h.tail

/-- A register with a key that is in use, or done, keeps its slot. -/
theorem Runs.slot_eq (h : Runs f a ss b) (hf : f.Proper) (hready : Ready f ss)
    (hpos : 0 < (f.data (f.slotKey r)).size)
    (hkey : a.InUse (f.slotKey r) ∨ Settled f a (f.slotKey r) ∧ ¬ f.Exports (f.slotKey r)) :
    (b.regs.data (f.baseOf r)).slot = (a.regs.data (f.baseOf r)).slot := by
  induction h with
  | nil => rfl
  | @cons a b c s ss ha hs hmove hrest ih =>
    have hnext : b.InUse (f.slotKey r) ∨ Settled f b (f.slotKey r) ∧ ¬ f.Exports (f.slotKey r) := by
      rcases hkey with hkey | ⟨hsettled, hnot⟩
      · exact hmove.inUse_or_settled ha hs hpos hkey
      · exact .inr ⟨hmove.settled hsettled, hnot⟩
    rw [ih hready.tail hnext]
    rcases hmove.slot_cases ha.file with heq | ⟨q, pool, start, rfl, hnew, heq⟩
    · exact heq _
    rw [heq, if_neg]
    rintro ⟨hid, -⟩
    -- a key that is done needs no slot again: what it is needed for would be written twice
    have hq : f.slotKey q = f.slotKey r :=
      (slotKey_spec hf.toValid hs).2.1.symm.trans (hf.keyOf_eq_of_mem_aliases hid).symm
    rw [hq] at hnew
    obtain ⟨hsettled, hnot⟩ := hkey.resolve_left hnew
    rcases hready.1 with hexports | ⟨w, hw, hkw⟩
    · exact hnot (hq ▸ hexports)
    · exact hrest.not_settled hf hpos hw (hkw.trans hq) (hmove.settled hsettled)

theorem Runs.slot_alias (h : Runs f a ss b) {x y : Nat} (hx : x < f.size) (hy : y ∈ f.aliases x)
    (hslot : (a.regs.data y).slot = (a.regs.data x).slot) :
    (b.regs.data y).slot = (b.regs.data x).slot := by
  induction h with
  | nil => exact hslot
  | cons ha _ hmove _ ih =>
    have hv := ha.valid
    refine ih ?_
    rcases hmove.slot_cases ha.file with heq | ⟨r, _, start, -, -, heq⟩ <;> rw [heq, heq, hslot]
    have hmem : y ∈ f.aliases (f.slotKey r) ↔ x ∈ f.aliases (f.slotKey r) := by
      constructor
      · intro h
        rw [← hv.aliases_eq_of_mem h, hv.aliases_eq_of_mem hy]
        exact hv.mem_aliases_self hx
      · intro h
        rwa [← hv.aliases_eq_of_mem h]
    simp only [hmem, hx, hv.lt_of_mem_aliases hx hy]

theorem Orderly.apart_of_mem (ha : a.Orderly) {d e : Nat × Slot} (hd : d ∈ a.used) (he : e ∈ a.used)
    (hne : d ≠ e) : (usedRun a.regs d).Apart (usedRun a.regs e) := by
  have hsymm : Std.Symm fun d e => (usedRun a.regs d).Apart (usedRun a.regs e) :=
    ⟨fun _ _ h => h.symm⟩
  exact (pairwise_map.1 (pairwise_append.1 ha.apart).1).forall hd he hne

/-! ## Code -/

def codeSteps (code : List (PoolId × Instruction)) : List Step :=
  code.reverse.flatMap fun e => steps e.1 e.2

theorem codeSteps_append (xs ys : List (PoolId × Instruction)) :
    codeSteps (xs ++ ys) = codeSteps ys ++ codeSteps xs := by
  simp [codeSteps]

theorem need_mem_codeSteps_iff {pool : PoolId} :
    .need r pool ∈ codeSteps code ↔ ∃ e ∈ code, ∃ x ∈ e.2.accesses, r = x.1 ∧ pool = e.1 := by
  simp only [codeSteps, steps, mem_flatMap, mem_reverse, mem_append, mem_needs_iff,
    mem_map, Step.need.injEq, reduceCtorEq, and_false, exists_false, or_false]

theorem write_mem_codeSteps_iff :
    .write r ∈ codeSteps code ↔ ∃ i ∈ code.map (·.2), r ∈ i.writes := by
  simp only [codeSteps, steps, mem_flatMap, mem_reverse, mem_append, mem_needs_iff,
    mem_map]
  grind

def layoutOf (blocks : Array Block) : List (PoolId × Instruction) :=
  blocks.toList.flatMap fun b => b.instructions.map (b.pool, ·)

/-- No block jumps to itself or back. -/
def Forward (blocks : Array Block) : Prop :=
  ∀ e ∈ blocks.toList.zipIdx, ∀ target ∈ e.1.exit.bind (·.target), e.2 < target

instance (blocks : Array Block) : Decidable (Forward blocks) :=
  inferInstanceAs (Decidable (∀ e ∈ blocks.toList.zipIdx, _))

/-- Without jumps back the walk is one over the code, after slots for exported registers. -/
theorem walkSteps_of_forward (h : Forward blocks) (exported : List Reg) :
    ∃ pre, walkSteps blocks exported = pre ++ codeSteps (layoutOf blocks) ∧
      (∀ s ∈ pre, ∃ r ∈ exported, ∃ pool, s = .need r pool) ∧
      (layoutOf blocks ≠ [] → ∀ r ∈ exported, ∃ pool, .need r pool ∈ pre) := by
  have hcode : (blocks.toList.zipIdx.reverse.flatMap fun e => blockSteps blocks e.2 e.1) =
      codeSteps (layoutOf blocks) := by
    have hblock (e : Block × Nat) (he : e ∈ blocks.toList.zipIdx.reverse) : blockSteps blocks e.2 e.1 =
        (e.1.instructions.reverse.flatMap (steps e.1.pool)) := by
      unfold blockSteps
      split
      · rename_i htarget
        rw [if_neg (Nat.not_le.2 (h e (mem_reverse.1 he) _ htarget))]
        rfl
      · rfl
    rw [flatMap_congr hblock]
    rw [codeSteps, layoutOf, reverse_flatMap, flatMap_assoc]
    calc _ = (blocks.toList.zipIdx.map (·.1)).reverse.flatMap fun b =>
          b.instructions.reverse.flatMap (steps b.pool) := by
            rw [← map_reverse, flatMap_map]
      _ = _ := by
        rw [zipIdx_map_fst]
        simp [← map_reverse, flatMap_map]
  unfold walkSteps
  cases hfirst : blocks[0]? with
  | none =>
    have hsize : blocks.size = 0 := by simpa using hfirst
    have hnil : layoutOf blocks = [] := by rw [Array.eq_empty_of_size_eq_zero hsize]; rfl
    exact ⟨[], by rw [hnil]; rfl, by simp, fun hne => absurd hnil hne⟩
  | some first =>
    refine ⟨exported.map (.need · first.pool), by rw [hcode], ?_, ?_⟩
    · intro s hs
      obtain ⟨r, hr, rfl⟩ := mem_map.1 hs
      exact ⟨r, hr, first.pool, rfl⟩
    · exact fun _ r hr => ⟨first.pool, mem_map_of_mem hr⟩

/-! ## Alive alias sets -/

/-- An instruction uses a register of the alias set. -/
def Occurs (f : RegisterFile) (is : List Instruction) (key : Nat) : Prop :=
  ∃ i ∈ is, ∃ x ∈ i.accesses, f.slotKey x.1 = key

/-- An instruction writes a register of the alias set. -/
def IsWritten (f : RegisterFile) (is : List Instruction) (key : Nat) : Prop :=
  ∃ i ∈ is, ∃ r ∈ i.writes, f.slotKey r = key

/-- The instruction at the position lies in the lifetime of the alias set: the set occurs there or
later, and it is written there or before, or has an element that is never written. A set with an
exported register lives as long as the code runs. -/
def Alive (f : RegisterFile) (is : List Instruction) (key t : Nat) : Prop :=
  f.Exports key ∨ Occurs f (is.drop t) key ∧
    (IsWritten f (is.take (t + 1)) key ∨
      ∃ id ∈ f.aliases key, ∃ e < (f.data id).size, ∀ i ∈ is, ∀ r ∈ i.writes, ¬ f.Holds r id e)

/-- What is read is exported, or its alias set is written there or before. -/
def ReadsWritten (f : RegisterFile) (is : List Instruction) : Prop :=
  ∀ t, (ht : t < is.length) → ∀ r ∈ is[t].reads,
    f.Exports (f.slotKey r) ∨ IsWritten f (is.take (t + 1)) (f.slotKey r)

instance (f : RegisterFile) (is : List Instruction) (key : Nat) : Decidable (Occurs f is key) :=
  inferInstanceAs (Decidable (∃ i ∈ is, _))

instance (f : RegisterFile) (is : List Instruction) (key : Nat) : Decidable (IsWritten f is key) :=
  inferInstanceAs (Decidable (∃ i ∈ is, _))

instance (f : RegisterFile) (is : List Instruction) (key t : Nat) : Decidable (Alive f is key t) :=
  inferInstanceAs (Decidable (_ ∨ _))

instance (f : RegisterFile) (is : List Instruction) : Decidable (ReadsWritten f is) :=
  inferInstanceAs (Decidable (∀ t, (ht : t < is.length) → _))

theorem occurs_iff :
    Occurs f (code.map (·.2)) key ↔ ∃ r pool, .need r pool ∈ codeSteps code ∧ f.slotKey r = key := by
  simp only [Occurs, need_mem_codeSteps_iff]
  constructor
  · rintro ⟨i, hi, x, hx, hkey⟩
    obtain ⟨e, he, rfl⟩ := mem_map.1 hi
    exact ⟨x.1, e.1, ⟨e, he, x, hx, rfl, rfl⟩, hkey⟩
  · rintro ⟨r, pool, ⟨e, he, x, hx, rfl, rfl⟩, hkey⟩
    exact ⟨e.2, mem_map_of_mem he, x, hx, hkey⟩

theorem Ready.needs (hss : Ready f ss) (pool : PoolId) {rs : List Reg}
    (h : ∀ r ∈ rs, f.Exports (f.slotKey r) ∨ ∃ w, .write w ∈ ss ∧ f.slotKey w = f.slotKey r) :
    Ready f (rs.map (.need · pool) ++ ss) := by
  induction rs with
  | nil => exact hss
  | cons r rs ih =>
    obtain ⟨hr, hrs⟩ := forall_mem_cons.1 h
    refine ⟨hr.imp_right ?_, ih hrs⟩
    rintro ⟨w, hw, hkey⟩
    exact ⟨w, mem_append_right _ hw, hkey⟩

theorem Ready.writes (hss : Ready f ss) (rs : List Reg) : Ready f (rs.map .write ++ ss) := by
  induction rs with
  | nil => exact hss
  | cons r rs ih => exact ih

/-- The walk over code whose reads come after writes. -/
theorem ready_codeSteps (h : ReadsWritten f (code.map (·.2))) : Ready f (codeSteps code) := by
  induction code using List.reverseRecOn with
  | nil => trivial
  | append_singleton code e ih =>
    have hinit : ReadsWritten f (code.map (·.2)) := by
      intro t ht r hr
      have ht' : t < ((code ++ [e]).map (·.2)).length := by simp at ht ⊢; omega
      have hread := h t ht' r (by
        simp only [map_append, getElem_append_left ht]
        exact hr)
      rw [map_append, take_append_of_le_length ht] at hread
      exact hread
    have hsteps : codeSteps (code ++ [e]) =
        (e.2.writes ++ e.2.reads).map (.need · e.1) ++ (e.2.writes.map .write ++ codeSteps code) := by
      rw [codeSteps_append, ← append_assoc]
      simp [codeSteps, steps, Allocator.needs]
    rw [hsteps]
    refine ((ih hinit).writes e.2.writes).needs e.1 ?_
    intro r hr
    rcases mem_append.1 hr with hw | hr
    · exact .inr ⟨r, mem_append_left _ (mem_map_of_mem hw), rfl⟩
    have hread := h code.length (by simp) r (by simpa using hr)
    refine hread.imp_right ?_
    rintro ⟨i, hi, w, hw, hkey⟩
    refine ⟨w, ?_, hkey⟩
    rw [take_of_length_le (by simp), map_append] at hi
    rcases mem_append.1 hi with hi | hi
    · exact mem_append_right _ (write_mem_codeSteps_iff.2 ⟨i, hi, hw⟩)
    · rw [map_singleton, mem_singleton] at hi
      exact mem_append_left _ (mem_map_of_mem (hi ▸ hw))

/-! ## The walk at an instruction -/

/-- What holds once the walk has slots for the instruction at position `t`. -/
structure Reached (f : RegisterFile) (is : List Instruction) (t : Nat) (m : Allocator) : Prop where
  sound : Sound f m
  covered_iff : ∀ base e, m.Covered base e ↔ ∃ i ∈ is.drop (t + 1), ∃ r ∈ i.writes, f.Holds r base e
  inUse_or_settled : ∀ {r : Reg}, f.owns r = true → 0 < (f.data (f.slotKey r)).size →
    f.Exports (f.slotKey r) ∨ Occurs f (is.drop t) (f.slotKey r) →
      m.InUse (f.slotKey r) ∨ Settled f m (f.slotKey r) ∧ ¬ f.Exports (f.slotKey r)
  not_settled : ∀ {key : Nat}, 0 < (f.data key).size → IsWritten f (is.take (t + 1)) key →
    ¬ Settled f m key

theorem Reached.inUse_of_alive (h : Reached f is t m) (hr : f.owns r)
    (hpos : 0 < (f.data (f.slotKey r)).size) (halive : Alive f is (f.slotKey r) t) :
    m.InUse (f.slotKey r) := by
  rcases halive with hexports | ⟨hoccurs, hwritten⟩
  · exact (h.inUse_or_settled hr hpos (.inl hexports)).resolve_right fun hs => hs.2 hexports
  refine (h.inUse_or_settled hr hpos (.inr hoccurs)).resolve_right fun hs => ?_
  rcases hwritten with hwritten | ⟨id, hid, e, he, hnever⟩
  · exact h.not_settled hpos hwritten hs.1
  · obtain ⟨i, hi, w, hw, hholds⟩ := (h.covered_iff id e).1 (hs.1 id hid e he)
    exact hnever i (mem_of_mem_drop hi) w hw hholds

/-- Exported registers need slots first. -/
structure Leads (f : RegisterFile) (pre : List Step) : Prop where
  exported : ∀ s ∈ pre, ∃ r ∈ f.exported, ∃ pool, s = .need r pool
  all : ∀ r ∈ f.exported, ∃ pool, .need r pool ∈ pre

theorem Leads.exists_need (h : Leads f pre) (hv : f.Valid) (hr : f.owns r)
    (code : List (PoolId × Instruction))
    (hneed : f.Exports (f.slotKey r) ∨ Occurs f (code.map (·.2)) (f.slotKey r)) :
    ∃ q pool, .need q pool ∈ pre ++ codeSteps code ∧ f.slotKey q = f.slotKey r := by
  rcases hneed with ⟨id, hid, hexported⟩ | hoccurs
  · obtain ⟨hlt, hkey, hbase⟩ := slotKey_spec hv hr
    have hmem : f.handle id ∈ f.exported :=
      mem_map_of_mem (mem_filter.2
        ⟨mem_range.2 (hv.lt_of_mem_aliases hlt hid), hexported⟩)
    obtain ⟨pool, hpool⟩ := h.all _ hmem
    refine ⟨_, pool, mem_append_left _ hpool, ?_⟩
    have hview : (f.data id).view = none :=
      hv.view_of_mem_aliases (owns_iff.1 hr).2 (by rwa [hv.aliases_eq_of_mem hbase])
    have hself : f.baseOf (f.handle id) = id := by simp [baseOf, resolve, handle, hview]
    rw [slotKey_eq_keyOf, hself, hv.keyOf_eq_of_mem_aliases hid, hkey]
  · obtain ⟨q, pool, hneed, hkey⟩ := occurs_iff.1 hoccurs
    exact ⟨q, pool, mem_append_right _ hneed, hkey⟩

theorem codeSteps_cut (before after : List (PoolId × Instruction)) (e : PoolId × Instruction) :
    codeSteps (before ++ e :: after) =
      (codeSteps after ++ needs e.1 e.2) ++ (e.2.writes.map .write ++ codeSteps before) := by
  simp [codeSteps, steps]

theorem reached (hf : f.Proper) (hpre : Leads f pre) {before after : List (PoolId × Instruction)}
    {e : PoolId × Instruction}
    (hstart : Runs f { regs := f.clearSlots, limit } (pre ++ (codeSteps after ++ needs e.1 e.2)) m)
    (hend : Runs f m (e.2.writes.map .write ++ codeSteps before) b) :
    Reached f ((before ++ e :: after).map (·.2)) before.length m := by
  have hlength : before.length = (before.map (·.2)).length := by simp
  refine ⟨hstart.sound, ?_, ?_, ?_⟩ <;>
    simp only [map_append, map_cons, hlength, drop_length_add_append,
      take_length_add_append, drop_left, drop_one, tail_cons, take_succ_cons,
      take_zero]
  · intro base k
    have hfresh : ¬ Covered { regs := f.clearSlots, limit } base k := fun ⟨_, h, _⟩ => nomatch h
    have hwrite (r : Reg) : .write r ∈ pre ++ (codeSteps after ++ needs e.1 e.2) ↔
        ∃ i ∈ after.map (·.2), r ∈ i.writes := by
      rw [← write_mem_codeSteps_iff, mem_append, mem_append, mem_needs_iff]
      have hnot : .write r ∉ pre := by
        intro h
        obtain ⟨_, _, _, h⟩ := hpre.exported _ h
        cases h
      simp [hnot]
    simp only [hstart.covered_iff, hfresh, hwrite, false_or]
    grind
  · intro r hr hpos hneed
    refine hstart.inUse_or_settled hpos (.inr ?_)
    obtain ⟨q, pool, hmem, hkey⟩ := hpre.exists_need hf.toValid hr (e :: after) hneed
    refine ⟨q, pool, ?_, hkey⟩
    have hcut := codeSteps_cut [] after e
    rw [nil_append] at hcut
    rw [hcut] at hmem
    simpa [codeSteps] using hmem
  · rintro key hpos ⟨i, hi, r, hr, hkey⟩
    refine hend.not_settled hf hpos ?_ hkey
    rcases mem_append.1 hi with hi | hi
    · exact mem_append_right _ (write_mem_codeSteps_iff.2 ⟨i, hi, hr⟩)
    · rw [mem_singleton] at hi
      exact mem_append_left _ (mem_map_of_mem (hi ▸ hr))

theorem Reached.exists_slot (h : Reached f is t a) (hend : Runs f a ss b) (hf : f.Proper)
    (hready : Ready f ss) (hr : f.owns r) (hpos : 0 < (f.data (f.slotKey r)).size)
    (halive : Alive f is (f.slotKey r) t) :
    ∃ e ∈ a.used, e.1 = f.slotKey r ∧ (b.regs.data (f.baseOf r)).slot = some e.2.start := by
  have hinUse := h.inUse_of_alive hr hpos halive
  obtain ⟨e, he, heq⟩ := mem_map.1 hinUse
  refine ⟨e, he, heq, ?_⟩
  rw [hend.slot_eq hf hready hpos (.inl hinUse)]
  exact h.sound.slot_of_mem he (heq ▸ (slotKey_spec hf.toValid hr).2.2)

end Allocator

open Allocator

def layout (blocks : Array Block) : List Instruction := blocks.toList.flatMap Block.instructions

theorem map_layoutOf (blocks : Array Block) : (layoutOf blocks).map (·.2) = layout blocks := by
  simp [layoutOf, layout, map_flatMap, Function.comp_def]

section Allocate

variable {regs g : RegisterFile} {usage : PerClass Nat}

theorem exists_runs_of_forward (hregs : regs.Valid) (hforward : Forward blocks)
    (howns : ∀ i ∈ layout blocks, ∀ x ∈ i.accesses, regs.owns x.1)
    (h : allocateRegisters regs limit blocks = (.ok usage, g)) :
    ∃ a pre, Runs regs { regs := regs.clearSlots, limit } (pre ++ codeSteps (layoutOf blocks)) a ∧
      a.top = usage ∧ a.regs = g ∧ (∀ s ∈ pre, ∃ r ∈ regs.exported, ∃ pool, s = .need r pool) ∧
      (layoutOf blocks ≠ [] → Leads regs pre) := by
  obtain ⟨pre, hsteps, hpre, hall⟩ := walkSteps_of_forward hforward regs.exported
  obtain ⟨a, hruns, -, htop, hregs⟩ := exists_runs_of_allocateRegisters hregs (by
    rw [hsteps, forall_mem_append]
    constructor
    · intro s hs
      obtain ⟨r, hr, pool, rfl⟩ := hpre s hs
      exact owns_of_mem_exported hr
    · intro s hs
      obtain ⟨e, he, hs⟩ := mem_flatMap.1 hs
      refine owns_of_mem_steps hs (howns _ ?_)
      rw [← map_layoutOf]
      exact mem_map_of_mem (mem_reverse.1 he)) h
  exact ⟨a, pre, hsteps ▸ hruns, htop, hregs, hpre, fun hne => ⟨hpre, hall hne⟩⟩

/-- Unless the code jumps back, aliased registers have one slot, and alias sets of one class that
are alive at the same instruction have slots without a common physical register. -/
theorem allocateRegisters_separates (hregs : regs.Proper) (hforward : Forward blocks)
    (howns : ∀ i ∈ layout blocks, ∀ x ∈ i.accesses, regs.owns x.1 = true)
    (hreads : ReadsWritten regs (layout blocks))
    (h : allocateRegisters regs limit blocks = (.ok usage, g))
    {r q : Reg} (hr : regs.owns r = true) (hq : regs.owns q = true) :
    (regs.slotKey r = regs.slotKey q →
      (g.data (regs.baseOf r)).slot = (g.data (regs.baseOf q)).slot) ∧
    (regs.slotKey r ≠ regs.slotKey q → regs.classOf r = regs.classOf q →
      ∀ t < (layout blocks).length, Alive regs (layout blocks) (regs.slotKey r) t →
        Alive regs (layout blocks) (regs.slotKey q) t →
          ∃ s u, (g.data (regs.baseOf r)).slot = some s ∧ (g.data (regs.baseOf q)).slot = some u ∧
            Disjoint (Finset.Ico s (s + (regs.data (regs.baseOf r)).size))
              (Finset.Ico u (u + (regs.data (regs.baseOf q)).size))) := by
  have hv := hregs.toValid
  obtain ⟨a, pre, hruns, -, rfl, -, hleads⟩ := exists_runs_of_forward hv hforward howns h
  constructor
  · intro hkey
    have hid := hv.baseOf_lt (owns_iff.1 hq).2
    refine hruns.slot_alias hid ?_ (by simp [data_clearSlots])
    exact (hv.keyOf_eq_iff hid (hv.baseOf_lt (owns_iff.1 hr).2)).1 hkey
  intro hne hcls t ht halive halive'
  -- the code before and after the instruction at which both are alive
  rw [← map_layoutOf] at ht hreads halive halive'
  obtain ⟨before, e, after, hcode, rfl⟩ :
      ∃ before e after, layoutOf blocks = before ++ e :: after ∧ before.length = t := by
    rw [length_map] at ht
    exact ⟨_, _, _, by rw [getElem_cons_drop ht, take_append_drop], length_take_of_le ht.le⟩
  rw [hcode] at hruns hleads hreads halive halive'
  have hpre := hleads (by simp)
  have hsome {x : Reg} (hx : regs.owns x = true)
      (hx' : Alive regs ((before ++ e :: after).map (·.2)) (regs.slotKey x) before.length) :
      ∃ s, (a.regs.data (regs.baseOf x)).slot = some s := by
    obtain ⟨y, pool, hmem, hkey⟩ := hpre.exists_need hv hx (before ++ e :: after) (by
      refine hx'.imp_right ?_
      rintro ⟨⟨i, hi, hoccurs⟩, -⟩
      exact ⟨i, mem_of_mem_drop hi, hoccurs⟩)
    refine Option.isSome_iff_exists.1 (hruns.isSome_slot (.inr ⟨y, pool, hmem, ?_⟩))
    rw [hkey]
    exact (slotKey_spec hv hx).2.2
  obtain ⟨s, hs⟩ := hsome hr halive
  obtain ⟨u, hu⟩ := hsome hq halive'
  refine ⟨s, u, hs, hu, ?_⟩
  rw [codeSteps_cut, ← append_assoc] at hruns
  obtain ⟨m, hfirst, hlast⟩ := hruns.exists_of_append
  have hm := reached hregs hpre hfirst hlast
  have hready := ready_codeSteps hreads
  rw [codeSteps_cut] at hready
  obtain ⟨hclsr, hsizer⟩ := hv.alike_slotKey (owns_iff.1 hr).2
  obtain ⟨hclsq, hsizeq⟩ := hv.alike_slotKey (owns_iff.1 hq).2
  rcases Nat.eq_zero_or_pos (regs.data (regs.baseOf r)).size with hzero | hposr
  · simp [hzero]
  rcases Nat.eq_zero_or_pos (regs.data (regs.baseOf q)).size with hzero | hposq
  · simp [hzero]
  obtain ⟨d, hd, hdkey, hdslot⟩ :=
    hm.exists_slot hlast hregs hready.of_append hr (hsizer ▸ hposr) halive
  obtain ⟨d', hd', hdkey', hdslot'⟩ :=
    hm.exists_slot hlast hregs hready.of_append hq (hsizeq ▸ hposq) halive'
  have hapart := hm.sound.orderly.apart_of_mem hd hd' (by
    rintro rfl
    exact hne (hdkey.symm.trans hdkey'))
  simp only [SlotRun.Apart, usedRun, hm.sound.file.sameShape.cls, hm.sound.file.sameShape.width,
    hdkey, hdkey', hclsr, hclsq, hsizer, hsizeq] at hapart
  have hsd : s = d.2.start := Option.some.inj (hs.symm.trans hdslot)
  have hud : u = d'.2.start := Option.some.inj (hu.symm.trans hdslot')
  rw [hsd, hud, Finset.disjoint_left]
  intro x hx hx'
  rw [Finset.mem_Ico] at hx hx'
  have := hapart hcls
  omega

def twoNumbers : RegisterFile where
  tape := 0
  regs := #[{ cls := .int, size := 2, index := 0 },
    { cls := .int, size := 1, index := 0, view := some (0, 0) },
    { cls := .int, size := 1, index := 1, view := some (0, 1) },
    { cls := .int, size := 2, index := 2 }, { cls := .int, size := 2, index := 4 }]
  counters := .fill 6

theorem proper_twoNumbers : twoNumbers.Proper := by
  have hview : ∀ id < twoNumbers.size, ∀ v ∈ (twoNumbers.data id).view, v.1 < twoNumbers.size ∧
      (twoNumbers.data v.1).view = none ∧ (twoNumbers.data v.1).cls = (twoNumbers.data id).cls ∧
      v.2 + (twoNumbers.data id).size ≤ (twoNumbers.data v.1).size ∧
      0 < (twoNumbers.data id).size := by decide
  refine ⟨⟨?_, fun hid h => ?_, ?_, nofun, nofun⟩, fun hid h => (hview _ hid _ h).2.2.2.2⟩
  · intro id hid h
    decide +revert
  · obtain ⟨hlt, hbase, hcls, hle, -⟩ := hview _ hid _ h
    exact ⟨hlt, hbase, hcls, hle⟩
  · have hnone : ∀ id < twoNumbers.size, (twoNumbers.data id).aliasSet = none := by decide
    intro id set hid h
    rw [hnone id hid] at h
    cases h

/-- The elements are loaded one by one; the next block loads the second vector and adds them. -/
def sumBlocks : Array Block :=
  #[{ name := "load", scope := none, pool := ⟨0, 0⟩, node := 0, exit := some ⟨.always, some 1⟩,
      ops := [.inst ⟨.ldint, .base, 1, [.reg ⟨0, 1⟩, .number 5]⟩,
        .inst ⟨.ldint, .base, 1, [.reg ⟨0, 2⟩, .number 6]⟩] },
    { name := "add", scope := none, pool := ⟨0, 0⟩, node := 0,
      ops := [.inst ⟨.ldint, .base, 2, [.reg ⟨0, 3⟩, .number 7]⟩,
        .inst ⟨.addint, .base, 2, [.reg ⟨0, 4⟩, .reg ⟨0, 0⟩, .reg ⟨0, 3⟩]⟩] }]

theorem allocateRegisters_separates_sum :
    let g := (allocateRegisters twoNumbers 6 sumBlocks).2
    ∃ s u, (g.data 0).slot = some s ∧ (g.data 3).slot = some u ∧
      Disjoint (Finset.Ico s (s + 2)) (Finset.Ico u (u + 2)) := by
  have hrun : allocateRegisters twoNumbers 6 sumBlocks =
    (.ok ((PerClass.fill 0).set .int 6),
      (allocateRegisters twoNumbers 6 sumBlocks).2) := by decide +kernel
  exact (@allocateRegisters_separates _ _ _ _ _ proper_twoNumbers (by decide) (by decide) (by decide)
    hrun ⟨0, 1⟩ ⟨0, 3⟩ rfl rfl).2 (by decide) rfl 2 (by decide) (by decide) (by decide)

end Allocate

end SecureTape
