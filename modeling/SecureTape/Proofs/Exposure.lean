import SecureTape.Proofs.Accesses
import SecureTape.Proofs.Emission
import SecureTape.Proofs.Registers

/-!
# Exposed slots

A block exposes a slot when it reads the slot before it writes it. Main statements:
1. `exists_mem_findInherited`: a block inherits a register of every slot that it exposes.
2. `protects_inheritAll`: in a closed tape every slot that a block exposes is protected, so that
   nothing that writes the slot is dead (`not_isDead_of_protects`).
3. `exposes_of_exposes_dropDead`: what the operations that are kept expose was exposed before.
-/

namespace SecureTape

open List RegisterFile

/-! ## Registers of operations -/

variable {op : Op} {f g : RegisterFile} {ops : List Op} {rs : List Reg} {b : Block} {j key : Nat}
  {r : Reg} {live : List Nat}

namespace Op

def registers : Op → List Reg
  | .inst i => i.accesses.map (·.1)
  | .call c => c.sites.flatMap (·.args)

def HasLayout : Op → Prop
  | .inst i => i.HasLayout
  | .call _ => True

/-- The operation reads a register with a key. -/
def Reads (keyOf : Reg → Nat) (key : Nat) (op : Op) : Prop := ∃ r ∈ op.reads, keyOf r = key

/-- The operation writes a register with a key. -/
def Writes (keyOf : Reg → Nat) (key : Nat) (op : Op) : Prop := ∃ r ∈ op.writes, keyOf r = key

instance (keyOf : Reg → Nat) (key : Nat) (op : Op) : Decidable (op.Reads keyOf key) :=
  inferInstanceAs (Decidable (∃ r ∈ op.reads, keyOf r = key))

instance (keyOf : Reg → Nat) (key : Nat) (op : Op) : Decidable (op.Writes keyOf key) :=
  inferInstanceAs (Decidable (∃ r ∈ op.writes, keyOf r = key))

theorem mem_registers_of_mem_arguments {c : MacroCall} {pick : Access → Bool}
    (h : r ∈ c.arguments pick) : r ∈ (call c).registers := by
  obtain ⟨site, hsite, hr⟩ := mem_flatMap.1 h
  obtain ⟨⟨q, s⟩, hq, rfl⟩ := mem_map.1 hr
  exact mem_flatMap.2 ⟨site, hsite, (of_mem_zip (mem_filter.1 hq).1).1⟩

theorem mem_registers_of_mem_reads (h : r ∈ op.reads) : r ∈ op.registers := by
  cases op with
  | inst i =>
    obtain ⟨a, ha, -⟩ := Instruction.mem_reads_iff.1 h
    exact mem_map_of_mem ha
  | call c => exact mem_registers_of_mem_arguments h

theorem mem_registers_of_mem_writes (h : r ∈ op.writes) : r ∈ op.registers := by
  cases op with
  | inst i =>
    obtain ⟨a, ha, -⟩ := Instruction.mem_writes_iff.1 h
    exact mem_map_of_mem ha
  | call c => exact mem_registers_of_mem_arguments h

end Op

/-- Calls of the same macro have the same template. -/
def SameTemplates (ops : List Op) : Prop :=
  ∀ c d, .call c ∈ ops → .call d ∈ ops → c.key = d.key → c.template = d.template

/-! ## Exposed slots -/

/-- The operations read a register with the key before they write one. -/
def Exposes (keyOf : Reg → Nat) (key : Nat) : List Op → Prop
  | [] => False
  | op :: ops => op.Reads keyOf key ∨ (¬op.Writes keyOf key ∧ Exposes keyOf key ops)

instance decidableExposes (keyOf : Reg → Nat) (key : Nat) :
    (ops : List Op) → Decidable (Exposes keyOf key ops)
  | [] => inferInstanceAs (Decidable False)
  | op :: ops =>
    have := decidableExposes keyOf key ops
    inferInstanceAs (Decidable (op.Reads keyOf key ∨ (¬op.Writes keyOf key ∧ Exposes keyOf key ops)))

section Keys

variable {keyOf : Reg → Nat}

theorem exposes_iff :
    Exposes keyOf key ops ↔ ∃ before op after, ops = before ++ op :: after ∧
      op.Reads keyOf key ∧ ∀ o ∈ before, ¬o.Writes keyOf key := by
  induction ops with
  | nil => simp [Exposes]
  | cons first ops ih =>
    constructor
    · rintro (hreads | ⟨hnot, hexp⟩)
      · exact ⟨[], first, ops, rfl, hreads, by simp⟩
      · obtain ⟨before, op, after, rfl, hreads, hbefore⟩ := ih.1 hexp
        refine ⟨first :: before, op, after, rfl, hreads, ?_⟩
        simpa using ⟨hnot, hbefore⟩
    · rintro ⟨before, op, after, heq, hreads, hbefore⟩
      cases before with
      | nil =>
        obtain ⟨rfl, -⟩ := List.cons.inj heq
        exact .inl hreads
      | cons o before =>
        obtain ⟨rfl, rfl⟩ := List.cons.inj heq
        exact .inr ⟨hbefore _ (by simp), ih.2 ⟨before, op, after, rfl, hreads,
          fun o ho => hbefore o (by simp [ho])⟩⟩

theorem exists_reads_of_exposes (h : Exposes keyOf key ops) : ∃ op ∈ ops, op.Reads keyOf key := by
  obtain ⟨before, op, after, rfl, hreads, -⟩ := exposes_iff.1 h
  exact ⟨op, by simp, hreads⟩

theorem exposes_append {as bs : List Op} :
    Exposes keyOf key (as ++ bs) ↔
      Exposes keyOf key as ∨ ((∀ o ∈ as, ¬o.Writes keyOf key) ∧ Exposes keyOf key bs) := by
  induction as with
  | nil => simp [Exposes]
  | cons a as ih =>
    simp only [cons_append, Exposes, ih, forall_mem_cons]
    tauto

theorem exposes_of_getElem? {n : Nat} (hop : ops[n]? = some op) (hreads : op.Reads keyOf key)
    (hbefore : ∀ m o, m < n → ops[m]? = some o → ¬o.Writes keyOf key) : Exposes keyOf key ops := by
  obtain ⟨hlt, rfl⟩ := List.getElem?_eq_some_iff.1 hop
  refine exposes_iff.2 ⟨ops.take n, ops[n], ops.drop (n + 1), ?_, hreads, ?_⟩
  · rw [List.getElem_cons_drop, List.take_append_drop]
  · intro o ho
    obtain ⟨m, hm, rfl⟩ := mem_take_iff_getElem.1 ho
    exact hbefore m _ (by omega) (getElem?_eq_getElem (by omega))

end Keys

variable {regs : RegisterFile}

theorem Exposes.congr (h : ∀ op ∈ ops, ∀ r ∈ op.registers, g.slotKey r = f.slotKey r) :
    Exposes g.slotKey key ops ↔ Exposes f.slotKey key ops := by
  induction ops with
  | nil => rfl
  | cons op ops ih =>
    have hreads : op.Reads g.slotKey key ↔ op.Reads f.slotKey key := by
      refine exists_congr fun r => and_congr_right fun hr => ?_
      rw [h op (by simp) r (Op.mem_registers_of_mem_reads hr)]
    have hwrites : op.Writes g.slotKey key ↔ op.Writes f.slotKey key := by
      refine exists_congr fun r => and_congr_right fun hr => ?_
      rw [h op (by simp) r (Op.mem_registers_of_mem_writes hr)]
    rw [Exposes, Exposes, hreads, hwrites, ih fun o ho => h o (by simp [ho])]

/-! ## Inherited registers -/

namespace Block

variable {defined : List Nat} {found : List Reg} {q : Reg}

theorem mem_inheritStep (h : q ∈ found) : q ∈ inheritStep regs defined found r := by
  unfold inheritStep
  split
  · exact h
  · exact mem_append_left _ h

theorem exists_mem_inheritStep (h : regs.slotKey r ∉ defined) :
    ∃ q ∈ inheritStep regs defined found r, regs.slotKey q = regs.slotKey r := by
  unfold inheritStep
  split
  · rename_i hor
    exact ⟨r, hor.resolve_left h, rfl⟩
  · exact ⟨r, by simp, rfl⟩

theorem mem_foldl_inheritStep (h : q ∈ found) : q ∈ rs.foldl (inheritStep regs defined) found := by
  induction rs generalizing found with
  | nil => exact h
  | cons r rs ih => exact ih (mem_inheritStep h)

theorem exists_mem_foldl_inheritStep (hr : r ∈ rs) (h : regs.slotKey r ∉ defined) :
    ∃ q ∈ rs.foldl (inheritStep regs defined) found, regs.slotKey q = regs.slotKey r := by
  induction rs generalizing found with
  | nil => cases hr
  | cons first rs ih =>
    rw [foldl_cons]
    rcases mem_cons.1 hr with rfl | hr
    · obtain ⟨q, hq, hkey⟩ : ∃ q ∈ inheritStep regs defined found r, _ := exists_mem_inheritStep h
      exact ⟨q, mem_foldl_inheritStep hq, hkey⟩
    · exact ih hr

theorem mem_inheritFrom (h : q ∈ found) : q ∈ (inheritFrom regs defined found ops).1 := by
  induction ops generalizing defined found with
  | nil => exact h
  | cons op ops ih => exact ih (mem_foldl_inheritStep h)

theorem mem_defined_inheritFrom :
    key ∈ (inheritFrom regs defined found ops).2 ↔
      key ∈ defined ∨ ∃ op ∈ ops, op.Writes regs.slotKey key := by
  induction ops generalizing defined found with
  | nil => simp [inheritFrom]
  | cons op ops ih =>
    rw [inheritFrom, ih, mem_append, mem_map]
    simp only [mem_cons, exists_eq_or_imp, Op.Writes]
    rw [or_assoc, or_left_comm]

theorem exists_mem_inheritFrom (hdef : key ∉ defined) (h : Exposes regs.slotKey key ops) :
    ∃ q ∈ (inheritFrom regs defined found ops).1, regs.slotKey q = key := by
  induction ops generalizing defined found with
  | nil => cases h
  | cons op ops ih =>
    rw [inheritFrom]
    rcases h with ⟨r, hr, rfl⟩ | ⟨hnot, h⟩
    · obtain ⟨q, hq, hkey⟩ :
          ∃ q ∈ op.reads.foldl (inheritStep regs defined) found, _ :=
        exists_mem_foldl_inheritStep hr hdef
      exact ⟨q, mem_inheritFrom hq, hkey⟩
    · refine ih ?_ h
      rw [mem_append, mem_map]
      rintro (⟨r, hr, hkey⟩ | hmem)
      · exact hnot ⟨r, hr, hkey⟩
      · exact hdef hmem

/-- The block reads the slot before it writes it, at the latest in its exit. -/
def Exposes (regs : RegisterFile) (key : Nat) (b : Block) : Prop :=
  SecureTape.Exposes regs.slotKey key b.ops ∨
    ((∀ op ∈ b.ops, ¬op.Writes regs.slotKey key) ∧
      ∃ cond, b.exit.bind (·.kind.condition?) = some cond ∧ regs.slotKey cond = key)

theorem findInherited_eq (regs : RegisterFile) (b : Block) :
    b.findInherited regs = match b.exit.bind (·.kind.condition?) with
      | some cond => inheritStep regs (inheritFrom regs [] [] b.ops).2
          (inheritFrom regs [] [] b.ops).1 cond
      | none => (inheritFrom regs [] [] b.ops).1 := rfl

theorem exists_mem_findInherited (h : b.Exposes regs key) :
    ∃ q ∈ b.findInherited regs, regs.slotKey q = key := by
  rw [findInherited_eq]
  rcases h with h | ⟨hnot, cond, hcond, rfl⟩
  · obtain ⟨q, hq, hkey⟩ : ∃ q ∈ (inheritFrom regs [] [] b.ops).1, _ :=
      exists_mem_inheritFrom not_mem_nil h
    split
    · exact ⟨q, mem_inheritStep hq, hkey⟩
    · exact ⟨q, hq, hkey⟩
  · rw [hcond]
    refine exists_mem_inheritStep ?_
    rw [mem_defined_inheritFrom]
    rintro (hnil | ⟨op, hop, hw⟩)
    · cases hnil
    · exact hnot op hop hw

theorem mem_inheritStep_cases (h : q ∈ inheritStep regs defined found r) : q ∈ found ∨ q = r := by
  unfold inheritStep at h
  split at h
  · exact .inl h
  · simpa using h

theorem mem_inheritFrom_cases (h : q ∈ (inheritFrom regs defined found ops).1) :
    q ∈ found ∨ ∃ op ∈ ops, q ∈ op.reads := by
  have hfold {rs : List Reg} {defined : List Nat} {found : List Reg}
      (h : q ∈ rs.foldl (inheritStep regs defined) found) : q ∈ found ∨ q ∈ rs := by
    induction rs generalizing found with
    | nil => exact .inl h
    | cons r rs ih =>
      rcases ih h with h | h
      · rcases mem_inheritStep_cases h with h | rfl
        · exact .inl h
        · exact .inr (by simp)
      · exact .inr (by simp [h])
  induction ops generalizing defined found with
  | nil => exact .inl h
  | cons op ops ih =>
    rcases ih h with h | ⟨o, ho, h⟩
    · rcases hfold h with h | h
      · exact .inl h
      · exact .inr ⟨op, by simp, h⟩
    · exact .inr ⟨o, by simp [ho], h⟩

theorem mem_findInherited_cases (h : q ∈ b.findInherited regs) :
    (∃ op ∈ b.ops, q ∈ op.reads) ∨ b.exit.bind (·.kind.condition?) = some q := by
  rw [findInherited_eq] at h
  have hops (h : q ∈ (inheritFrom regs [] [] b.ops).1) : ∃ op ∈ b.ops, q ∈ op.reads :=
    (mem_inheritFrom_cases h).resolve_left not_mem_nil
  split at h
  · rename_i cond hcond
    rcases mem_inheritStep_cases h with h | rfl
    · exact .inl (hops h)
    · exact .inr hcond
  · exact .inl (hops h)

end Block

/-! ## Protected slots -/

namespace RegisterFile

/-- No base register of the slot is eliminable. -/
def Protects (f : RegisterFile) (key : Nat) : Prop :=
  ∀ base, base < f.size → f.keyOf base = key → f.isEliminable base = false

theorem eliminable_pin (f : RegisterFile) (id j : Nat) :
    ((f.pin id).data j).eliminable = if j = id ∧ id < f.size then false else
      (f.data j).eliminable := by
  rw [pin, data_modify]
  split <;> rfl

theorem eliminable_foldl_pin (ids : List Nat) (f : RegisterFile)
    (h : (f.data j).eliminable = false ∨ (j ∈ ids ∧ j < f.size)) :
    ((ids.foldl pin f).data j).eliminable = false := by
  induction ids generalizing f with
  | nil => exact h.resolve_right fun h => absurd h.1 not_mem_nil
  | cons id ids ih =>
    refine ih (f.pin id) ?_
    rw [eliminable_pin, (SameShape.pin f id).size]
    rcases h with h | ⟨hj, hlt⟩
    · exact .inl (by rw [h, ite_self])
    · rcases mem_cons.1 hj with rfl | hj
      · exact .inl (if_pos ⟨rfl, hlt⟩)
      · exact .inr ⟨hj, hlt⟩

theorem eliminable_keep
    (h : (f.data j).eliminable = false ∨ (j ∈ f.aliases (f.baseOf r) ∧ j < f.size)) :
    ((f.keep r).data j).eliminable = false := by
  rw [keep, eliminable_pin, eliminable_foldl_pin _ _ h, ite_self]

theorem isEliminable_eq_false_iff {base : Nat} :
    f.isEliminable base = false ↔ ∃ id ∈ f.aliases base, (f.data id).eliminable = false := by
  simp [isEliminable]

theorem Valid.protects_keep (hf : f.Valid) (hr : r.id < f.size) :
    (f.keep r).Protects (f.slotKey r) := by
  intro base hbase hkey
  have hshape := SameShape.keep f r
  rw [hshape.size] at hbase
  rw [hshape.keyOf, slotKey_eq_keyOf, hf.keyOf_eq_iff (hf.baseOf_lt hr) hbase] at hkey
  refine isEliminable_eq_false_iff.2 ⟨base, ?_, eliminable_keep (.inr ⟨hkey, hbase⟩)⟩
  rw [hshape.aliases]
  exact hf.mem_aliases_self hbase

theorem Protects.keep (h : f.Protects key) (r : Reg) : (f.keep r).Protects key := by
  intro base hbase hkey
  have hshape := SameShape.keep f r
  rw [hshape.size] at hbase
  rw [hshape.keyOf] at hkey
  obtain ⟨id, hid, hpinned⟩ := isEliminable_eq_false_iff.1 (h base hbase hkey)
  refine isEliminable_eq_false_iff.2 ⟨id, ?_, eliminable_keep (.inl hpinned)⟩
  rw [hshape.aliases]
  exact hid

theorem Protects.extends (h : f.Protects key) (hf : f.Valid) (hg : g.Valid) (hext : Extends f g)
    (hkey : key < f.size) : g.Protects key := by
  intro base hbase hbkey
  by_cases hold : base < f.size
  · rw [hext.isEliminable hf hold]
    exact h base hold ((hext.keyOf hold).symm.trans hbkey)
  · simp only [keyOf, hext.aliasSet_of_new hf hg hbase hold] at hbkey
    omega

theorem Protects.foldl_keep (h : f.Protects key) (rs : List Reg) :
    (rs.foldl RegisterFile.keep f).Protects key := by
  induction rs generalizing f with
  | nil => exact h
  | cons r rs ih => exact ih (h.keep r)

theorem Valid.protects_foldl_keep (hf : f.Valid) (hr : r ∈ rs) (hlt : r.id < f.size) :
    (rs.foldl RegisterFile.keep f).Protects (f.slotKey r) := by
  induction rs generalizing f with
  | nil => cases hr
  | cons q rs ih =>
    rw [foldl_cons]
    have hshape := SameShape.keep f q
    rcases mem_cons.1 hr with rfl | hr
    · exact (hf.protects_keep hlt).foldl_keep rs
    · rw [← hshape.slotKey r]
      exact ih (hshape.valid hf) hr (by rwa [hshape.size])

end RegisterFile

namespace Block

theorem inheritFrom_congr (h : g.slotKey = f.slotKey) (ops : List Op) (defined : List Nat)
    (found : List Reg) : inheritFrom g defined found ops = inheritFrom f defined found ops := by
  have hstep (defined : List Nat) : inheritStep g defined = inheritStep f defined := by
    funext found r
    rw [inheritStep, inheritStep, h]
  induction ops generalizing defined found with
  | nil => rfl
  | cons op ops ih => rw [inheritFrom, inheritFrom, ih, hstep, h]

theorem findInherited_congr (h : g.slotKey = f.slotKey) (b : Block) :
    b.findInherited g = b.findInherited f := by
  rw [findInherited_eq, findInherited_eq, inheritFrom_congr h]
  split
  · rw [inheritStep, inheritStep, h]
  · rfl

end Block

theorem inheritAll_eq (regs : RegisterFile) (bs : List Block) :
    inheritAll regs bs = (bs.map fun b => { b with inherited := b.findInherited regs },
      (bs.flatMap (·.findInherited regs)).foldl keep regs) := by
  induction bs generalizing regs with
  | nil => rfl
  | cons b bs ih =>
    have hkey : ((b.findInherited regs).foldl keep regs).slotKey = regs.slotKey :=
      funext (RegisterFile.SameShape.foldl RegisterFile.SameShape.keep _ regs).slotKey
    rw [inheritAll, ih, flatMap_cons, foldl_append, map_cons]
    simp only [Block.findInherited_congr hkey]

/-- The registers that operations and the exit of a block use belong to the file. -/
def Block.Owned (regs : RegisterFile) (b : Block) : Prop :=
  (∀ op ∈ b.ops, ∀ r ∈ op.registers, regs.owns r = true) ∧
    ∀ cond, b.exit.bind (·.kind.condition?) = some cond → regs.owns cond = true

theorem Block.Owned.of_mem_findInherited (h : b.Owned regs) (hr : r ∈ b.findInherited regs) :
    regs.owns r := by
  rcases mem_findInherited_cases hr with ⟨op, hop, hr⟩ | hcond
  · exact h.1 op hop r (Op.mem_registers_of_mem_reads hr)
  · exact h.2 r hcond

theorem protects_inheritAll (hv : regs.Valid) {bs : List Block} (hb : b ∈ bs)
    (howned : b.Owned regs) (h : b.Exposes regs key) : (inheritAll regs bs).2.Protects key := by
  obtain ⟨q, hq, rfl⟩ := Block.exists_mem_findInherited h
  rw [inheritAll_eq]
  exact hv.protects_foldl_keep (mem_flatMap.2 ⟨b, hb, hq⟩)
    (owns_iff.1 (howned.of_mem_findInherited hq)).2

/-! ## Dead operations -/

def deadOps (regs : RegisterFile) (full : Bool) (liveOut : List Nat) : List Op → List Op
  | [] => []
  | op :: ops =>
    if op.isDead regs full (dropDead regs full liveOut ops).2.1 then
      op :: deadOps regs full liveOut ops
    else deadOps regs full liveOut ops

theorem dropDead_cons (regs : RegisterFile) (full : Bool) (liveOut : List Nat) (op : Op)
    (ops : List Op) : dropDead regs full liveOut (op :: ops) =
      if op.isDead regs full (dropDead regs full liveOut ops).2.1 then
        ((dropDead regs full liveOut ops).1, (dropDead regs full liveOut ops).2.1,
          (dropDead regs full liveOut ops).2.2 + 1)
      else (op :: (dropDead regs full liveOut ops).1,
        op.reads.map regs.slotKey ++ (dropDead regs full liveOut ops).2.1,
        (dropDead regs full liveOut ops).2.2) := rfl

theorem perm_dropDead (regs : RegisterFile) (full : Bool) (liveOut : List Nat) (ops : List Op) :
    ((dropDead regs full liveOut ops).1 ++ deadOps regs full liveOut ops).Perm ops ∧
      (dropDead regs full liveOut ops).2.2 = (deadOps regs full liveOut ops).length := by
  induction ops with
  | nil => exact ⟨.nil, rfl⟩
  | cons op ops ih =>
    rw [dropDead_cons, deadOps]
    split
    · exact ⟨perm_middle.trans (ih.1.cons op), congrArg (· + 1) ih.2⟩
    · exact ⟨ih.1.cons op, ih.2⟩

variable {full : Bool} {liveOut : List Nat}

theorem not_isDead_of_protects (hv : regs.Valid) (howned : ∀ r ∈ op.registers, regs.owns r)
    (hp : regs.Protects key) (hw : op.Writes regs.slotKey key) :
    op.isDead regs full live = false := by
  obtain ⟨r, hr, hkey⟩ := hw
  cases op with
  | call c => rfl
  | inst i =>
    have hlt := (owns_iff.1 (howned r (Op.mem_registers_of_mem_writes hr))).2
    have hpinned := hp (regs.baseOf r) (hv.baseOf_lt hlt) hkey
    have hall : (i.writes.all fun r =>
        regs.isEliminable (regs.baseOf r) && regs.slotKey r ∉ live) = false := by
      rw [all_eq_false]
      exact ⟨r, hr, by rw [hpinned]; simp⟩
    rw [Op.isDead, hall, Bool.and_false]

theorem subset_live (regs : RegisterFile) (full : Bool) (liveOut : List Nat) (ops : List Op) :
    liveOut ⊆ (dropDead regs full liveOut ops).2.1 := by
  induction ops with
  | nil => exact List.Subset.refl _
  | cons op ops ih =>
    rw [dropDead_cons]
    split
    · exact ih
    · exact fun key hkey => mem_append_right _ (ih hkey)

theorem isDead_of_mem_deadOps (h : op ∈ deadOps regs full liveOut ops) :
    ∃ live, liveOut ⊆ live ∧ op.isDead regs full live := by
  induction ops with
  | nil => cases h
  | cons first ops ih =>
    rw [deadOps] at h
    split at h
    · rename_i hdead
      rcases mem_cons.1 h with rfl | h
      · exact ⟨_, subset_live regs full liveOut ops, hdead⟩
      · exact ih h
    · exact ih h

theorem not_writes_of_isDead (hkey : key ∈ live) (h : op.isDead regs full live) :
    ¬op.Writes regs.slotKey key := by
  rintro ⟨r, hr, rfl⟩
  cases op with
  | call c => cases h
  | inst i =>
    simp only [Op.isDead, Bool.and_eq_true, all_eq_true, decide_eq_true_eq] at h
    exact (h.2 r hr).2 hkey

theorem not_writes_of_mem_deadOps (hkey : key ∈ liveOut) (h : op ∈ deadOps regs full liveOut ops) :
    ¬op.Writes regs.slotKey key := by
  obtain ⟨live, hsub, hdead⟩ := isDead_of_mem_deadOps h
  exact not_writes_of_isDead (hsub hkey) hdead

theorem mem_live_of_reads (hop : op ∈ (dropDead regs full liveOut ops).1)
    (hr : op.Reads regs.slotKey key) : key ∈ (dropDead regs full liveOut ops).2.1 := by
  induction ops with
  | nil => cases hop
  | cons first ops ih =>
    rw [dropDead_cons] at hop ⊢
    split at hop
    · rename_i hdead
      rw [if_pos hdead]
      exact ih hop
    · rename_i hdead
      rw [if_neg hdead]
      rcases mem_cons.1 hop with rfl | hop
      · obtain ⟨r, hr, rfl⟩ := hr
        exact mem_append_left _ (mem_map_of_mem hr)
      · exact mem_append_right _ (ih hop)

theorem exposes_of_exposes_dropDead
    (h : Exposes regs.slotKey key (dropDead regs full liveOut ops).1) :
    Exposes regs.slotKey key ops := by
  induction ops with
  | nil => cases h
  | cons first ops ih =>
    rw [dropDead_cons] at h
    split at h
    · rename_i hdead
      -- what a dead operation writes is read by nothing that is kept
      refine .inr ⟨?_, ih h⟩
      obtain ⟨before, op, after, heq, hreads, -⟩ := exposes_iff.1 h
      exact not_writes_of_isDead (mem_live_of_reads (by rw [heq]; simp) hreads) hdead
    · rcases h with hreads | ⟨hnot, h⟩
      · exact .inl hreads
      · exact .inr ⟨hnot, ih h⟩

end SecureTape
