import SecureTape.Proofs.Dependencies

/-!
# Conflicts

Footprints are a device of the scheduler. What they stand for is said here in terms of the
operations themselves: registers, input and output, communication, memory, barriers and jumps. The
dependencies that the scheduler keeps order exactly what such conflicts order, directly or through a
chain.

1. `Op.hinders_iff`: an operation hinders another if it writes a cell that the other touches.
2. `reaches_iff_chain`: an operation reaches another along dependencies exactly if a chain of
   conflicts leads from one to the other.
-/

namespace SecureTape

open List

variable {key : Nat} {cls : RegisterClass} {regs : RegisterFile}

namespace Op

variable {a b : Op}

/-- The operation takes part in communication. A macro call always counts as doing so. -/
def Communicates : Op → Prop
  | .inst i => i.communicates = true
  | .call _ => True

/-- The first operation writes a register that the second one reads or writes, does input or output
beside input, output or communication of the second, stores to memory that the second one uses, or
is a barrier or jump. -/
def Hinders (regs : RegisterFile) (a b : Op) : Prop :=
  (∃ r ∈ a.writes, ∃ q, (q ∈ b.reads ∨ q ∈ b.writes) ∧ regs.slotKey q = regs.slotKey r) ∨
    (a.isIo = true ∧ (b.isIo = true ∨ b.Communicates)) ∨
    (∃ cls ∈ a.stores, cls ∈ b.loads ∨ cls ∈ b.stores) ∨ a.isBarrier = true

/-- One of the two operations hinders the other. -/
def Conflicts (regs : RegisterFile) (a b : Op) : Prop := Hinders regs a b ∨ Hinders regs b a

theorem communicates_iff (op : Op) : op.Communicates ↔ 0 < op.weight := by
  cases op with
  | inst i =>
    simp only [Communicates, weight]
    split <;> simp_all
  | call c => exact ⟨fun _ => Nat.lt_of_lt_of_le Nat.one_pos (Nat.le_max_right _ _), fun _ => trivial⟩

theorem slot_mem_writes_iff :
    .slot key ∈ (a.footprint regs).writes ↔ ∃ r ∈ a.writes, regs.slotKey r = key := by
  simp only [footprint, mem_append, mem_map]
  aesop

theorem slot_mem_reads_iff :
    .slot key ∈ (a.footprint regs).reads ↔ ∃ r ∈ a.reads, regs.slotKey r = key := by
  simp only [footprint, mem_cons, mem_append, mem_map]
  aesop

theorem channel_mem_writes_iff : .channel ∈ (a.footprint regs).writes ↔ a.isIo := by
  simp only [footprint, mem_append, mem_map]
  aesop

theorem channel_mem_reads_iff :
    .channel ∈ (a.footprint regs).reads ↔ a.isIo = false ∧ a.Communicates := by
  rw [communicates_iff]
  simp only [footprint, mem_cons, mem_append, mem_map]
  aesop

theorem memory_mem_writes_iff : .memory cls ∈ (a.footprint regs).writes ↔ cls ∈ a.stores := by
  simp only [footprint, mem_append, mem_map]
  aesop

theorem memory_mem_reads_iff : .memory cls ∈ (a.footprint regs).reads ↔ cls ∈ a.loads := by
  simp only [footprint, mem_cons, mem_append, mem_map]
  aesop

theorem control_mem_writes_iff : .control ∈ (a.footprint regs).writes ↔ a.isBarrier := by
  simp only [footprint, mem_append, mem_map]
  aesop

theorem hinders_iff : Hinders regs a b ↔ ∃ c ∈ (a.footprint regs).writes,
    c ∈ (b.footprint regs).reads ∨ c ∈ (b.footprint regs).writes := by
  constructor
  · rintro (⟨r, hr, q, hq, hkey⟩ | ⟨hio, hb⟩ | ⟨cls, hcls, hb⟩ | hbarrier)
    · refine ⟨.slot (regs.slotKey r), slot_mem_writes_iff.2 ⟨r, hr, rfl⟩, ?_⟩
      rw [slot_mem_reads_iff, slot_mem_writes_iff]
      exact hq.imp (⟨q, ·, hkey⟩) (⟨q, ·, hkey⟩)
    · refine ⟨.channel, channel_mem_writes_iff.2 hio, ?_⟩
      rw [channel_mem_reads_iff, channel_mem_writes_iff]
      cases hbio : b.isIo with
      | true => exact .inr rfl
      | false => exact .inl ⟨rfl, hb.resolve_left (by simp [hbio])⟩
    · refine ⟨.memory cls, memory_mem_writes_iff.2 hcls, ?_⟩
      rwa [memory_mem_reads_iff, memory_mem_writes_iff]
    · exact ⟨.control, control_mem_writes_iff.2 hbarrier, .inl (.head _)⟩
  · rintro ⟨c, ha, hb⟩
    cases c with
    | slot key =>
      obtain ⟨r, hr, rfl⟩ := slot_mem_writes_iff.1 ha
      rw [slot_mem_reads_iff, slot_mem_writes_iff] at hb
      rcases hb with ⟨q, hq, hkey⟩ | ⟨q, hq, hkey⟩
      · exact .inl ⟨r, hr, q, .inl hq, hkey⟩
      · exact .inl ⟨r, hr, q, .inr hq, hkey⟩
    | channel =>
      rw [channel_mem_reads_iff, channel_mem_writes_iff] at hb
      exact .inr (.inl ⟨channel_mem_writes_iff.1 ha, hb.symm.imp id And.right⟩)
    | memory cls =>
      rw [memory_mem_reads_iff, memory_mem_writes_iff] at hb
      exact .inr (.inr (.inl ⟨cls, memory_mem_writes_iff.1 ha, hb⟩))
    | control => exact .inr (.inr (.inr (control_mem_writes_iff.1 ha)))

theorem conflicts_footprint_iff :
    (a.footprint regs).conflicts (b.footprint regs) ↔ Conflicts regs a b := by
  rw [Footprint.conflicts_iff, Conflicts, hinders_iff, hinders_iff]
  constructor
  · rintro ⟨c, ⟨ha, hb⟩ | ⟨ha, hb⟩⟩
    · exact .inl ⟨c, ha, hb⟩
    · exact .inr ⟨c, hb, .inl ha⟩
  · rintro (⟨c, ha, hb⟩ | ⟨c, hb, ha⟩)
    · exact ⟨c, .inl ⟨ha, hb⟩⟩
    · exact ⟨c, Footprint.MeetsAt.symm (.inl ⟨hb, ha⟩)⟩

end Op

/-! ## Chains of conflicts -/

variable {ops : List Op} {i j : Nat}

/-- The first operation stands in front of the second, and the two conflict. -/
def Precedes (regs : RegisterFile) (ops : List Op) (i j : Nat) : Prop :=
  i < j ∧ ∃ a b, ops[i]? = some a ∧ ops[j]? = some b ∧ Op.Conflicts regs a b

theorem precedes_iff : Precedes regs ops i j ↔ i < j ∧ Conflict regs ops i j := by
  simp only [Precedes, Conflict, Op.conflicts_footprint_iff]

/-- An operation reaches another along dependencies exactly if it is the start of a chain of
operations in program order, each of which conflicts with the next, that ends in the other. -/
theorem reaches_iff_chain (regs : RegisterFile) (ops : List Op) (i j : Nat) :
    Reaches regs ops i j ↔ Relation.TransGen (Precedes regs ops) i j := by
  have hstep {k l : Nat} (hkl : k ∈ (dependencies regs ops).getD l []) : Precedes regs ops k l :=
    precedes_iff.2 ⟨lt_of_mem_dependencies hkl, conflict_of_mem_dependencies hkl⟩
  constructor <;> intro h
  · induction h with
    | single hij => exact .single (hstep hij)
    | tail _ hkl ih => exact ih.tail (hstep hkl)
  · induction h with
    | single hij => exact reaches_of_conflict hij.1 (precedes_iff.1 hij).2
    | tail _ hkl ih => exact ih.trans (reaches_of_conflict hkl.1 (precedes_iff.1 hkl).2)

end SecureTape
