import SecureTape.Proofs.Arrangements

/-!
# Exactly the dead operations

One pass over a block from its end drops what is dead, also what is dead only because its readers
are. Main statements:
1. `mem_live_after_iff`: behind an operation those slots are live that are wanted at the end or that
   a later operation reads which is kept.
2. `dropDead_kept`: of the operations that are kept none is dead.
3. `dropDead_exact`: which operations are dropped, and which are kept.
-/

namespace SecureTape

open List

variable {regs : RegisterFile} {full : Bool} {liveOut : List Nat} {ops : List Op} {k key : Nat}

theorem mem_kept_iff {op : Op} :
    op ∈ (dropDead regs full liveOut ops).1 ↔
      ∃ k, Survives regs full liveOut ops k ∧ ops[k]? = some op := by
  obtain ⟨ks, -, hkept, hks⟩ := exists_kept regs full liveOut ops
  constructor
  · intro hop
    obtain ⟨k, hk, hget⟩ := exists_left_of_forall₂ hkept hop
    exact ⟨k, (hks k).1 hk, hget⟩
  · rintro ⟨k, hk, hget⟩
    obtain ⟨op', hop', hget'⟩ := exists_right_of_forall₂ hkept ((hks k).2 hk)
    cases hget.symm.trans hget'
    exact hop'

theorem survives_drop {n : Nat} :
    Survives regs full liveOut (ops.drop n) k ↔ Survives regs full liveOut ops (n + k) := by
  simp only [Survives, getElem?_drop, drop_drop, Nat.add_assoc]

theorem mem_live_iff :
    key ∈ (dropDead regs full liveOut ops).2.1 ↔
      key ∈ liveOut ∨ ∃ op ∈ (dropDead regs full liveOut ops).1, op.Reads regs.slotKey key := by
  refine ⟨?_, ?_⟩
  · induction ops with
    | nil => exact .inl
    | cons op ops ih =>
      rw [dropDead_cons]
      split
      · exact ih
      · intro hkey
        rcases mem_append.1 hkey with hreads | hlive
        · obtain ⟨r, hr, rfl⟩ := mem_map.1 hreads
          exact .inr ⟨op, .head _, r, hr, rfl⟩
        · exact (ih hlive).imp_right fun ⟨o, ho, hreads⟩ => ⟨o, .tail _ ho, hreads⟩
  · rintro (hkey | ⟨op, hop, hreads⟩)
    · exact subset_live regs full liveOut ops hkey
    · exact mem_live_of_reads hop hreads

theorem mem_live_after_iff :
    key ∈ (dropDead regs full liveOut (ops.drop (k + 1))).2.1 ↔
      key ∈ liveOut ∨ ∃ j, k < j ∧ Survives regs full liveOut ops j ∧
        ∃ op, ops[j]? = some op ∧ op.Reads regs.slotKey key := by
  rw [mem_live_iff]
  refine or_congr_right ⟨?_, ?_⟩
  · rintro ⟨op, hop, hreads⟩
    obtain ⟨j, hj, hget⟩ := mem_kept_iff.1 hop
    rw [getElem?_drop] at hget
    exact ⟨k + 1 + j, by omega, survives_drop.1 hj, op, hget, hreads⟩
  · rintro ⟨j, hkj, hj, op, hget, hreads⟩
    obtain ⟨l, rfl⟩ := Nat.exists_eq_add_of_lt hkj
    rw [show k + l + 1 = k + 1 + l by omega] at hj hget
    exact ⟨op, mem_kept_iff.2 ⟨l, survives_drop.2 hj, by rw [getElem?_drop, hget]⟩, hreads⟩

theorem dropDead_kept (regs : RegisterFile) (full : Bool) (liveOut : List Nat) (ops : List Op) :
    dropDead regs full liveOut (dropDead regs full liveOut ops).1 =
      ((dropDead regs full liveOut ops).1, (dropDead regs full liveOut ops).2.1, 0) := by
  induction ops with
  | nil => rfl
  | cons op ops ih =>
    rw [dropDead_cons]
    split
    · exact ih
    · rename_i hdead
      rw [dropDead_cons, ih, if_neg hdead]

theorem isDead_inst_iff {i : Instruction} {live : List Nat} :
    (Op.inst i).isDead regs full live ↔
      i.hasSideEffect = false ∧ (full ∨ i.opcode.loadsImmediate = true) ∧ i.writes ≠ [] ∧
        ∀ r ∈ i.writes, regs.isEliminable (regs.baseOf r) ∧ regs.slotKey r ∉ live := by
  simp [Op.isDead, and_assoc]

/-- Dead operations are dropped, no others, and all of them at once. The operations with the numbers
`ks` are kept. What is dropped is an instruction without side effect, a load of an immediate unless
`full`, and writes nothing that is protected, wanted at the end or read by a later operation that is
kept; if `full`, every instruction that is kept has a side effect, writes nothing, or writes
something of that sort. -/
theorem dropDead_exact (regs : RegisterFile) (full : Bool) (liveOut : List Nat) (ops : List Op) :
    ∃ ks : List Nat, ks.Pairwise (· < ·) ∧
      List.Forall₂ (fun k op => ops[k]? = some op) ks (dropDead regs full liveOut ops).1 ∧
      (dropDead regs full liveOut ops).1.length + (dropDead regs full liveOut ops).2.2 = ops.length ∧
      (∀ k op, ops[k]? = some op → k ∉ ks → ∃ i, op = .inst i ∧ i.hasSideEffect = false ∧
        (full = false → i.opcode.loadsImmediate = true) ∧
        ∀ r ∈ i.writes, regs.slotKey r ∉ liveOut ∧
          (∀ id ∈ regs.aliases (regs.baseOf r), (regs.data id).eliminable = true) ∧
          ∀ j ∈ ks, k < j → ∀ later, ops[j]? = some later →
            ¬ later.Reads regs.slotKey (regs.slotKey r)) ∧
      (full = true → ∀ k ∈ ks, ∀ i, ops[k]? = some (.inst i) → i.hasSideEffect = false →
        i.writes ≠ [] → ∃ r ∈ i.writes, regs.slotKey r ∈ liveOut ∨
          (∃ id ∈ regs.aliases (regs.baseOf r), (regs.data id).eliminable = false) ∨
          ∃ j ∈ ks, k < j ∧ ∃ later, ops[j]? = some later ∧
            later.Reads regs.slotKey (regs.slotKey r)) ∧
      (dropDead regs full liveOut (dropDead regs full liveOut ops).1).1 =
        (dropDead regs full liveOut ops).1 ∧
      (dropDead regs full liveOut (dropDead regs full liveOut ops).1).2.2 = 0 := by
  obtain ⟨ks, hsorted, hkept, hks⟩ := exists_kept regs full liveOut ops
  have hcount := perm_dropDead regs full liveOut ops
  have hagain := dropDead_kept regs full liveOut ops
  refine ⟨ks, hsorted, hkept, ?_, ?_, ?_, by rw [hagain], by rw [hagain]⟩
  · rw [hcount.2, ← length_append, hcount.1.length_eq]
  · intro k op hop hk
    cases op with
    | call c => exact absurd ((hks k).mpr ⟨_, hop, rfl⟩) hk
    | inst i =>
      have hdead := Bool.of_not_eq_false fun h => hk ((hks k).mpr ⟨_, hop, h⟩)
      obtain ⟨heffect, hmode, -, hwrites⟩ := isDead_inst_iff.mp hdead
      refine ⟨i, rfl, heffect, fun h => hmode.resolve_left (by simp [h]), ?_⟩
      intro r hr
      obtain ⟨heliminable, hlive⟩ := hwrites r hr
      rw [mem_live_after_iff, not_or] at hlive
      refine ⟨hlive.1, all_eq_true.mp heliminable, ?_⟩
      intro j hj hkj later hlater hreads
      exact hlive.2 ⟨j, hkj, (hks j).mp hj, later, hlater, hreads⟩
  · intro hfull k hk i hi heffect hne
    obtain ⟨op, hop, hdead⟩ := (hks k).mp hk
    cases hi.symm.trans hop
    have hnot : ¬ ∀ r ∈ i.writes, regs.isEliminable (regs.baseOf r) = true ∧
        regs.slotKey r ∉ (dropDead regs full liveOut (ops.drop (k + 1))).2.1 := by
      intro hwrites
      rw [isDead_inst_iff.mpr ⟨heffect, .inl hfull, hne, hwrites⟩] at hdead
      cases hdead
    simp only [mem_live_after_iff, not_forall, not_and_or, not_not] at hnot
    obtain ⟨r, hr, hpinned | hout | ⟨j, hkj, hj, later, hlater⟩⟩ := hnot
    · rw [Bool.not_eq_true, RegisterFile.isEliminable, all_eq_false] at hpinned
      obtain ⟨id, hid, hdata⟩ := hpinned
      exact ⟨r, hr, .inr (.inl ⟨id, hid, (Bool.not_eq_true _).mp hdata⟩)⟩
    · exact ⟨r, hr, .inl hout⟩
    · exact ⟨r, hr, .inr (.inr ⟨j, (hks j).mpr hj, hkj, later, hlater⟩)⟩

end SecureTape
