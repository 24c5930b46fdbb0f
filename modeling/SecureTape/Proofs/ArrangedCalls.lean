import Mathlib
import SecureTape.Proofs.Arrangements
import SecureTape.Proofs.BuiltRegions
import SecureTape.Program.Scheduled

/-!
# Calls and usage of optimized code

Main statements:
1. `Arranges.callees_eq`: tape calls are never merged, so an arrangement calls what its places call.
2. `callees_optimize_subperm`: optimized code makes no call that was not there.
3. `BuildM.uses_le_blockUsage`: the usage of a block covers what its instructions use.
-/

namespace SecureTape

open List

/-! ## Calls -/

variable {m : Op} {n : Nat} {ops : List Op} {t : Tally}

theorem Opcode.of_communicates {opcode : Opcode} (h : opcode.has .communicates) :
    opcode.isJump = false ∧ opcode ≠ .callTape := by
  cases opcode <;> first | exact ⟨rfl, by decide⟩ | cases h

namespace Op

variable {op : Op} {b : Batch}

theorem callee?_of_batch? (h : op.batch? = some b) : op.callee? = none := by
  cases op with
  | call c => rfl
  | inst i =>
    obtain ⟨hcommunicates, -⟩ := Option.ite_none_right_eq_some.1 h
    exact if_neg (Opcode.of_communicates hcommunicates).2

theorem Direct.of_batch? (h : op.Direct n) (hop : op.batch? = some b) (hm : m.batch? = some b) :
    m.Direct n := by
  obtain ⟨j, rfl, -⟩ := h
  obtain ⟨-, hkey⟩ := Option.ite_none_right_eq_some.1 hop
  cases m with
  | call c => cases hkey.trans hm.symm
  | inst i =>
    obtain ⟨hcommunicates, -⟩ := Option.ite_none_right_eq_some.1 hm
    exact .of_plain (Opcode.of_communicates hcommunicates) n

end Op

namespace Arranges

variable {α : Type} {opAt : α → Option Op} {before clash : α → α → Prop} {units : List (List α)}
  {out : List Op}

theorem callee?_of_gather? {u : List α} (h : Op.gather? (u.filterMap opAt) = some m)
    (hfound : ∀ a ∈ u, (opAt a).isSome)
    (halike : (∃ a, u = [a]) ∨ ∃ b, ∀ a ∈ u, (opAt a).bind Op.batch? = some b) :
    m.callee?.toList = u.filterMap fun a => (opAt a).bind Op.callee? := by
  rcases halike with ⟨a, rfl⟩ | ⟨b, hb⟩
  · obtain ⟨op, hop⟩ := Option.isSome_iff_exists.1 (hfound a (.head _))
    rw [filterMap_cons, hop] at h
    cases h
    rw [filterMap_cons, hop, filterMap_nil, Option.bind_some, foldl_nil]
    cases op.callee? <;> rfl
  · have hnone (a : α) (ha : a ∈ u) : (opAt a).bind Op.callee? = none := by
      obtain ⟨op, hop, hbatch⟩ := Option.bind_eq_some_iff.1 (hb a ha)
      rw [hop]
      exact Op.callee?_of_batch? hbatch
    have hm : m.batch? = some b := by
      refine Op.batch?_of_gather? h fun op hop => ?_
      obtain ⟨a, ha, hopAt⟩ := mem_filterMap.1 hop
      have hbatch := hb a ha
      rwa [hopAt] at hbatch
    rw [Op.callee?_of_batch? hm, filterMap_eq_nil_iff.2 hnone]
    rfl

/-- Tape calls are never merged: an arrangement calls what its places call. -/
theorem callees_eq (h : Arranges opAt before clash units out) :
    out.filterMap Op.callee? = units.flatten.filterMap fun a => (opAt a).bind Op.callee? := by
  have hfound := h.found
  have halike := h.alike
  have hgathered := h.gathered
  clear h
  induction hgathered with
  | nil => rfl
  | @cons u m us ms hgather hrest ih =>
    have hunit := callee?_of_gather? hgather
      (fun a ha => hfound a (mem_flatten.2 ⟨u, .head _, ha⟩))
      (halike u (.head _))
    have hothers := ih (fun a ha => hfound a (mem_append_right u ha))
      fun v hv => halike v (mem_cons_of_mem u hv)
    rw [flatten_cons, filterMap_append, ← hunit, ← hothers, filterMap_cons]
    cases m.callee? <;> rfl

theorem direct (h : Arranges opAt before clash units out)
    (hdirect : ∀ a op, opAt a = some op → op.Direct n) : ∀ m ∈ out, m.Direct n := by
  intro m hm
  obtain ⟨x, hx⟩ := mem_iff_getElem?.1 hm
  rcases getElem?_of_forall₂ h.gathered x with ⟨-, hnone⟩ | ⟨u, m', hu, hm', hgather⟩
  · cases hnone.symm.trans hx
  · cases hm'.symm.trans hx
    cases u with
    | nil => cases hgather
    | cons a u =>
      rcases h.batch?_of_mem hu hx (.head _) with hop | ⟨op, b, hop, hbatch, hmerged⟩
      · exact hdirect a m hop
      · exact (hdirect a op hop).of_batch? hbatch hmerged

end Arranges

theorem subperm_filterMap {α β : Type} {l l' : List α} (f : α → Option β) (h : l.Subperm l') :
    (l.filterMap f).Subperm (l'.filterMap f) := by
  obtain ⟨m, hperm, hsub⟩ := h
  exact ⟨m.filterMap f, hperm.filterMap f, hsub.filterMap f⟩

theorem filterMap_places {ks : List Nat} {β : Type} (f : Op → Option β) {opAt : Nat → Option Op}
    (h : Forall₂ (fun k op => opAt k = some op) ks ops) :
    ks.filterMap (fun k => (opAt k).bind f) = ops.filterMap f := by
  induction h with
  | nil => rfl
  | cons hop _ ih => rw [filterMap_cons, hop, Option.bind_some, filterMap_cons, ih]

theorem callees_optimize_subperm (regs : RegisterFile) (options : MergeOptions) (liveOut : List Nat)
    (ops : List Op) : ((optimize regs options liveOut ops).1.filterMap Op.callee?).Subperm
      (ops.filterMap Op.callee?) := by
  obtain ⟨us, h, -⟩ := exists_arranges_optimize regs options liveOut ops
  rw [h.callees_eq, ← filterMap_places Op.callee? (forall₂_range ops)]
  refine subperm_filterMap _ (List.subperm_of_subset h.nodup fun k hk => ?_)
  obtain ⟨op, hop⟩ := Option.isSome_iff_exists.1 (h.found k hk)
  exact List.mem_range.2 (List.getElem?_eq_some_iff.1 hop).1

theorem direct_optimize (hdirect : ∀ op ∈ ops, op.Direct n) (regs : RegisterFile)
    (options : MergeOptions) (liveOut : List Nat) :
    ∀ m ∈ (optimize regs options liveOut ops).1, m.Direct n := by
  obtain ⟨us, h, -⟩ := exists_arranges_optimize regs options liveOut ops
  exact h.direct fun k op hop => hdirect op (mem_of_getElem? hop)

/-! ## Usage -/

/-- How much of a resource an instruction uses. -/
def Instruction.uses (key : Resource) (i : Instruction) : Nat :=
  ((i.usage.filter (·.1 = key)).map (·.2)).sum

/-- How much of a resource an operation uses. -/
def Op.uses (key : Resource) (op : Op) : Nat := (op.inst?.map (Instruction.uses key)).getD 0

namespace BuildM

theorem valid_foldl_increment (ht : t.Valid) (used : List (Resource × Nat)) :
    (used.foldl (fun t u => t.increment u.1 (.finite u.2)) t).Valid := by
  induction used generalizing t with
  | nil => exact ht
  | cons u used ih => exact ih (Tally.valid_increment ht)

theorem le_get_foldl_increment (ht : t.Valid) (used : List (Resource × Nat)) (key : Resource) :
    (t.get key).value + (((used.filter (·.1 = key)).map (·.2)).sum : Nat) ≤
      ((used.foldl (fun t u => t.increment u.1 (.finite u.2)) t).get key).value := by
  induction used generalizing t with
  | nil => simp
  | cons u used ih =>
    refine le_trans ?_ (ih (Tally.valid_increment ht))
    rw [Tally.get_increment ht]
    by_cases hu : u.1 = key
    · rw [if_pos hu.symm, filter_cons_of_pos (by simpa using hu), map_cons, sum_cons,
        Nat.cast_add, ← add_assoc]
      exact add_le_add (Count.value_add_le _ _) le_rfl
    · rw [if_neg (Ne.symm hu), filter_cons_of_neg (by simpa using hu)]

/-- The usage of a block covers what its instructions use. -/
theorem uses_le_blockUsage (ops : List Op) (stats : MergeStats) (key : Resource) :
    (((ops.map (Op.uses key)).sum : Nat) : ℕ∞) ≤ ((blockUsage ops stats).get key).value := by
  set used := (ops.filterMap Op.inst?).flatMap Instruction.usage with hused
  have hsum : (ops.map (Op.uses key)).sum = ((used.filter (·.1 = key)).map (·.2)).sum := by
    rw [hused]
    clear hused used
    induction ops with
    | nil => rfl
    | cons op ops ih =>
      cases op with
      | call c => exact (zero_add _).trans ih
      | inst i =>
        rw [map_cons, sum_cons, ih, filterMap_cons_some (by rfl), flatMap_cons,
          filter_append, map_append, sum_append]
        rfl
  have hincrement {t : Tally} (ht : t.Valid) (r : Resource) (n : Count) :
      (t.get key).value ≤ ((t.increment r n).get key).value := by
    rw [Tally.get_increment ht]
    split
    · exact Count.le_value_add_left _ _
    · exact le_rfl
  have hvalid := valid_foldl_increment Tally.valid_empty used
  calc (((ops.map (Op.uses key)).sum : Nat) : ℕ∞)
    _ ≤ _ := by
      have hused := le_get_foldl_increment Tally.valid_empty used key
      rw [hsum]
      exact le_add_self.trans hused
    _ ≤ _ := hincrement hvalid .rounds (.finite stats.rounds)
    _ ≤ _ := hincrement (Tally.valid_increment hvalid) .groups (.finite stats.groups)

theorem valid_blockUsage (ops : List Op) (stats : MergeStats) : (blockUsage ops stats).Valid :=
  Tally.valid_increment (Tally.valid_increment (valid_foldl_increment Tally.valid_empty _))

end BuildM

end SecureTape
