import SecureTape.Proofs.Lifetimes

/-!
# Double writes

The allocator notes every register that the code writes. Main statements:
1. `Allocator.ends_run`: unless registers run out, its walk fails exactly if an element is written
   twice.
2. `allocateRegisters_doubleWrite_iff`: so does allocation, whatever the blocks are.
-/

namespace SecureTape

open Action RegisterFile List

variable {r : Reg} {f : RegisterFile}

namespace RegisterFile

variable {rs : List Reg}

theorem Proper.offset_eq_zero (hf : f.Proper) (h : f.sizeOf r = 0) : (f.resolve r).2 = 0 := by
  cases hview : (f.data r.id).view with
  | none => simp [resolve, hview]
  | some v =>
    by_cases hr : r.id < f.size
    · exact absurd h (hf.nonempty hr hview).ne'
    · rw [data, Array.getD_eq_getD_getElem?, Array.getElem?_eq_none (not_lt.1 hr)] at hview
      cases hview

/-- An element of a base register is covered by two of the registers. -/
def Collide (f : RegisterFile) (rs : List Reg) : Prop :=
  ∃ base e, 2 ≤ rs.countP (f.Holds · base e)

theorem collide_cons_iff : f.Collide (r :: rs) ↔
    f.Collide rs ∨ ∃ q ∈ rs, ∃ base e, f.Holds r base e ∧ f.Holds q base e := by
  have hpos (base e : Nat) : 0 < rs.countP (f.Holds · base e) ↔ ∃ q ∈ rs, f.Holds q base e := by
    simp [countP_pos_iff]
  simp only [Collide, countP_cons, decide_eq_true_eq]
  constructor
  · rintro ⟨base, e, h⟩
    split at h
    · rename_i hr
      obtain ⟨q, hq, he⟩ := (hpos base e).1 (by omega)
      exact .inr ⟨q, hq, base, e, hr, he⟩
    · exact .inl ⟨base, e, h⟩
  · rintro (⟨base, e, h⟩ | ⟨q, hq, base, e, hr, he⟩)
    · exact ⟨base, e, by omega⟩
    · have := (hpos base e).2 ⟨q, hq, he⟩
      exact ⟨base, e, by rw [if_pos hr]; omega⟩

theorem Collide.mono {qs : List Reg} (h : f.Collide rs) (hsub : rs.Subperm qs) : f.Collide qs := by
  obtain ⟨base, e, h⟩ := h
  exact ⟨base, e, h.trans (hsub.countP_le _)⟩

end RegisterFile

namespace Allocator

variable {a b : Allocator} {ws : List Reg}

def writesOf (ss : List Step) : List Reg :=
  ss.filterMap fun
    | .need .. => none
    | .write r => some r

theorem writesOf_append (xs ys : List Step) : writesOf (xs ++ ys) = writesOf xs ++ writesOf ys :=
  filterMap_append

/-- The runs written so far are those of the registers. -/
def Noted (f : RegisterFile) (a : Allocator) (ws : List Reg) : Prop :=
  ∀ base, a.runs base =
    (ws.filter (f.baseOf · = base)).map fun r => ((f.resolve r).2, f.sizeOf r)

/-! ## One step -/

theorem Moves.noted {s : Step} (h : Moves f a s b) (ha : Noted f a ws) :
    Noted f b (writesOf [s] ++ ws) := by
  have hnote (r : Reg) (base : Nat) : (a.note f r).runs base =
      ((r :: ws).filter (f.baseOf · = base)).map fun r => ((f.resolve r).2, f.sizeOf r) := by
    rw [runs_note, ha base]
    by_cases hbase : f.baseOf r = base <;> simp [hbase]
  intro base
  cases h with
  | idle => exact ha base
  | place _ hopens => exact (runs_place hopens _ base).trans (ha base)
  | note => exact hnote _ base
  | finish => exact (runs_giveBack _ _ base).trans (hnote _ base)

theorem error_of_assign {pool : PoolId} {fault : CompileError}
    (h : (assign r pool).run a = (.error fault, b)) :
    ∃ cls n top, fault = .exhausted .registers cls n top := by
  unfold assign at h
  rw [run_get_bind] at h
  simp only [] at h
  split at h
  · cases h
  rcases hobtain : (obtain ⟨pool, (a.regs.data (a.regs.slotKey r)).cls,
    (a.regs.data (a.regs.slotKey r)).size⟩).run a with ⟨_ | _, c⟩
  · rw [run_bind_error hobtain] at h
    cases h
    unfold obtain at hobtain
    rw [run_get_bind] at hobtain
    split at hobtain
    · cases hobtain
    · rw [run_bind_ok (run_set _ _)] at hobtain
      simp only [] at hobtain
      split at hobtain
      · cases hobtain
        exact ⟨_, _, _, rfl⟩
      · cases hobtain
  · rw [run_bind_ok hobtain] at h
    cases h

/-- A write is refused exactly if it covers an element of a register that is noted. -/
theorem define_cases (hf : f.Proper) (hregs : SameButSlots f a.regs) (ha : Noted f a ws)
    (hws : ¬ f.Collide ws) (r : Reg) :
    (∃ label, ((define r).run a).1 = .error (.construction (.doubleWrite label))) ∧
        f.Collide (r :: ws) ∨
      ((define r).run a).1 = .ok ⟨⟩ ∧ ¬ f.Collide (r :: ws) := by
  have hoverlap (q : Reg) : overlap ((f.resolve r).2, f.sizeOf r) ((f.resolve q).2, f.sizeOf q) =
      true ∧ f.baseOf q = f.baseOf r ↔ ∃ base e, f.Holds r base e ∧ f.Holds q base e := by
    have hr := hf.offset_eq_zero (r := r)
    have hq := hf.offset_eq_zero (r := q)
    simp only [overlap, Bool.and_eq_true, decide_eq_true_eq, Holds]
    constructor
    · rintro ⟨h, hbase⟩
      exact ⟨_, max (f.resolve r).2 (f.resolve q).2, ⟨rfl, by omega⟩, hbase, by omega⟩
    · rintro ⟨base, e, ⟨rfl, hr⟩, hbase, hq⟩
      exact ⟨by omega, hbase⟩
  have hany : (a.runs (f.baseOf r)).any (overlap ((f.resolve r).2, f.sizeOf r)) = true ↔
      f.Collide (r :: ws) := by
    rw [collide_cons_iff, or_iff_right hws, ha]
    simp only [← hoverlap, any_eq_true, mem_map, mem_filter, decide_eq_true_eq]
    grind
  rw [← hregs.sameShape.baseOf, ← hregs.sameShape.resolve, ← hregs.sameShape.sizeOf] at hany
  rw [← hany]
  unfold define
  rw [run_get_bind]
  simp only []
  split
  · rename_i h
    exact .inl ⟨⟨_, rfl⟩, h⟩
  · rename_i h
    exact .inr ⟨by split <;> rfl, h⟩

/-! ## The walk -/

/-- How the walk can end, if the code writes the registers. -/
def Ends (f : RegisterFile) (result : Except CompileError Unit) (ws : List Reg) : Prop :=
  (∃ cls n top, result = .error (.exhausted .registers cls n top)) ∨
    (∃ label, result = .error (.construction (.doubleWrite label))) ∧ f.Collide ws ∨
    result = .ok ⟨⟩ ∧ ¬ f.Collide ws

/-- Unless registers run out, steps fail exactly if an element is written twice, by them or by them
and before. -/
theorem ends_run (hf : f.Proper) (ss : List Step) (hregs : SameButSlots f a.regs)
    (ha : Noted f a ws) (hws : ¬ f.Collide ws) :
    Ends f ((ss.forM Step.exec).run a).1 (writesOf ss ++ ws) := by
  induction ss generalizing a ws with
  | nil => exact .inr (.inr ⟨rfl, hws⟩)
  | cons s ss ih =>
    have hmeets : Meets Walks s.exec a fun _ b => Moves f a s b := by
      cases s with
      | need r pool => exact meets_assign r pool hregs
      | write r => exact meets_define r hregs
    have hperm : (writesOf (s :: ss) ++ ws).Perm (writesOf ss ++ (writesOf [s] ++ ws)) := by
      rw [← append_assoc, show s :: ss = [s] ++ ss from rfl, writesOf_append]
      exact perm_append_comm.append_right ws
    have hcons : (s :: ss).forM Step.exec = (s.exec >>= fun _ => ss.forM Step.exec) := rfl
    have hcollide : f.Collide (writesOf (s :: ss) ++ ws) ↔
        f.Collide (writesOf ss ++ (writesOf [s] ++ ws)) :=
      ⟨(·.mono hperm.subperm), (·.mono hperm.symm.subperm)⟩
    rw [Ends, hcollide, hcons]
    have hstep : Ends f (s.exec.run a).1 (writesOf [s] ++ ws) := by
      cases s with
      | need r pool =>
        rcases hrun : (assign r pool).run a with ⟨fault | _, b⟩
        · exact .inl (by simpa [Step.exec, hrun] using error_of_assign hrun)
        · exact .inr (.inr ⟨congrArg Prod.fst hrun, hws⟩)
      | write r => exact .inr (define_cases hf hregs ha hws r)
    rcases hstep with ⟨cls, n, top, h⟩ | ⟨⟨label, h⟩, htwice⟩ | ⟨h, hone⟩
    · exact .inl ⟨cls, n, top, by rw [run_bind_error (Prod.ext h rfl)]⟩
    · refine .inr (.inl ⟨⟨label, by rw [run_bind_error (Prod.ext h rfl)]⟩, htwice.mono ?_⟩)
      exact (sublist_append_right _ _).subperm
    · have hmove := hmeets.result _ _ (run_eq_of_fst h)
      rw [run_bind_ok (run_eq_of_fst h)]
      exact ih (hmeets.ends.file.trans hregs) (hmove.noted ha) hone

theorem perm_writesOf_walkSteps (blocks : Array Block) (exported : List Reg) :
    (writesOf (walkSteps blocks exported)).Perm ((layout blocks).flatMap Instruction.writes) := by
  have hneeds (pool : PoolId) (rs : List Reg) : writesOf (rs.map (.need · pool)) = [] := by
    simp [writesOf, filterMap_map]
  have hflat {α : Type} (g : α → List Step) (xs : List α) :
      writesOf (xs.flatMap g) = xs.flatMap fun x => writesOf (g x) := filterMap_flatMap
  have hsteps (pool : PoolId) (i : Instruction) : writesOf (steps pool i) = i.writes := by
    simp [writesOf, steps, needs, filterMap_map]
  have hloop (start : BlockId) : writesOf (loopSteps blocks start) = [] := by
    simp only [loopSteps, hflat, hneeds, flatMap_eq_nil_iff, implies_true]
  have hblock (e : Block × Nat) : writesOf (blockSteps blocks e.2 e.1) =
      e.1.instructions.reverse.flatMap Instruction.writes := by
    simp only [blockSteps, writesOf_append, hflat, hsteps]
    split
    · split
      · rw [hloop, nil_append]
      · rfl
    · rfl
  unfold walkSteps layout
  split
  · rename_i hnone
    have hsize : blocks.size = 0 := by simpa using hnone
    rw [Array.eq_empty_of_size_eq_zero hsize]
    exact .refl _
  · have hmap : blocks.toList.flatMap Block.instructions =
        blocks.toList.zipIdx.flatMap fun e => e.1.instructions := by
      conv_lhs => rw [← zipIdx_map_fst 0 blocks.toList, flatMap_map]
    simp only [writesOf_append, hneeds, nil_append, hflat, hblock, hmap, flatMap_assoc]
    exact ((reverse_perm _).flatMap_right _).trans
      (List.Perm.flatMap_left _ fun e _ => (reverse_perm _).flatMap_right _)

end Allocator

open Allocator

/-- Unless registers run out, allocation reports a double write exactly if two write operands of the
code cover an element of a base register. -/
theorem allocateRegisters_doubleWrite_iff {regs : RegisterFile} {limit : Nat} {blocks : Array Block}
    (hregs : regs.Proper) (h : ∀ cls n top, (allocateRegisters regs limit blocks).1 ≠
      .error (.exhausted .registers cls n top)) :
    (∃ label, (allocateRegisters regs limit blocks).1 =
        .error (.construction (.doubleWrite label))) ↔
      ∃ base e, 2 ≤ ((layout blocks).flatMap Instruction.writes).countP (regs.Holds · base e) := by
  have hnoted : Noted regs { regs := regs.clearSlots, limit } [] := fun _ => rfl
  have hends := ends_run (a := { regs := regs.clearSlots, limit }) hregs
    (walkSteps blocks regs.exported) regs.clearSlots_clearSlots hnoted (by simp [Collide])
  have hperm := perm_writesOf_walkSteps blocks regs.exported
  rw [append_nil] at hends
  unfold allocateRegisters at h ⊢
  rw [run_walk, exported_clearSlots] at h ⊢
  generalize ((walkSteps blocks regs.exported).forM Step.exec).run _ = answer at h hends ⊢
  obtain ⟨result, a⟩ := answer
  rcases hends with ⟨cls, n, top, rfl⟩ | ⟨⟨label, rfl⟩, htwice⟩ | ⟨rfl, hone⟩
  · exact absurd rfl (h cls n top)
  · exact iff_of_true ⟨label, rfl⟩ (htwice.mono hperm.subperm)
  · refine iff_of_false ?_ fun htwice => hone (Collide.mono htwice hperm.symm.subperm)
    rintro ⟨label, h⟩
    cases h

/-- A view is written that is written as part of its base register before. -/
theorem allocateRegisters_doubleWrite_iff_view :
    let blocks : Array Block := #[{ sumBlocks.getD 1 default with
      ops := [.inst ⟨.ldint, .base, 2, [.reg ⟨0, 0⟩, .number 7]⟩,
        .inst ⟨.ldint, .base, 1, [.reg ⟨0, 2⟩, .number 5]⟩] }]
    ∃ label, (allocateRegisters twoNumbers 6 blocks).1 =
      .error (.construction (.doubleWrite label)) := by
  intro blocks
  refine (allocateRegisters_doubleWrite_iff proper_twoNumbers ?_).2 ⟨0, 1, by decide +kernel⟩
  have hresult : (match (allocateRegisters twoNumbers 6 blocks).1 with
    | .error (.exhausted ..) => true
    | _ => false) = false := by decide +kernel
  intro cls n top h
  rw [h] at hresult
  cases hresult

end SecureTape
