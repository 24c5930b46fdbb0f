import Mathlib.Data.List.Induction
import Mathlib.Logic.Relation
import Mathlib.Tactic.Common
import SecureTape.Flow.Rounds

/-!
# Dependencies

The dependencies that are kept are few, and they still order all operations that conflict.

Main statements:
1. `mem_dependencies_iff`: an operation depends on an earlier one exactly when the two meet at a
   cell that no operation between them writes.
2. `reaches_of_conflict`: of two operations that conflict the earlier reaches the later along
   dependencies. A writer of the cell between them conflicts with both, which cuts the gap.
-/

namespace SecureTape

open List Footprint

variable {j : Nat} {op : Op} {r : Reg} {c : Cell}

namespace Footprint

/-- The operation writes a cell that is read or written, or reads one that is written. -/
def MeetsAt (c : Cell) (f : Footprint) (reads writes : List Cell) : Prop :=
  (c ∈ f.writes ∧ (c ∈ reads ∨ c ∈ writes)) ∨ (c ∈ f.reads ∧ c ∈ writes)

variable {f g : Footprint} {reads writes : List Cell}

theorem touches_iff : f.touches reads writes ↔ ∃ c, MeetsAt c f reads writes := by
  simp only [touches, Bool.or_eq_true, any_eq_true, decide_eq_true_eq, MeetsAt]
  constructor
  · rintro (⟨c, hc, h⟩ | ⟨c, hc, h⟩)
    · exact ⟨c, .inl ⟨hc, h⟩⟩
    · exact ⟨c, .inr ⟨hc, h⟩⟩
  · rintro ⟨c, ⟨hc, h⟩ | ⟨hc, h⟩⟩
    · exact .inl ⟨c, hc, h⟩
    · exact .inr ⟨c, hc, h⟩

theorem conflicts_iff :
    f.conflicts g ↔ ∃ c, MeetsAt c f g.reads g.writes :=
  touches_iff

theorem MeetsAt.symm (h : MeetsAt c f g.reads g.writes) : MeetsAt c g f.reads f.writes := by
  rcases h with ⟨hf, hg | hg⟩ | ⟨hf, hg⟩
  · exact .inr ⟨hg, hf⟩
  · exact .inl ⟨hg, .inr hf⟩
  · exact .inl ⟨hg, .inl hf⟩

theorem conflicts_symm (h : f.conflicts g) : g.conflicts f := by
  obtain ⟨c, hc⟩ := conflicts_iff.1 h
  exact conflicts_iff.2 ⟨c, hc.symm⟩

theorem MeetsAt.touched (h : MeetsAt c f g.reads g.writes) : c ∈ f.reads ∨ c ∈ f.writes := by
  rcases h with ⟨hf, -⟩ | ⟨hf, -⟩
  · exact .inr hf
  · exact .inl hf

theorem meetsAt_of_writes (hf : c ∈ f.writes) (hg : c ∈ g.reads ∨ c ∈ g.writes) :
    MeetsAt c f g.reads g.writes :=
  .inl ⟨hf, hg⟩

theorem meetsAt_filter {settled : List Cell} :
    MeetsAt c f (reads.filter (· ∉ settled)) (writes.filter (· ∉ settled)) ↔
      MeetsAt c f reads writes ∧ c ∉ settled := by
  simp only [MeetsAt, mem_filter, decide_eq_true_eq]
  tauto

/-! ## The search -/

/-- Operations with their numbers, the latest first. -/
def history (fs : List Footprint) : List (Nat × Footprint) :=
  (fs.zipIdx.map Prod.swap).reverse

theorem history_concat (fs : List Footprint) (f : Footprint) :
    history (fs ++ [f]) = (fs.length, f) :: history fs := by
  simp [history, zipIdx_append]

@[simp] theorem length_history (fs : List Footprint) : (history fs).length = fs.length := by
  simp [history]

theorem mem_dependsOn_history {fs : List Footprint} :
    j ∈ dependsOn reads writes (history fs) ↔
      ∃ f c, fs[j]? = some f ∧ MeetsAt c f reads writes ∧
        ∀ k g, j < k → fs[k]? = some g → c ∉ g.writes := by
  induction fs using reverseRecOn generalizing reads writes with
  | nil => simp [history, dependsOn]
  | append_singleton fs g ih =>
    have hmem : j ∈ dependsOn reads writes (history (fs ++ [g])) ↔
        (j = fs.length ∧ ∃ c, MeetsAt c g reads writes) ∨
          j ∈ dependsOn (reads.filter (· ∉ g.writes)) (writes.filter (· ∉ g.writes))
            (history fs) := by
      rw [history_concat, dependsOn, ← touches_iff]
      split <;> simp_all
    rw [hmem, ih]
    constructor
    · rintro (⟨rfl, c, hc⟩ | ⟨f, c, hf, hc, hlast⟩)
      · refine ⟨g, c, by simp, hc, ?_⟩
        intro k h hk hh
        have := (List.getElem?_eq_some_iff.1 hh).1
        simp only [length_append, length_singleton] at this
        omega
      · have hj := (List.getElem?_eq_some_iff.1 hf).1
        obtain ⟨hc, hg⟩ := meetsAt_filter.1 hc
        refine ⟨f, c, by rw [getElem?_append_left hj]; exact hf, hc, ?_⟩
        intro k h hk hh
        rcases Nat.lt_trichotomy k fs.length with hlt | rfl | hgt
        · rw [getElem?_append_left hlt] at hh
          exact hlast k h hk hh
        · simp only [getElem?_concat_length, Option.some.injEq] at hh
          exact hh ▸ hg
        · rw [getElem?_eq_none (by simp; omega)] at hh
          cases hh
    · rintro ⟨f, c, hf, hc, hlast⟩
      have hj := (List.getElem?_eq_some_iff.1 hf).1
      simp only [length_append, length_singleton] at hj
      by_cases hjn : j = fs.length
      · subst hjn
        simp only [getElem?_concat_length, Option.some.injEq] at hf
        exact .inl ⟨rfl, c, hf ▸ hc⟩
      · have hlt : j < fs.length := by omega
        rw [getElem?_append_left hlt] at hf
        refine .inr ⟨f, c, hf, meetsAt_filter.2 ⟨hc, ?_⟩, ?_⟩
        · exact hlast fs.length g hlt (by simp)
        · intro k h hk hh
          have hk' := (List.getElem?_eq_some_iff.1 hh).1
          exact hlast k h hk (by rw [getElem?_append_left hk']; exact hh)

theorem getElem?_dependenciesFrom (fs gs : List Footprint) (k : Nat) :
    (dependenciesFrom (history fs) gs)[k]? =
      gs[k]?.map fun g => (dependsOn g.reads g.writes (history (fs ++ gs.take k))).reverse := by
  induction gs generalizing fs k with
  | nil => simp [dependenciesFrom]
  | cons g gs ih =>
    rw [dependenciesFrom, length_history, ← history_concat]
    cases k with
    | zero => simp
    | succ k => simp [ih]

@[simp] theorem length_dependenciesFrom (earlier : List (Nat × Footprint)) (gs : List Footprint) :
    (dependenciesFrom earlier gs).length = gs.length := by
  induction gs generalizing earlier with
  | nil => rfl
  | cons g gs ih => simp [dependenciesFrom, ih]

end Footprint

/-! ## Dependencies of a list of operations -/

variable {regs : RegisterFile} {ops : List Op} {i : Nat}

namespace Op

theorem slot_mem_reads (h : r ∈ op.reads) : .slot (regs.slotKey r) ∈ (op.footprint regs).reads := by
  simp only [footprint, mem_cons, mem_append, mem_map]
  exact .inr (.inl (.inl ⟨r, h, rfl⟩))

theorem slot_mem_writes (h : r ∈ op.writes) :
    .slot (regs.slotKey r) ∈ (op.footprint regs).writes := by
  simp only [footprint, mem_append, mem_map]
  exact .inl (.inl (.inl ⟨r, h, rfl⟩))

end Op

@[simp] theorem length_dependencies : (dependencies regs ops).length = ops.length := by
  simp [dependencies]

theorem getElem?_dependencies :
    (dependencies regs ops)[j]? = ops[j]?.map fun b =>
      (dependsOn (b.footprint regs).reads (b.footprint regs).writes
        (history ((ops.map (·.footprint regs)).take j))).reverse := by
  have h := getElem?_dependenciesFrom [] (ops.map (·.footprint regs)) j
  rw [getElem?_map, Option.map_map, nil_append] at h
  exact h

def MeetAt (regs : RegisterFile) (ops : List Op) (c : Cell) (i j : Nat) : Prop :=
  ∃ a b, ops[i]? = some a ∧ ops[j]? = some b ∧
    Footprint.MeetsAt c (a.footprint regs) (b.footprint regs).reads (b.footprint regs).writes

def Conflict (regs : RegisterFile) (ops : List Op) (i j : Nat) : Prop :=
  ∃ a b, ops[i]? = some a ∧ ops[j]? = some b ∧
    (a.footprint regs).conflicts (b.footprint regs) = true

theorem conflict_iff_exists_meetAt : Conflict regs ops i j ↔ ∃ c, MeetAt regs ops c i j := by
  constructor
  · rintro ⟨a, b, ha, hb, hab⟩
    obtain ⟨c, hc⟩ := conflicts_iff.1 hab
    exact ⟨c, a, b, ha, hb, hc⟩
  · rintro ⟨c, a, b, ha, hb, hc⟩
    exact ⟨a, b, ha, hb, conflicts_iff.2 ⟨c, hc⟩⟩

theorem Conflict.symm (h : Conflict regs ops i j) : Conflict regs ops j i := by
  obtain ⟨a, b, ha, hb, hab⟩ := h
  exact ⟨b, a, hb, ha, conflicts_symm hab⟩

theorem Conflict.lt_length (h : Conflict regs ops i j) : i < ops.length ∧ j < ops.length := by
  obtain ⟨a, b, ha, hb, -⟩ := h
  exact ⟨(List.getElem?_eq_some_iff.1 ha).1, (List.getElem?_eq_some_iff.1 hb).1⟩

theorem mem_dependencies_iff :
    i ∈ (dependencies regs ops).getD j [] ↔
      i < j ∧ ∃ c, MeetAt regs ops c i j ∧
        ∀ k d, i < k → k < j → ops[k]? = some d → c ∉ (d.footprint regs).writes := by
  rw [getD_eq_getElem?_getD, getElem?_dependencies]
  cases hb : ops[j]? with
  | none => simp [MeetAt, hb]
  | some b =>
    simp only [Option.map_some, Option.getD_some, mem_reverse,
      mem_dependsOn_history, getElem?_take, getElem?_map]
    constructor
    · rintro ⟨f, c, hf, hc, hlast⟩
      split at hf
      · rename_i hlt
        obtain ⟨a, ha, rfl⟩ := Option.map_eq_some_iff.1 hf
        refine ⟨hlt, c, ⟨a, b, ha, hb, hc⟩, ?_⟩
        intro k d hik hkj hd
        exact hlast k (d.footprint regs) hik (by rw [if_pos hkj, hd]; rfl)
      · cases hf
    · rintro ⟨hlt, c, ⟨a, b', ha, hb', hc⟩, hlast⟩
      obtain rfl : b = b' := Option.some.inj (hb.symm.trans hb')
      refine ⟨a.footprint regs, c, by rw [if_pos hlt, ha]; rfl, hc, ?_⟩
      intro k g hik hg
      split at hg
      · rename_i hkj
        obtain ⟨d, hd, rfl⟩ := Option.map_eq_some_iff.1 hg
        exact hlast k d hik hkj hd
      · cases hg

theorem lt_of_mem_dependencies (h : i ∈ (dependencies regs ops).getD j []) : i < j :=
  (mem_dependencies_iff.1 h).1

theorem conflict_of_mem_dependencies (h : i ∈ (dependencies regs ops).getD j []) :
    Conflict regs ops i j := by
  obtain ⟨-, c, hc, -⟩ := mem_dependencies_iff.1 h
  exact conflict_iff_exists_meetAt.2 ⟨c, hc⟩

/-! ## Reachability -/

/-- The first operation is one that the second depends on, perhaps through others. -/
def Reaches (regs : RegisterFile) (ops : List Op) : Nat → Nat → Prop :=
  Relation.TransGen fun i j => i ∈ (dependencies regs ops).getD j []

theorem reaches_of_meetAt (hlt : i < j) (h : MeetAt regs ops c i j) : Reaches regs ops i j := by
  -- the gap between the two shrinks at every writer of the cell between them
  induction hgap : j - i using Nat.strongRecOn generalizing i j with
  | _ gap ih =>
    by_cases hwriter : ∃ k d, i < k ∧ k < j ∧ ops[k]? = some d ∧ c ∈ (d.footprint regs).writes
    · obtain ⟨k, d, hik, hkj, hd, hc⟩ := hwriter
      obtain ⟨a, b, ha, hb, hab⟩ := h
      have hleft : MeetAt regs ops c i k :=
        ⟨a, d, ha, hd, (meetsAt_of_writes hc hab.touched).symm⟩
      have hright : MeetAt regs ops c k j :=
        ⟨d, b, hd, hb, meetsAt_of_writes hc hab.symm.touched⟩
      exact (ih (k - i) (by omega) hik hleft rfl).trans (ih (j - k) (by omega) hkj hright rfl)
    · refine .single (mem_dependencies_iff.2 ⟨hlt, c, h, ?_⟩)
      intro k d hik hkj hd hc
      exact hwriter ⟨k, d, hik, hkj, hd, hc⟩

theorem reaches_of_conflict (hlt : i < j) (h : Conflict regs ops i j) : Reaches regs ops i j := by
  obtain ⟨c, hc⟩ := conflict_iff_exists_meetAt.1 h
  exact reaches_of_meetAt hlt hc

end SecureTape
