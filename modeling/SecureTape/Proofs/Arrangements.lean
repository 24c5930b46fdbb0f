import Mathlib.Data.List.GetD
import SecureTape.Proofs.Merged

/-!
# Arrangements

Optimized code is described by where it comes from: each operation stands for operations at certain
places, what clashes keeps its order, and what is missing could be dropped. Main statements:
1. `Arranges.trans`: code that is arranged twice is arranged.
2. `exists_arranges_optimize`: optimized operations are an arrangement of those before.
-/

namespace SecureTape

open List

variable {ops : List Op} {m op : Op} {b : Batch} {regs : RegisterFile} {full : Bool}
  {i j : Instruction} {x y : Nat}

namespace Op

/-- One operation for all operations of a list. -/
def gather? : List Op → Option Op
  | [] => none
  | op :: rest => some (rest.foldl absorb op)

/-- An instruction without side effects, which can be dropped if nothing needs what it writes. -/
def Droppable (op : Op) : Prop := ∃ i, op = .inst i ∧ i.hasSideEffect = false

theorem batch?_absorb (a b : Op) : (a.absorb b).batch? = a.batch? := by
  cases a <;> cases b <;> rfl

theorem batch?_foldl_absorb (op : Op) (rest : List Op) :
    (rest.foldl absorb op).batch? = op.batch? := by
  induction rest generalizing op with
  | nil => rfl
  | cons o rest ih => rw [foldl_cons, ih, batch?_absorb]

theorem batch?_of_gather? (h : gather? ops = some m) (hb : ∀ op ∈ ops, op.batch? = some b) :
    m.batch? = some b := by
  cases ops with
  | nil => cases h
  | cons op rest =>
    cases h
    rw [batch?_foldl_absorb]
    exact hb op (.head _)

theorem Droppable.of_isDead {live : List Nat} (h : op.isDead regs full live) : op.Droppable := by
  cases op with
  | call c => cases h
  | inst i =>
    simp only [isDead, Bool.and_eq_true, Bool.not_eq_true'] at h
    exact ⟨i, rfl, h.1.1.1⟩

theorem Droppable.of_batch? (h : m.Droppable) (hm : m.batch? = some b) (hop : op.batch? = some b) :
    op.Droppable := by
  obtain ⟨i, rfl, heffect⟩ := h
  cases op with
  | call c =>
    simp only [batch?] at hm hop
    split at hm
    · cases hm.trans hop.symm
    · cases hm
  | inst j =>
    simp only [batch?, Option.ite_none_right_eq_some, Option.some.injEq] at hm hop
    have hkey : i.mergeKey = j.mergeKey := Batch.inst.inj (hm.2.trans hop.2.symm)
    have hopcode : i.opcode = j.opcode := congrArg MergeKey.opcode hkey
    refine ⟨j, rfl, ?_⟩
    rw [← heffect]
    simp only [Instruction.hasSideEffect, Instruction.has, hopcode]

end Op

/-! ## Gathering twice -/

namespace Instruction

theorem HasLayout.headLength_le (h : i.HasLayout) :
    i.opcode.layout.headLength ≤ i.operands.length := by
  obtain ⟨fs, hfs⟩ := Option.isSome_iff_exists.1 h
  cases hl : i.opcode.layout with
  | fixed formats =>
    simp only [hl, OperandLayout.formats?, Option.ite_none_right_eq_some] at hfs
    exact Nat.le_of_eq hfs.1
  | grouped head group =>
    rw [hl] at hfs
    obtain ⟨-, n, hn, -⟩ := OperandLayout.exists_of_formats?_grouped hfs
    rw [OperandLayout.headLength]
    omega

theorem absorb_absorb {k : Instruction} (hj : j.opcode.layout.headLength ≤ j.operands.length) :
    i.absorb (j.absorb k) = (i.absorb j).absorb k := by
  simp only [absorb, drop_append_of_le_length hj, append_assoc]

end Instruction

namespace Op

theorem foldl_absorb_absorb (ks : List Instruction)
    (hj : j.opcode.layout.headLength ≤ j.operands.length) :
    (ks.map inst).foldl absorb (.inst (i.absorb j)) =
      (inst i).absorb ((ks.map inst).foldl absorb (.inst j)) := by
  induction ks generalizing j with
  | nil => rfl
  | cons k ks ih =>
    rw [map_cons, foldl_cons, foldl_cons]
    show (ks.map inst).foldl absorb (.inst ((i.absorb j).absorb k)) =
      (inst i).absorb ((ks.map inst).foldl absorb (.inst (j.absorb k)))
    rw [← Instruction.absorb_absorb hj]
    refine ih ?_
    rw [Instruction.absorb_opcode, Instruction.absorb, length_append]
    omega

theorem exists_foldl_absorb_eq_inst (i : Instruction) (ks : List Instruction) :
    ∃ m, (ks.map inst).foldl absorb (.inst i) = .inst m := by
  induction ks generalizing i with
  | nil => exact ⟨i, rfl⟩
  | cons k ks ih => exact ih (i.absorb k)

theorem gather?_append {is js : List Instruction} (hjs : ∀ j ∈ js, j.HasLayout) {n : Op}
    (hm : gather? (is.map inst) = some m) (hn : gather? (js.map inst) = some n) :
    gather? ((is ++ js).map inst) = some (m.absorb n) := by
  cases is with
  | nil => cases hm
  | cons i is =>
    cases js with
    | nil => cases hn
    | cons j js =>
      cases hm
      cases hn
      obtain ⟨m, hm⟩ := exists_foldl_absorb_eq_inst i is
      rw [cons_append, map_cons, gather?, map_append, foldl_append, hm,
        map_cons, foldl_cons]
      exact congrArg some (foldl_absorb_absorb js (hjs j (.head _)).headLength_le)

theorem gather?_flatMap {β : Type} {ks : List β} {part : β → List Instruction} (whole : β → Op)
    (hlayout : ∀ k ∈ ks, ∀ i ∈ part k, i.HasLayout)
    (h : ∀ k ∈ ks, gather? ((part k).map inst) = some (whole k)) :
    gather? ((ks.flatMap part).map inst) = gather? (ks.map whole) := by
  have hfrom (ks : List β) (hlayout : ∀ k ∈ ks, ∀ i ∈ part k, i.HasLayout)
      (h : ∀ k ∈ ks, gather? ((part k).map inst) = some (whole k)) (is : List Instruction) (m : Op)
      (hm : gather? (is.map inst) = some m) :
      gather? ((is ++ ks.flatMap part).map inst) = some ((ks.map whole).foldl absorb m) := by
    induction ks generalizing is m with
    | nil => simpa using hm
    | cons k ks ih =>
      rw [flatMap_cons, ← append_assoc, map_cons, foldl_cons]
      exact ih (fun l hl => hlayout l (.tail _ hl))
        (fun l hl => h l (.tail _ hl)) _ _
        (gather?_append (hlayout k (.head _)) hm (h k (.head _)))
  cases ks with
  | nil => rfl
  | cons k ks =>
    rw [flatMap_cons, map_cons]
    exact hfrom ks (fun l hl => hlayout l (.tail _ hl))
      (fun l hl => h l (.tail _ hl)) _ _ (h k (.head _))

end Op

theorem gathers_of_gather? (hlayout : ∀ op ∈ ops, op.HasLayout) (ht : SameTemplates ops)
    (halike : (∃ op, ops = [op]) ∨ ∃ b, ∀ op ∈ ops, op.batch? = some b)
    (h : Op.gather? ops = some m) : Gathers ops m := by
  rcases halike with ⟨op, rfl⟩ | ⟨b, hb⟩
  · cases h
    exact .single (hlayout op (.head _))
  · cases ops with
    | nil => cases h
    | cons op rest =>
      cases h
      refine (Gathers.single (hlayout op (.head _))).foldl_absorb ?_
        (hb op (.head _)) ?_ ht
      · exact fun o ho => hlayout o (.tail _ ho)
      · exact fun o ho => hb o (.tail _ ho)

variable {α : Type}

/-- The operations `out` stand for operations at places, unit by unit. A place belongs to one unit
at most, and without one its operation could be dropped. Operations that clash are in different
units, in the order `before`. -/
structure Arranges (opAt : α → Option Op) (before clash : α → α → Prop) (units : List (List α))
    (out : List Op) : Prop where
  nodup : units.flatten.Nodup
  found : ∀ a ∈ units.flatten, (opAt a).isSome = true
  gathered : List.Forall₂ (fun u m => Op.gather? (u.filterMap opAt) = some m) units out
  alike : ∀ u ∈ units, (∃ a, u = [a]) ∨ ∃ b, ∀ a ∈ u, (opAt a).bind Op.batch? = some b
  dropped : ∀ {a op}, opAt a = some op → a ∉ units.flatten → op.Droppable
  independent : ∀ u ∈ units, u.Pairwise fun a b => ¬clash a b
  ordered : units.Pairwise fun u v => ∀ a ∈ u, ∀ b ∈ v, clash a b → before a b

namespace Arranges

variable {opAt : α → Option Op} {before clash : α → α → Prop} {units : List (List α)}
  {out out' : List Op} {regs : RegisterFile} {us : List (List Nat)}

theorem batch?_of_mem (h : Arranges opAt before clash units out) {u : List α}
    (hu : units[x]? = some u) (hm : out[x]? = some m) {a : α} (ha : a ∈ u) :
    opAt a = some m ∨ ∃ op b, opAt a = some op ∧ op.batch? = some b ∧ m.batch? = some b := by
  have hmem := mem_of_getElem? hu
  have hgather : Op.gather? (u.filterMap opAt) = some m := by
    rcases getElem?_of_forall₂ h.gathered x with ⟨hnone, -⟩ | ⟨v, o, hv, ho, hgather⟩
    · cases hnone.symm.trans hu
    · cases hv.symm.trans hu
      cases ho.symm.trans hm
      exact hgather
  obtain ⟨op, hop⟩ := Option.isSome_iff_exists.1 (h.found a (mem_flatten.2 ⟨u, hmem, ha⟩))
  rcases h.alike u hmem with ⟨c, rfl⟩ | ⟨b, hb⟩
  · obtain rfl : a = c := mem_singleton.1 ha
    rw [filterMap_cons, hop] at hgather
    cases hgather
    exact .inl hop
  · refine .inr ⟨op, b, hop, ?_, Op.batch?_of_gather? hgather ?_⟩
    · have hba := hb a ha
      rwa [hop] at hba
    · intro o ho
      obtain ⟨c, hc, hco⟩ := mem_filterMap.1 ho
      have hbc := hb c hc
      rwa [hco] at hbc

theorem disjoint_getD (h : units.flatten.Nodup) (hxy : x ≠ y) :
    List.Disjoint (units.getD x []) (units.getD y []) := by
  have hpairwise := (nodup_flatten.1 h).2
  have hlt {x y : Nat} (hlt : x < y) : List.Disjoint (units.getD x []) (units.getD y []) := by
    by_cases hy : y < units.length
    · have hx := Nat.lt_trans hlt hy
      rw [getD_eq_getElem _ _ hx, getD_eq_getElem _ _ hy]
      exact pairwise_iff_getElem.1 hpairwise x y hx hy hlt
    · rw [getD_eq_default units [] (Nat.le_of_not_lt hy)]
      exact disjoint_nil_right _
  rcases Nat.lt_or_gt_of_ne hxy with h' | h'
  · exact hlt h'
  · exact fun a hx hy => hlt h' hy hx

theorem of_imp (h : Arranges opAt before clash units out) {clash' : α → α → Prop}
    (himp : ∀ {a b}, clash' a b → clash a b) : Arranges opAt before clash' units out := by
  refine ⟨h.nodup, h.found, h.gathered, h.alike, h.dropped, ?_, ?_⟩
  · exact fun u hu => (h.independent u hu).imp fun hnot hab => hnot (himp hab)
  · exact h.ordered.imp fun hord a ha b hb hab => hord a ha b hb (himp hab)

theorem trans (h : Arranges opAt before clash units out)
    (h' : Arranges (out[·]?) (· < ·) (Conflict regs out) us out')
    (hclash : ∀ {x y : Nat} {u v : List α} {a b : α}, units[x]? = some u → units[y]? = some v →
      a ∈ u → b ∈ v → x ≠ y → clash a b → Conflict regs out x y)
    (hgather : ∀ ks ∈ us, Op.gather? ((ks.flatMap (units.getD · [])).filterMap opAt) =
      Op.gather? (ks.filterMap (out[·]?))) :
    Arranges opAt before clash (us.map (·.flatMap (units.getD · []))) out' := by
  have hlen := h.gathered.length_eq
  have hget {ks : List Nat} {x : Nat} (hks : ks ∈ us) (hx : x ∈ ks) :
      units[x]? = some (units.getD x []) ∧ ∃ m, out[x]? = some m := by
    have hfound := h'.found x (mem_flatten.mpr ⟨ks, hks, hx⟩)
    obtain ⟨m, hm⟩ := Option.isSome_iff_exists.mp hfound
    have hlt := (List.getElem?_eq_some_iff.mp hm).1
    rw [← hlen] at hlt
    exact ⟨by rw [getD_eq_getElem _ _ hlt, getElem?_eq_getElem hlt], m, hm⟩
  have hflatten : (us.map (·.flatMap (units.getD · []))).flatten =
      us.flatten.flatMap (units.getD · []) := by
    rw [← flatMap_def, flatten_eq_flatMap, flatMap_assoc]
    rfl
  have hmem {a : α} : a ∈ us.flatten.flatMap (units.getD · []) ↔
      ∃ x ∈ us.flatten, a ∈ units.getD x [] := mem_flatMap
  have hin {x : Nat} {a : α} (ha : a ∈ units.getD x []) : ∃ u, units[x]? = some u ∧ a ∈ u := by
    rw [getD_eq_getElem?_getD] at ha
    cases hx : units[x]? with
    | none =>
      rw [hx] at ha
      cases ha
    | some u =>
      rw [hx] at ha
      exact ⟨u, rfl, ha⟩
  refine ⟨?_, ?_, ?_, ?_, ?_, ?_, ?_⟩
  · rw [hflatten, nodup_flatMap]
    refine ⟨?_, h'.nodup.imp fun hne => disjoint_getD h.nodup hne⟩
    intro x _
    by_cases hx : x < units.length
    · rw [getD_eq_getElem _ _ hx]
      exact (nodup_flatten.mp h.nodup).1 _ (getElem_mem hx)
    · rw [getD_eq_default _ _ (Nat.le_of_not_lt hx)]
      exact nodup_nil
  · rw [hflatten]
    intro a ha
    obtain ⟨x, -, hx⟩ := hmem.mp ha
    obtain ⟨u, hu, hau⟩ := hin hx
    exact h.found a (mem_flatten.mpr ⟨u, mem_of_getElem? hu, hau⟩)
  · rw [forall₂_map_left_iff]
    refine (forall₂_and_left _ _).mpr ⟨fun _ => id, h'.gathered⟩ |>.imp ?_
    rintro ks m ⟨hks, hm⟩
    rw [hgather ks hks, hm]
  · intro w hw
    obtain ⟨ks, hks, rfl⟩ := mem_map.mp hw
    rcases h'.alike ks hks with ⟨x, rfl⟩ | ⟨b, hb⟩
    · obtain ⟨hx, -⟩ := hget hks (mem_singleton_self x)
      rw [flatMap_singleton]
      exact h.alike _ (mem_of_getElem? hx)
    · refine .inr ⟨b, ?_⟩
      intro a ha
      obtain ⟨x, hx, hax⟩ := mem_flatMap.mp ha
      obtain ⟨hux, m, hm⟩ := hget hks hx
      have hbx := hb x hx
      rw [hm] at hbx
      rcases h.batch?_of_mem hux hm hax with hop | ⟨op, b', hop, hopb, hmb⟩
      · rw [hop]
        exact hbx
      · rw [hop]
        exact hopb.trans (hmb.symm.trans hbx)
  · rw [hflatten]
    intro a op hop ha
    by_cases hau : a ∈ units.flatten
    · obtain ⟨u, hu, hau⟩ := mem_flatten.mp hau
      obtain ⟨x, hx, rfl⟩ := mem_iff_getElem.mp hu
      have hux := getElem?_eq_getElem hx
      have hm := getElem?_eq_getElem (hlen ▸ hx : x < out.length)
      have hdropped := h'.dropped hm fun hxu => ha (hmem.mpr ⟨x, hxu, by
        rwa [getD_eq_getElem _ _ hx]⟩)
      rcases h.batch?_of_mem hux hm hau with heq | ⟨o, b, ho, hob, hmb⟩
      · cases heq.symm.trans hop
        exact hdropped
      · cases ho.symm.trans hop
        exact hdropped.of_batch? hmb hob
    · exact h.dropped hop hau
  · intro w hw
    obtain ⟨ks, hks, rfl⟩ := mem_map.mp hw
    rw [pairwise_flatMap]
    refine ⟨?_, ?_⟩
    · intro x hx
      exact h.independent _ (mem_of_getElem? (hget hks hx).1)
    · have hne := (nodup_flatten.mp h'.nodup).1 ks hks
      refine (List.Pairwise.and_mem.mp (hne.and (h'.independent ks hks))).imp ?_
      rintro x y ⟨hx, hy, hxy, hnot⟩ a ha b hb hab
      exact hnot (hclash (hget hks hx).1 (hget hks hy).1 ha hb hxy hab)
  · rw [pairwise_map]
    have hdisjoint := (nodup_flatten.mp h'.nodup).2
    refine (List.Pairwise.and_mem.mp (hdisjoint.and h'.ordered)).imp ?_
    rintro ks ls ⟨hks, hls, hne, hord⟩ a ha b hb hab
    obtain ⟨x, hx, hax⟩ := mem_flatMap.mp ha
    obtain ⟨y, hy, hby⟩ := mem_flatMap.mp hb
    have hxy : x ≠ y := by
      rintro rfl
      exact hne hx hy
    obtain ⟨hux, -⟩ := hget hks hx
    obtain ⟨huy, -⟩ := hget hls hy
    have hlt := hord x hx y hy (hclash hux huy hax hby hxy hab)
    obtain ⟨hx', hgx⟩ := List.getElem?_eq_some_iff.mp hux
    obtain ⟨hy', hgy⟩ := List.getElem?_eq_some_iff.mp huy
    exact pairwise_iff_getElem.mp h.ordered x y hx' hy' hlt a (hgx ▸ hax) b (hgy ▸ hby) hab

end Arranges

/-! ## Optimized operations -/

/-- Operations arranged by their numbers. -/
abbrev ArrangesOps (regs : RegisterFile) (ops : List Op) : List (List Nat) → List Op → Prop :=
  Arranges (ops[·]?) (· < ·) (Conflict regs ops)

theorem arranges_of_sorted {ks : List Nat} {kept : List Op} (hsorted : ks.Pairwise (· < ·))
    (hkept : Forall₂ (fun k op => ops[k]? = some op) ks kept)
    (hdropped : ∀ {k op}, ops[k]? = some op → k ∉ ks → op.Droppable) :
    ArrangesOps regs ops (ks.map ([·])) kept := by
  have hflatten : (ks.map ([·])).flatten = ks := by
    rw [← flatMap_def]
    exact flatMap_singleton' ks
  refine ⟨?_, ?_, ?_, ?_, ?_, ?_, ?_⟩
  · rw [hflatten]
    exact hsorted.imp Nat.ne_of_lt
  · rw [hflatten]
    intro k hk
    obtain ⟨op, -, hop⟩ := exists_right_of_forall₂ hkept hk
    rw [hop]
    rfl
  · rw [forall₂_map_left_iff]
    refine hkept.imp ?_
    intro k op hop
    rw [filterMap_cons, hop]
    rfl
  · intro u hu
    obtain ⟨k, -, rfl⟩ := mem_map.1 hu
    exact .inl ⟨k, rfl⟩
  · rw [hflatten]
    exact hdropped
  · intro u hu
    obtain ⟨k, -, rfl⟩ := mem_map.1 hu
    exact pairwise_singleton _ _
  · rw [pairwise_map]
    refine hsorted.imp ?_
    intro k l hlt a ha b hb _
    rw [mem_singleton.1 ha, mem_singleton.1 hb]
    exact hlt

theorem forall₂_range (ops : List Op) :
    Forall₂ (fun k op => ops[k]? = some op) (range ops.length) ops := by
  rw [forall₂_iff_get]
  refine ⟨length_range, ?_⟩
  intro k hk hk'
  simp

theorem arranges_self (regs : RegisterFile) (ops : List Op) :
    ArrangesOps regs ops ((range ops.length).map ([·])) ops := by
  refine arranges_of_sorted pairwise_lt_range (forall₂_range ops) ?_
  intro k op hop hk
  exact absurd (List.mem_range.2 (List.getElem?_eq_some_iff.1 hop).1) hk

/-- The operation with the number is not dropped as dead. -/
def Survives (regs : RegisterFile) (full : Bool) (liveOut : List Nat) (ops : List Op)
    (k : Nat) : Prop :=
  ∃ op, ops[k]? = some op ∧
    op.isDead regs full (dropDead regs full liveOut (ops.drop (k + 1))).2.1 = false

theorem exists_kept (regs : RegisterFile) (full : Bool) (liveOut : List Nat) (ops : List Op) :
    ∃ ks : List Nat, ks.Pairwise (· < ·) ∧
      Forall₂ (fun k op => ops[k]? = some op) ks (dropDead regs full liveOut ops).1 ∧
      ∀ k, k ∈ ks ↔ Survives regs full liveOut ops k := by
  induction ops with
  | nil => exact ⟨[], .nil, .nil, by simp [Survives]⟩
  | cons op ops ih =>
    obtain ⟨ks, hsorted, hkept, hsurvives⟩ := ih
    have hsorted' : (ks.map (· + 1)).Pairwise (· < ·) := by
      rw [pairwise_map]
      exact hsorted.imp Nat.succ_lt_succ
    have hkept' : Forall₂ (fun k o => (op :: ops)[k]? = some o) (ks.map (· + 1))
        (dropDead regs full liveOut ops).1 := by
      rw [forall₂_map_left_iff]
      exact hkept
    have hrest (k : Nat) : k ∈ ks ↔ Survives regs full liveOut (op :: ops) (k + 1) := hsurvives k
    have hfirst : Survives regs full liveOut (op :: ops) 0 ↔
        op.isDead regs full (dropDead regs full liveOut ops).2.1 = false := by
      simp [Survives]
    rw [dropDead_cons]
    split
    · rename_i hdead
      refine ⟨ks.map (· + 1), hsorted', hkept', ?_⟩
      intro k
      cases k with
      | zero => simp [hfirst, hdead]
      | succ k => simp [hrest]
    · rename_i hdead
      refine ⟨0 :: ks.map (· + 1), ?_, .cons rfl hkept', ?_⟩
      · refine pairwise_cons.2 ⟨?_, hsorted'⟩
        intro k hk
        obtain ⟨l, -, rfl⟩ := mem_map.1 hk
        exact Nat.succ_pos l
      · intro k
        cases k with
        | zero => simp [hfirst, hdead]
        | succ k => simp [hrest]

theorem droppable_of_not_survives {liveOut : List Nat} {k : Nat} (hop : ops[k]? = some op)
    (h : ¬ Survives regs full liveOut ops k) : op.Droppable :=
  .of_isDead (Bool.of_not_eq_false fun hdead => h ⟨op, hop, hdead⟩)

theorem arranges_mergeRounds (regs : RegisterFile) (ops : List Op) :
    ArrangesOps regs ops ((emitted regs ops).map (·.members)) (mergeRounds regs ops).1 := by
  have h := emission_emitted regs ops
  have hperm : ((emitted regs ops).map (·.members)).flatten.Perm (range ops.length) := by
    rw [← flatMap_def]
    exact h.perm
  have hget {k : Nat} (hk : k ∈ ((emitted regs ops).map (·.members)).flatten) :
      ∃ op, ops[k]? = some op :=
    ⟨_, getElem?_eq_getElem (mem_range.1 (hperm.mem_iff.1 hk))⟩
  refine ⟨hperm.nodup_iff.2 nodup_range, ?_, ?_, ?_, ?_, ?_, ?_⟩
  · intro k hk
    obtain ⟨op, hop⟩ := hget hk
    rw [hop]
    rfl
  · have hunit (u : MergeUnit) (hu : u ∈ emitted regs ops) :
        ∃ m, u.merged? ops.toArray = some m ∧ Op.gather? (opsAt ops u.members) = some m := by
      obtain ⟨k, ks, hmembers⟩ := exists_cons_of_ne_nil (h.nonempty u hu)
      obtain ⟨op, hop⟩ := hget (mem_flatten.2 ⟨_, mem_map_of_mem hu,
        (by rw [hmembers]; exact (.head _) : k ∈ u.members)⟩)
      have hfound : u.members.filterMap (ops.toArray[·]?) = op :: opsAt ops ks := by
        simp [hmembers, opsAt, hop]
      refine ⟨_, by rw [MergeUnit.merged?, hfound], ?_⟩
      have hat : opsAt ops u.members = op :: opsAt ops ks := by
        rw [hmembers, opsAt, filterMap_cons, hop, opsAt]
      rw [hat]
      rfl
    rw [mergeRounds_eq_emitted, forall₂_map_left_iff]
    clear hget hperm h
    generalize emitted regs ops = us at hunit
    induction us with
    | nil => exact .nil
    | cons u us ih =>
      obtain ⟨m, hm, hgather⟩ := hunit u (.head _)
      rw [filterMap_cons, hm]
      exact .cons hgather (ih fun v hv => hunit v (.tail _ hv))
  · intro u hu
    obtain ⟨v, hv, rfl⟩ := mem_map.1 hu
    exact h.alike v hv
  · intro k op hop hk
    exact absurd (hperm.mem_iff.2 (List.mem_range.2 (List.getElem?_eq_some_iff.1 hop).1)) hk
  · intro u hu
    obtain ⟨v, hv, rfl⟩ := mem_map.1 hu
    exact h.independent v hv
  · rw [pairwise_map]
    exact h.ordered

theorem exists_arranges_mergeOps (regs : RegisterFile) (share : Bool) (ops : List Op) :
    ∃ us, ArrangesOps regs ops us (mergeOps regs share ops).1 ∧
      us.flatten.Perm (range ops.length) := by
  cases share with
  | false => exact ⟨_, arranges_self regs ops, by rw [← flatMap_def, flatMap_singleton']⟩
  | true =>
    refine ⟨_, arranges_mergeRounds regs ops, ?_⟩
    rw [← flatMap_def]
    exact (emission_emitted regs ops).perm

/-- Optimized operations are an arrangement of those before, of which all survive that are not
dead. -/
theorem exists_arranges_optimize (regs : RegisterFile) (options : MergeOptions) (liveOut : List Nat)
    (ops : List Op) :
    ∃ us, ArrangesOps regs ops us (optimize regs options liveOut ops).1 ∧
      ∀ k, k ∈ us.flatten ↔ Survives regs options.fullDeadCode liveOut ops k := by
  obtain ⟨ks, hsorted, hkept, hsurvives⟩ := exists_kept regs options.fullDeadCode liveOut ops
  set kept := (dropDead regs options.fullDeadCode liveOut ops).1 with hkeptDef
  have hfirst : ArrangesOps regs ops (ks.map ([·])) kept := arranges_of_sorted hsorted hkept
    fun hop hk => droppable_of_not_survives hop fun h => hk ((hsurvives _).2 h)
  obtain ⟨us, hsecond, hall⟩ := exists_arranges_mergeOps regs options.mergeRounds kept
  have hget {x : Nat} {u : List Nat} {k : Nat} (hu : (ks.map ([·]))[x]? = some u) (hk : k ∈ u) :
      ∃ op, kept[x]? = some op ∧ ops[k]? = some op := by
    rcases getElem?_of_forall₂ hkept x with ⟨hnone, -⟩ | ⟨l, op, hl, hop, hat⟩
    · rw [getElem?_map, hnone] at hu
      cases hu
    · rw [getElem?_map, hl] at hu
      cases hu
      rw [mem_singleton.mp hk]
      exact ⟨op, hop, hat⟩
  refine ⟨_, hfirst.trans hsecond ?_ ?_, ?_⟩
  · rintro x y u v a b hu hv ha hb - ⟨o, o', ho, ho', hconflict⟩
    obtain ⟨op, hop, hat⟩ := hget hu ha
    obtain ⟨op', hop', hat'⟩ := hget hv hb
    cases hat.symm.trans ho
    cases hat'.symm.trans ho'
    exact ⟨_, _, hop, hop', hconflict⟩
  · intro xs hxs
    -- the units of the first pass are single, so that nothing is gathered twice
    congr 1
    rw [filterMap_flatMap, filterMap_eq_flatMap_toList]
    refine flatMap_congr ?_
    intro x hx
    obtain ⟨m, hm⟩ := Option.isSome_iff_exists.mp
      (hsecond.found x (mem_flatten.mpr ⟨xs, hxs, hx⟩))
    rcases getElem?_of_forall₂ hkept x with ⟨-, hnone⟩ | ⟨l, op, hl, hop, hat⟩
    · cases hnone.symm.trans hm
    · simp [hl, hop, hat]
  · intro k
    rw [← hsurvives, ← flatMap_def, ← flatMap_assoc, flatMap_id', mem_flatMap]
    have hlength : ks.length = kept.length := hkept.length_eq
    constructor
    · rintro ⟨x, -, hx⟩
      cases hk : ks[x]? with
      | none => simp [hk] at hx
      | some l =>
        simp only [getD_eq_getElem?_getD, getElem?_map, hk] at hx
        exact mem_singleton.1 hx ▸ mem_of_getElem? hk
    · intro hk
      obtain ⟨x, hx⟩ := mem_iff_getElem?.1 hk
      refine ⟨x, hall.mem_iff.2 (mem_range.2 ?_), by simp [hx]⟩
      exact hlength ▸ (List.getElem?_eq_some_iff.1 hx).1

end SecureTape
