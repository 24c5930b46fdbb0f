import Mathlib.Data.List.Pairwise
import SecureTape.Proofs.Exposure
import SecureTape.Proofs.Typing

/-!
# Merged operations

What stands for a unit accesses exactly what the members of the unit access. Main statements:
1. `exists_gathers_of_mem_optimize`: every optimized operation stands for operations of the block.
2. `exposes_of_exposes_optimize`: what optimized operations expose was exposed before.
-/

namespace SecureTape

open List Instruction

variable {m op : Op} {b : Batch} {share : Bool} {liveOut : List Nat} {ops : List Op}

/-- The operation `m` stands for the operations `ops`. -/
structure Gathers (ops : List Op) (m : Op) : Prop where
  layout : m.HasLayout
  reads : ∀ {r}, r ∈ m.reads ↔ ∃ op ∈ ops, r ∈ op.reads
  writes : ∀ {r}, r ∈ m.writes ↔ ∃ op ∈ ops, r ∈ op.writes
  registers : ∀ {r}, r ∈ m.registers → ∃ op ∈ ops, r ∈ op.registers
  inst : ∀ {op}, op ∈ ops → op.inst?.isSome = m.inst?.isSome
  typed : ∀ {regs}, (∀ i, .inst i ∈ ops → i.Typed regs) → ∀ i, m = .inst i → i.Typed regs
  template : ∀ {c}, m = .call c → ∃ d, .call d ∈ ops ∧ d.template = c.template
  site : ∀ {c site}, m = .call c → site ∈ c.sites →
    ∃ d, .call d ∈ ops ∧ d.template = c.template ∧ site ∈ d.sites

theorem exists_mem_concat {α : Type} {P : α → Prop} {as : List α} {a : α} :
    (∃ x ∈ as ++ [a], P x) ↔ (∃ x ∈ as, P x) ∨ P a := by
  simp only [mem_append, mem_singleton, or_and_right, exists_or, exists_eq_left]

namespace Gathers

theorem single (h : op.HasLayout) : Gathers [op] op where
  layout := h
  reads := by simp
  writes := by simp
  registers := by simp
  inst := by simp
  typed h i hi := h i (by simp [hi])
  template {c} hc := ⟨c, by simp [hc], rfl⟩
  site {c site} hc hs := ⟨c, by simp [hc], rfl, hs⟩

theorem absorb_inst {i j : Instruction} (h : Gathers ops (.inst i)) (hj : j.HasLayout)
    (hc : i.communicates) (hk : i.mergeKey = j.mergeKey) :
    Gathers (ops ++ [.inst j]) (.inst (i.absorb j)) := by
  have hi : i.HasLayout := h.layout
  have hacc {r : Reg} {a : Access} := mem_accesses_absorb (r := r) (a := a) hi hj hc hk
  have hpick {pick : Access → Bool} {r : Reg} :
      (∃ a, (r, a) ∈ (i.absorb j).accesses ∧ pick a = true) ↔
        (∃ a, (r, a) ∈ i.accesses ∧ pick a = true) ∨ ∃ a, (r, a) ∈ j.accesses ∧ pick a = true := by
    simp only [hacc, or_and_right, exists_or]
  refine ⟨hi.absorb hj hc hk, ?_, ?_, ?_, ?_, ?_, nofun, nofun⟩
  · intro r
    have hold : r ∈ i.reads ↔ _ := h.reads (r := r)
    rw [exists_mem_concat, ← hold, Op.reads, Op.reads, mem_reads_iff, hpick,
      ← mem_reads_iff, ← mem_reads_iff]
  · intro r
    have hold : r ∈ i.writes ↔ _ := h.writes (r := r)
    rw [exists_mem_concat, ← hold, Op.writes, Op.writes, mem_writes_iff, hpick,
      ← mem_writes_iff, ← mem_writes_iff]
  · intro r hr
    obtain ⟨⟨q, a⟩, hq, rfl⟩ := mem_map.1 hr
    rcases hacc.1 hq with hq | hq
    · obtain ⟨op, hop, hr⟩ := h.registers (mem_map_of_mem hq)
      exact ⟨op, by simp [hop], hr⟩
    · exact ⟨.inst j, by simp, mem_map_of_mem hq⟩
  · intro op hop
    rcases mem_append.1 hop with hop | hop
    · exact h.inst hop
    · rw [mem_singleton.1 hop]
      rfl
  · rintro regs htyped _ ⟨⟩
    refine (h.typed (fun k hk => htyped k (by simp [hk])) i rfl).absorb (htyped j (by simp)) hk

theorem absorb_call {c d : MacroCall} (h : Gathers ops (.call c)) (ht : c.template = d.template) :
    Gathers (ops ++ [.call d]) (.call (c.absorb d)) := by
  have hargs {pick : Access → Bool} {r : Reg} :
      r ∈ (c.absorb d).arguments pick ↔ r ∈ c.arguments pick ∨ r ∈ d.arguments pick := by
    simp only [MacroCall.arguments, MacroCall.absorb, flatMap_append, mem_append, ht]
  refine ⟨trivial, ?_, ?_, ?_, ?_, nofun, ?_, ?_⟩
  · intro r
    have hold : r ∈ c.reads ↔ _ := h.reads (r := r)
    rw [exists_mem_concat, ← hold]
    exact hargs
  · intro r
    have hold : r ∈ c.writes ↔ _ := h.writes (r := r)
    rw [exists_mem_concat, ← hold]
    exact hargs
  · intro r hr
    simp only [Op.registers, MacroCall.absorb, flatMap_append, mem_append] at hr
    rcases hr with hr | hr
    · obtain ⟨op, hop, hr⟩ := h.registers hr
      exact ⟨op, by simp [hop], hr⟩
    · exact ⟨.call d, by simp, hr⟩
  · intro op hop
    rcases mem_append.1 hop with hop | hop
    · exact h.inst hop
    · rw [mem_singleton.1 hop]
      rfl
  · intro e he
    cases he
    exact ⟨d, by simp, ht.symm⟩
  · intro e site he hsite
    cases he
    rcases mem_append.1 hsite with hsite | hsite
    · obtain ⟨e, he, hte, hs⟩ := h.site rfl hsite
      exact ⟨e, by simp [he], hte, hs⟩
    · exact ⟨d, by simp, ht.symm, hsite⟩

theorem absorb {o : Op} (h : Gathers ops m) (ho : o.HasLayout) (hm : m.batch? = some b)
    (hb : o.batch? = some b) (ht : SameTemplates (ops ++ [o])) :
    Gathers (ops ++ [o]) (m.absorb o) ∧ (m.absorb o).batch? = some b := by
  cases m with
  | inst i =>
    simp only [Op.batch?] at hm
    split at hm
    · rename_i hc
      cases o with
      | inst j =>
        simp only [Op.batch?] at hb
        split at hb
        · have hk : i.mergeKey = j.mergeKey :=
            Batch.inst.inj ((Option.some.inj hm).trans (Option.some.inj hb).symm)
          refine ⟨h.absorb_inst ho hc hk, ?_⟩
          rw [← hm]
          exact if_pos hc
        · cases hb
      | call d => cases hm.trans hb.symm
    · cases hm
  | call c =>
    cases o with
    | inst j =>
      simp only [Op.batch?] at hm hb
      split at hb
      · cases hm.trans hb.symm
      · cases hb
    | call d =>
      have hk : c.key = d.key := Batch.call.inj (Option.some.inj (hm.trans hb.symm))
      obtain ⟨e, he, hte⟩ := h.template rfl
      have hsame : c.template = d.template := by
        rw [← hte]
        refine ht e d (by simp [he]) (by simp) ?_
        rw [MacroCall.key, hte]
        exact hk
      exact ⟨h.absorb_call hsame, hm⟩

theorem foldl_absorb {done rest : List Op} (h : Gathers done m) (hlayout : ∀ o ∈ rest, o.HasLayout)
    (hm : m.batch? = some b) (hb : ∀ o ∈ rest, o.batch? = some b)
    (ht : SameTemplates (done ++ rest)) : Gathers (done ++ rest) (rest.foldl Op.absorb m) := by
  induction rest generalizing done m with
  | nil => simpa using h
  | cons o rest ih =>
    have happend : done ++ o :: rest = (done ++ [o]) ++ rest := by simp
    rw [happend] at ht ⊢
    have ht' : SameTemplates (done ++ [o]) := fun c d hc hd =>
      ht c d (mem_append_left _ hc) (mem_append_left _ hd)
    obtain ⟨h', hm'⟩ := h.absorb (hlayout o (by simp)) hm (hb o (by simp)) ht'
    exact ih h' (fun o ho => hlayout o (by simp [ho])) hm' (fun o ho => hb o (by simp [ho])) ht

end Gathers

/-! ## Units -/

variable {regs : RegisterFile} {key : Nat}

def opsAt (ops : List Op) (ks : List Nat) : List Op := ks.filterMap (ops[·]?)

theorem mem_opsAt {ks : List Nat} : op ∈ opsAt ops ks ↔ ∃ k ∈ ks, ops[k]? = some op := by
  rw [opsAt, mem_filterMap]

theorem conflict_of_writes_of_reads {j k : Nat} {a b : Op} (hj : ops[j]? = some a)
    (hk : ops[k]? = some b) (hw : a.Writes regs.slotKey key) (hr : b.Reads regs.slotKey key) :
    Conflict regs ops j k := by
  obtain ⟨r, hr', rfl⟩ := hw
  obtain ⟨q, hq, hkey⟩ := hr
  refine ⟨a, b, hj, hk, Footprint.conflicts_iff.2 ⟨.slot (regs.slotKey r), .inl ⟨?_, .inl ?_⟩⟩⟩
  · exact Op.slot_mem_writes hr'
  · rw [← hkey]
    exact Op.slot_mem_reads hq

theorem mem_of_mem_dropDead {full : Bool} (h : op ∈ (dropDead regs full liveOut ops).1) :
    op ∈ ops :=
  (perm_dropDead regs full liveOut ops).1.mem_iff.1 (mem_append_left _ h)

variable {options : MergeOptions} (hlayout : ∀ op ∈ ops, op.HasLayout) (ht : SameTemplates ops)

include hlayout ht

theorem gathers_merged? {us : List MergeUnit} (h : Emission regs ops us) {u : MergeUnit} (hu : u ∈ us) :
    ∃ m, u.merged? ops.toArray = some m ∧ Gathers (opsAt ops u.members) m := by
  have hfound : u.members.filterMap (ops.toArray[·]?) = opsAt ops u.members := by simp [opsAt]
  have hmem {op : Op} (hop : op ∈ opsAt ops u.members) : op ∈ ops := by
    obtain ⟨k, -, hk⟩ := mem_opsAt.1 hop
    exact mem_of_getElem? hk
  have hlt {k : Nat} (hk : k ∈ u.members) : k < ops.length := by
    simpa using h.perm.mem_iff.1 (mem_flatMap.2 ⟨u, hu, hk⟩)
  obtain ⟨k, ks, hmembers⟩ := exists_cons_of_ne_nil (h.nonempty u hu)
  obtain ⟨first, hk⟩ : ∃ first, ops[k]? = some first :=
    ⟨_, getElem?_eq_getElem (hlt (by simp [hmembers]))⟩
  have hcons : opsAt ops u.members = first :: opsAt ops ks := by
    rw [hmembers, opsAt, filterMap_cons, hk, opsAt]
  rw [MergeUnit.merged?, hfound, hcons]
  refine ⟨(opsAt ops ks).foldl Op.absorb first, rfl, ?_⟩
  have hfirst : Gathers [first] first := .single (hlayout _ (mem_of_getElem? hk))
  rcases h.alike u hu with ⟨l, hl⟩ | ⟨b, hb⟩
  · -- a single member stands for itself
    obtain rfl : ks = [] := by
      rw [hmembers] at hl
      exact (List.cons.inj hl).2
    exact hfirst
  · have hbatch {l : Nat} {op : Op} (hl : l ∈ u.members) (hop : ops[l]? = some op) :
        op.batch? = some b := by
      have hbl := hb l hl
      rwa [hop] at hbl
    show Gathers ([first] ++ opsAt ops ks) _
    refine hfirst.foldl_absorb ?_ (hbatch (by simp [hmembers]) hk) ?_ ?_
    · intro o ho
      exact hlayout o (hmem (by simp [hcons, ho]))
    · intro o ho
      obtain ⟨l, hl, hlo⟩ := mem_opsAt.1 ho
      exact hbatch (by simp [hmembers, hl]) hlo
    · intro c d hc hd
      rw [singleton_append, ← hcons] at hc hd
      exact ht c d (hmem hc) (hmem hd)

variable (regs) in
theorem exists_mergeRounds_eq_map :
    ∃ f : MergeUnit → Op, (mergeRounds regs ops).1 = (emitted regs ops).map f ∧
      ∀ u ∈ emitted regs ops, Gathers (opsAt ops u.members) (f u) := by
  have hspec (u : MergeUnit) (hu : u ∈ emitted regs ops) :=
    gathers_merged? hlayout ht (emission_emitted regs ops) hu
  refine ⟨fun u => (u.merged? ops.toArray).getD default, ?_, ?_⟩
  · rw [mergeRounds_eq_emitted]
    refine filterMap_eq_map_iff_forall_eq_some.2 fun u hu => ?_
    obtain ⟨m, hm, -⟩ := hspec u hu
    rw [hm]
    rfl
  · intro u hu
    obtain ⟨m, hm, hg⟩ := hspec u hu
    simp only [hm]
    exact hg

theorem exists_gathers_of_mem_mergeOps (hm : m ∈ (mergeOps regs share ops).1) :
    ∃ part, part ≠ [] ∧ part ⊆ ops ∧ Gathers part m := by
  cases share with
  | false => exact ⟨[m], by simp, by simpa [mergeOps] using hm, .single (hlayout m hm)⟩
  | true =>
    obtain ⟨f, heq, hf⟩ := exists_mergeRounds_eq_map regs hlayout ht
    rw [show (mergeOps regs true ops).1 = (emitted regs ops).map f from heq] at hm
    obtain ⟨u, hu, rfl⟩ := mem_map.1 hm
    have h := emission_emitted regs ops
    refine ⟨opsAt ops u.members, ?_, ?_, hf u hu⟩
    · obtain ⟨k, ks, hmembers⟩ := exists_cons_of_ne_nil (h.nonempty u hu)
      have hk : k < ops.length := by
        simpa using h.perm.mem_iff.1 (mem_flatMap.2 ⟨u, hu, by simp [hmembers]⟩)
      exact ne_nil_of_mem (mem_opsAt.2 ⟨k, by simp [hmembers],
        getElem?_eq_getElem hk⟩)
    · intro op hop
      obtain ⟨k, -, hk⟩ := mem_opsAt.1 hop
      exact mem_of_getElem? hk

theorem exists_writes_mergeOps (share : Bool) (hop : op ∈ ops) (hw : op.Writes regs.slotKey key) :
    ∃ m ∈ (mergeOps regs share ops).1, m.Writes regs.slotKey key := by
  cases share with
  | false => exact ⟨op, hop, hw⟩
  | true =>
    obtain ⟨f, heq, hf⟩ := exists_mergeRounds_eq_map regs hlayout ht
    rw [show (mergeOps regs true ops).1 = (emitted regs ops).map f from heq]
    obtain ⟨k, hlt, rfl⟩ := mem_iff_getElem.1 hop
    have hk : k ∈ List.range ops.length := mem_range.2 hlt
    obtain ⟨u, hu, hku⟩ := mem_flatMap.1 ((emission_emitted regs ops).perm.mem_iff.2 hk)
    obtain ⟨r, hr, hkey⟩ := hw
    refine ⟨f u, mem_map_of_mem hu, r, (hf u hu).writes.2 ⟨ops[k], ?_, hr⟩, hkey⟩
    exact mem_opsAt.2 ⟨k, hku, getElem?_eq_getElem hlt⟩

/-! ## Exposed slots -/

theorem exposes_of_exposes_mergeOps (hexp : Exposes regs.slotKey key (mergeOps regs share ops).1) :
    Exposes regs.slotKey key ops := by
  cases share with
  | false => exact hexp
  | true =>
    obtain ⟨f, heq, hf⟩ := exists_mergeRounds_eq_map regs hlayout ht
    rw [show (mergeOps regs true ops).1 = (emitted regs ops).map f from heq] at hexp
    have h := emission_emitted regs ops
    obtain ⟨before, _, after, hsplit, ⟨r, hr, rfl⟩, hbefore⟩ := exposes_iff.1 hexp
    obtain ⟨us, vs, hus, rfl, hvs⟩ := map_eq_append_iff.1 hsplit
    obtain ⟨u, ws, rfl, rfl, -⟩ := map_eq_cons_iff.1 hvs
    have hmem {v : MergeUnit} : v ∈ emitted regs ops ↔ v ∈ us ∨ v = u ∨ v ∈ ws := by
      rw [hus]
      simp
    obtain ⟨op, hop, hrop⟩ := (hf u (hmem.2 (by simp))).reads.1 hr
    obtain ⟨k, hk, hkop⟩ := mem_opsAt.1 hop
    refine exposes_of_getElem? hkop ⟨r, hrop, rfl⟩ ?_
    -- a writer of the slot before it would be in the same unit, or in one emitted before
    intro j o hjk hjo hw
    have hconf := conflict_of_writes_of_reads hjo hkop hw ⟨r, hrop, rfl⟩
    have hj : j ∈ List.range ops.length := mem_range.2 hconf.lt_length.1
    obtain ⟨v, hv, hjv⟩ := mem_flatMap.1 (h.perm.mem_iff.2 hj)
    rcases hmem.1 hv with hvu | rfl | hvw
    · obtain ⟨q, hq, hkey⟩ := hw
      exact hbefore (f v) (mem_map_of_mem hvu)
        ⟨q, (hf v hv).writes.2 ⟨o, mem_opsAt.2 ⟨j, hjv, hjo⟩, hq⟩, hkey⟩
    · have : Std.Symm fun i j => ¬Conflict regs ops i j := ⟨fun _ _ hn hc => hn hc.symm⟩
      exact (h.independent v hv).forall hjv hk (Nat.ne_of_lt hjk) hconf
    · have hord := h.ordered
      rw [hus, pairwise_append, pairwise_cons] at hord
      have := hord.2.1.1 v hvw k hk j hjv hconf.symm
      omega

/-! ## Optimized operations -/

theorem exists_gathers_of_mem_optimize (hm : m ∈ (optimize regs options liveOut ops).1) :
    ∃ part, part ≠ [] ∧ part ⊆ ops ∧ Gathers part m := by
  have hkept {op : Op} (h : op ∈ (dropDead regs options.fullDeadCode liveOut ops).1) : op ∈ ops :=
    mem_of_mem_dropDead h
  obtain ⟨part, hne, hsub, hg⟩ := exists_gathers_of_mem_mergeOps (fun op hop => hlayout op (hkept hop))
    (fun c d hc hd => ht c d (hkept hc) (hkept hd)) hm
  exact ⟨part, hne, fun op hop => hkept (hsub hop), hg⟩

theorem exposes_of_exposes_optimize (h : Exposes regs.slotKey key
    (optimize regs options liveOut ops).1) : Exposes regs.slotKey key ops := by
  refine exposes_of_exposes_dropDead (exposes_of_exposes_mergeOps ?_ ?_ h)
  · exact fun op hop => hlayout op (mem_of_mem_dropDead hop)
  · exact fun c d hc hd => ht c d (mem_of_mem_dropDead hc) (mem_of_mem_dropDead hd)

theorem exists_writes_optimize (hlive : key ∈ liveOut) (hop : op ∈ ops)
    (hw : op.Writes regs.slotKey key) :
    ∃ m ∈ (optimize regs options liveOut ops).1, m.Writes regs.slotKey key := by
  have hkept := (perm_dropDead regs options.fullDeadCode liveOut ops).1.mem_iff.2 hop
  refine exists_writes_mergeOps ?_ ?_ options.mergeRounds
    ((mem_append.1 hkept).resolve_right fun hdead => ?_) hw
  · exact fun op hop => hlayout op (mem_of_mem_dropDead hop)
  · exact fun c d hc hd => ht c d (mem_of_mem_dropDead hc) (mem_of_mem_dropDead hd)
  · exact not_writes_of_mem_deadOps hlive hdead hw

end SecureTape
