import Mathlib
import SecureTape.Proofs.Lifetimes

/-!
# Register pressure

How many physical registers a block without jumps back takes. Main statements:
1. `Allocator.Tiled`: where the registers of a class have one size, each slot of the class can be
   used for any of them, and the slots fill all physical registers that were opened.
2. `Allocator.Plain.usedOf_eq`: when the walk has reached an instruction, the slots in use are those
   of the alias sets that are alive there.
3. `allocateRegisters_uses_least`: a class takes as many slots as alias sets are alive at once.
-/

namespace SecureTape

open RegisterFile List

variable {f : RegisterFile} {r : Reg} {key t : Nat} {wanted : SlotClass} {rs : List Reg}
  {is : List Instruction} {code : List (PoolId × Instruction)}

theorem RegisterFile.Valid.slotKey_of_holds (hv : f.Valid) {id e : Nat} (hk : f.keyOf key = key)
    (hid : id ∈ f.aliases key) (h : f.Holds r id e) : f.slotKey r = key := by
  rw [slotKey_eq_keyOf, h.1, hv.keyOf_eq_of_mem_aliases hid, hk]

namespace Allocator

variable {a b c : Allocator} {s : Step} {ss : List Step}

/-! ## Keys in use -/

theorem Moves.inUse_cases (h : Moves f a s b) (hb : b.InUse key) :
    a.InUse key ∨ ∃ r pool, s = .need r pool ∧ f.slotKey r = key := by
  cases h with
  | idle | note => exact .inl hb
  | place _ hopens =>
    rcases mem_cons.1 hb with rfl | hb
    · exact .inr ⟨_, _, rfl, rfl⟩
    · rw [hopens.obtained.used] at hb
      exact .inl hb
  | finish => exact .inl (inUse_giveBack_iff.1 hb).1

theorem Runs.inUse_cases (h : Runs f a ss b) (hb : b.InUse key) :
    a.InUse key ∨ ∃ r pool, .need r pool ∈ ss ∧ f.slotKey r = key := by
  induction h with
  | nil => exact .inl hb
  | cons _ _ hmove _ ih =>
    rcases ih hb with hmid | ⟨r, pool, hmem, hr⟩
    · refine (hmove.inUse_cases hmid).imp_right ?_
      rintro ⟨r, pool, rfl, hr⟩
      exact ⟨r, pool, .head _, hr⟩
    · exact .inr ⟨r, pool, .tail _ hmem, hr⟩

/-- A key that stays in use is open: one of its elements is still to be written. -/
theorem Moves.not_settled (h : Moves f a s b) (ha : Sound f a) (hs : f.owns s.reg)
    (hk : f.keyOf key = key) (hpos : 0 < (f.data key).size) (hkept : ¬ f.Exports key)
    (hold : a.InUse key → ¬ Settled f a key)
    (hnew : ∀ {r pool}, s = .need r pool → f.slotKey r = key → ¬ Settled f b key) (hb : b.InUse key) :
    ¬ Settled f b key := by
  rcases h.inUse_cases hb with hkey | ⟨r, pool, hneed, hr⟩
  swap
  · exact hnew hneed hr
  intro hsettled
  by_cases hw : ∃ r, s = .write r ∧ f.slotKey r = key
  · obtain ⟨r, rfl, rfl⟩ := hw
    have hs : f.owns r = true := hs
    cases h with
    | note hfresh hopen =>
      have hlt := (slotKey_spec ha.valid hs).1
      rw [((ha.note hs hfresh).isDone_iff hlt hpos).2 ⟨hsettled, hkept⟩] at hopen
      cases hopen
    | finish => exact (inUse_giveBack_iff.1 hb).2 rfl
  · refine hold hkey fun id hid e he => (h.covered_iff.1 (hsettled id hid e he)).resolve_right ?_
    rintro ⟨r, hr, hholds⟩
    refine hw ⟨r, hr, ?_⟩
    exact ha.valid.slotKey_of_holds hk hid hholds

theorem Runs.not_settled_of_inUse {ys : List Step} (h : Runs f a ss b) (hend : Runs f b ys c)
    (hf : f.Proper) (hready : Ready f (ss ++ ys)) (hk : f.keyOf key = key)
    (hpos : 0 < (f.data key).size) (hkept : ¬ f.Exports key)
    (hold : a.InUse key → ¬ Settled f a key) (hb : b.InUse key) : ¬ Settled f b key := by
  induction h with
  | nil => exact hold hb
  | cons ha hs hmove hrest ih =>
    refine ih hend hready.tail ?_ hb
    refine hmove.not_settled ha hs hk hpos hkept hold ?_
    rintro r pool rfl rfl
    rcases hready.1 with hexports | ⟨w, hw, hkey⟩
    · exact absurd hexports hkept
    · exact (hrest.append hend).not_settled hf hpos hw hkey

/-! ## Slots of one size -/

section Tiled

variable {cls : RegisterClass} {size : Nat} {pool : PoolId}

/-- The number of slots of the class in use. -/
def usedOf (f : RegisterFile) (cls : RegisterClass) (a : Allocator) : Nat :=
  a.used.countP fun e => (f.data e.1).cls = cls

/-- The base registers of the class have one size. -/
def OneSize (f : RegisterFile) (cls : RegisterClass) (size : Nat) : Prop :=
  ∀ {r : Reg}, f.owns r = true → (f.data (f.slotKey r)).cls = cls → (f.data (f.slotKey r)).size = size

/-- All slots of the class have one size and go back to one pool, and they fill what was opened. -/
structure Tiled (f : RegisterFile) (cls : RegisterClass) (size : Nat) (pool : PoolId)
    (a : Allocator) : Prop where
  top : a.top.get cls = size * a.held.countP (·.cls = cls)
  used : ∀ e ∈ a.used, (f.data e.1).cls = cls → e.2.pool = pool
  free : ∀ e ∈ a.free, e.1.cls = cls → e.1 = ⟨pool, cls, size⟩

theorem Sound.countP_held (ha : Sound f a) (cls : RegisterClass) :
    a.held.countP (·.cls = cls) = a.usedOf f cls + a.free.countP (·.1.cls = cls) := by
  rw [held, countP_append, countP_map, countP_map]
  congr 1
  exact countP_congr fun e _ => by simp [usedRun, ha.file.sameShape.cls]

theorem Moves.tiled (h : Moves f a s b) (ha : Sound f a)
    (hsize : (f.data (f.slotKey s.reg)).cls = cls → (f.data (f.slotKey s.reg)).size = size)
    (hpool : ∀ r p, s = .need r p → p = pool) (ht : Tiled f cls size pool a) :
    Tiled f cls size pool b := by
  have hshape := ha.file.sameShape
  cases h with
  | idle => exact ht
  | @place r p start b hnew hopens =>
    obtain rfl := hpool r p rfl
    have hheld := hopens.obtained.held_place (f.slotKey r) p
    rw [hshape.cls, hshape.width] at hheld
    have hused : ∀ e ∈ (b.place (f.slotKey r) start p).used, (f.data e.1).cls = cls → e.2.pool = p :=
      forall_mem_cons.2 ⟨fun _ => rfl, hopens.obtained.used ▸ ht.used⟩
    cases hopens with
    | reuse h =>
      refine ⟨?_, hused, fun e he => ht.free e ((perm_of_takeFree h).mem_iff.2 (.tail _ he))⟩
      rw [hheld, ← (perm_held_of_takeFree h).countP_eq]
      exact ht.top
    | grow h =>
      refine ⟨?_, hused, ht.free⟩
      rw [hheld, countP_cons, Nat.mul_add]
      show (a.top.set _ _).get cls = size * a.held.countP _ + _
      rw [PerClass.get_set, ← ht.top]
      by_cases hcls : (f.data (f.slotKey r)).cls = cls
      · have hwidth : (f.data (f.slotKey r)).size = size := hsize hcls
        simp [hcls, hwidth]
      · simp [hcls, Ne.symm hcls]
  | note => exact ⟨ht.top, ht.used, ht.free⟩
  | @finish r =>
    have hnote := ha.orderly.note f r
    have hperm := hnote.perm_giveBack (f.slotKey r)
    rcases hnote.giveBack_cases (f.slotKey r) with h | ⟨slot, before, after, heq, h⟩ <;>
      rw [h] at hperm ⊢
    · exact ⟨ht.top, ht.used, ht.free⟩
    have hused : a.used = before ++ (f.slotKey r, slot) :: after := heq
    refine ⟨ht.top.trans (by rw [← hperm.countP_eq]; rfl), fun e he => ht.used e ?_,
      forall_mem_cons.2 ⟨fun hcls => ?_, ht.free⟩⟩
    · rw [hused]
      exact (perm_middle.mem_iff).2 (.tail _ he)
    · have hcls : (f.data (f.slotKey r)).cls = cls := (hshape.cls _).symm.trans hcls
      have hslot := ht.used (f.slotKey r, slot) (by simp [hused]) hcls
      show (⟨slot.pool, (a.regs.data _).cls, (a.regs.data _).size⟩ : SlotClass) = _
      rw [hslot, hshape.cls, hshape.width, hcls]
      congr 1
      exact hsize hcls

theorem not_mem_of_takeFree {free : List (SlotClass × Nat)} (h : takeFree wanted free = none) :
    ∀ e ∈ free, e.1 ≠ wanted := by
  induction free with
  | nil => exact fun _ he => nomatch he
  | cons e free ih =>
    unfold takeFree at h
    split at h
    · cases h
    · rename_i hne
      exact forall_mem_cons.2 ⟨hne, ih (Option.map_eq_none_iff.1 h)⟩

theorem Opens.top_eq {start : Nat} (h : Opens a wanted start b) (ht : Tiled f cls size pool a)
    (hwanted : wanted.cls = cls → wanted = ⟨pool, cls, size⟩) :
    b.top.get cls = a.top.get cls ∨ b.free.countP (·.1.cls = cls) = 0 := by
  cases h with
  | reuse => exact .inl rfl
  | grow hnone =>
    by_cases hcls : wanted.cls = cls
    · refine .inr (countP_eq_zero.2 fun e he hc => ?_)
      exact not_mem_of_takeFree hnone e he
        ((ht.free e he (of_decide_eq_true hc)).trans (hwanted hcls).symm)
    · exact .inl (PerClass.get_set_of_ne _ _ (Ne.symm hcls))

theorem Moves.top_need (h : Moves f a (.need r pool) b) (ha : Sound f a) (hr : f.owns r)
    (hsize : OneSize f cls size) (ht : Tiled f cls size pool a) :
    b.top.get cls = max (a.top.get cls) (size * b.usedOf f cls) ∧ a.usedOf f cls ≤ b.usedOf f cls := by
  have htop := (h.tiled ha (hsize hr) (fun _ _ h => by cases h; rfl) ht).top
  rw [(h.sound ha hr).countP_held, Nat.mul_add] at htop
  cases h with
  | idle => exact ⟨by omega, le_rfl⟩
  | @place _ _ start b hnew hopens =>
    have hmono : a.top.get cls ≤ b.top.get cls := hopens.obtained.top cls
    have hused : a.usedOf f cls ≤ (b.place (f.slotKey r) start pool).usedOf f cls := by
      show _ ≤ List.countP _ (_ :: b.used)
      rw [hopens.obtained.used]
      exact (sublist_cons_self _ _).countP_le
    refine ⟨?_, hused⟩
    have hplace : (b.place (f.slotKey r) start pool).top.get cls = b.top.get cls := rfl
    rcases hopens.top_eq ht fun hcls => congrArg₂ _ hcls (hsize hr hcls) with heq | hzero
    · omega
    · rw [show (b.place (f.slotKey r) start pool).free = b.free from rfl, hzero] at htop
      omega

theorem Runs.tiled (h : Runs f a ss b) (hpool : ∀ r p, .need r p ∈ ss → p = pool)
    (hsize : OneSize f cls size) (ht : Tiled f cls size pool a) : Tiled f cls size pool b := by
  induction h with
  | nil => exact ht
  | cons ha hs hmove _ ih =>
    refine ih (fun r p h => hpool r p (.tail _ h)) (hmove.tiled ha (hsize hs) ?_ ht)
    rintro r p rfl
    exact hpool r p (.head _)

theorem Runs.top_needs (h : Runs f a (rs.map (.need · pool)) b) (hsize : OneSize f cls size)
    (ht : Tiled f cls size pool a) :
    b.top.get cls = max (a.top.get cls) (size * b.usedOf f cls) ∧ a.usedOf f cls ≤ b.usedOf f cls := by
  induction rs generalizing a with
  | nil =>
    have htop := ht.top
    rw [h.start.countP_held, Nat.mul_add] at htop
    cases h
    exact ⟨by omega, le_rfl⟩
  | cons r rs ih =>
    cases h with
    | cons ha hr hmove hrest =>
      obtain ⟨htop, hle⟩ := hmove.top_need ha hr hsize ht
      obtain ⟨htop', hle'⟩ := ih hrest (hmove.tiled ha (hsize hr) (fun _ _ h => by cases h; rfl) ht)
      have hmul := Nat.mul_le_mul_left size hle'
      exact ⟨by omega, hle.trans hle'⟩

theorem Runs.top_writes (h : Runs f a (rs.map .write) b) : b.top = a.top := by
  induction rs generalizing a with
  | nil =>
    cases h
    rfl
  | cons r rs ih =>
    cases h with
    | cons _ _ hmove hrest =>
      rw [ih hrest]
      cases hmove with
      | note => rfl
      | finish =>
        unfold giveBack
        split <;> rfl

/-! ## The walk over a block -/

theorem Reached.alive_of_inUse (h : Reached f is t a) (hk : f.keyOf key = key)
    (hoccurs : Occurs f (is.drop t) key) (hopen : ¬ Settled f a key) : Alive f is key t := by
  refine .inr ⟨hoccurs, or_iff_not_imp_left.2 fun hunwritten => ?_⟩
  simp only [Settled, not_forall] at hopen
  obtain ⟨id, hid, e, he, huncovered⟩ := hopen
  refine ⟨id, hid, e, he, fun i hi w hw hholds => ?_⟩
  rw [← take_append_drop (t + 1) is] at hi
  rcases mem_append.1 hi with hi | hi
  · exact hunwritten ⟨i, hi, w, hw, h.sound.valid.slotKey_of_holds hk hid hholds⟩
  · exact huncovered ((h.covered_iff id e).2 ⟨i, hi, w, hw, hholds⟩)

/-- The number of alias sets of the class that are alive at the position. -/
def pressure (f : RegisterFile) (cls : RegisterClass) (is : List Instruction) (t : Nat) : Nat :=
  ((Finset.range f.size).filter fun key => (f.data key).cls = cls ∧ Alive f is key t).card

theorem usedOf_eq_pressure (ha : Sound f a)
    (h : ∀ key < f.size, (f.data key).cls = cls → (a.InUse key ↔ Alive f is key t)) :
    a.usedOf f cls = pressure f cls is t := by
  have hnodup : ((a.used.filter fun e => (f.data e.1).cls = cls).map (·.1)).Nodup :=
    ha.orderly.nodup.sublist (filter_sublist.map _)
  have hkeys : (Finset.range f.size).filter (fun key => (f.data key).cls = cls ∧ Alive f is key t) =
      ((a.used.filter fun e => (f.data e.1).cls = cls).map (·.1)).toFinset := by
    ext key
    simp only [Finset.mem_filter, Finset.mem_range, mem_toFinset, mem_map, mem_filter,
      decide_eq_true_eq]
    constructor
    · rintro ⟨hlt, hcls, halive⟩
      obtain ⟨e, he, rfl⟩ := mem_map.1 ((h key hlt hcls).2 halive)
      exact ⟨e, ⟨he, hcls⟩, rfl⟩
    · rintro ⟨e, ⟨he, hcls⟩, rfl⟩
      have hlt := (ha.orderly.keys e he).1
      rw [ha.file.sameShape.size] at hlt
      exact ⟨hlt, hcls, (h e.1 hlt hcls).1 (mem_map_of_mem he)⟩
  rw [pressure, hkeys, toFinset_card_of_nodup hnodup, length_map,
    ← countP_eq_length_filter]
  rfl

/-- Code of one pool without exported registers, in which all registers of the class have one
size. -/
structure Plain (f : RegisterFile) (cls : RegisterClass) (size : Nat) (pool : PoolId)
    (code : List (PoolId × Instruction)) : Prop where
  proper : f.Proper
  kept : ∀ id < f.size, (f.data id).exported = false
  pools : ∀ e ∈ code, e.1 = pool
  reads : ReadsWritten f (code.map (·.2))
  size : OneSize f cls size

theorem exported_eq_nil (h : ∀ id < f.size, (f.data id).exported = false) : f.exported = [] := by
  rw [exported, map_eq_nil_iff, filter_eq_nil_iff]
  intro id hid
  rw [h id (mem_range.1 hid)]
  exact Bool.false_ne_true

variable {limit : Nat} {before after : List (PoolId × Instruction)} {e : PoolId × Instruction}

theorem Plain.not_exports (h : Plain f cls size pool code) (hlt : key < f.size) :
    ¬ f.Exports key := by
  rintro ⟨id, hid, hexported⟩
  rw [h.kept id (h.proper.lt_of_mem_aliases hlt hid)] at hexported
  cases hexported

theorem Plain.usedOf_eq (h : Plain f cls size pool (before ++ e :: after)) (hpos : 0 < size)
    (hstart : Runs f { regs := f.clearSlots, limit } (codeSteps after ++ needs e.1 e.2) a)
    (hend : Runs f a (e.2.writes.map .write ++ codeSteps before) b) :
    a.usedOf f cls = pressure f cls ((before ++ e :: after).map (·.2)) before.length := by
  have hpre : Leads f [] := by
    refine ⟨fun s hs => (not_mem_nil hs).elim, fun r hr => ?_⟩
    rw [exported_eq_nil h.kept] at hr
    cases hr
  have hreached : Reached f _ before.length a := reached h.proper hpre hstart hend
  have hready := ready_codeSteps h.reads
  rw [codeSteps_cut] at hready
  have hdrop : ((before ++ e :: after).map (·.2)).drop before.length = (e :: after).map (·.2) := by
    simp
  have hneeds {r : Reg} {p : PoolId} : .need r p ∈ codeSteps (e :: after) ↔
      .need r p ∈ codeSteps after ++ needs e.1 e.2 := by
    simp [codeSteps, steps]
  refine usedOf_eq_pressure hreached.sound fun key hlt hcls => ⟨fun hinUse => ?_, fun halive => ?_⟩
  · rcases hstart.inUse_cases hinUse with hnone | ⟨r, p, hneed, rfl⟩
    · cases hnone
    have hr : f.owns r = true := hstart.owns _ hneed
    have hk := (slotKey_spec h.proper.toValid hr).2.1
    have hopen := hstart.not_settled_of_inUse hend h.proper hready hk (h.size hr hcls ▸ hpos)
      (h.not_exports hlt) (absurd · not_mem_nil) hinUse
    refine hreached.alive_of_inUse hk ?_ hopen
    rw [hdrop, occurs_iff]
    exact ⟨r, p, hneeds.2 hneed, rfl⟩
  · have hoccurs := (halive.resolve_left (h.not_exports hlt)).1
    rw [hdrop, occurs_iff] at hoccurs
    obtain ⟨r, p, hneed, rfl⟩ := hoccurs
    have hr : f.owns r = true := hstart.owns _ (hneeds.1 hneed)
    exact hreached.inUse_of_alive hr (h.size hr hcls ▸ hpos) halive

theorem Plain.tiled (h : Plain f cls size pool (before ++ after))
    (hstart : Runs f { regs := f.clearSlots, limit } (codeSteps after) b) :
    Tiled f cls size pool b := by
  refine hstart.tiled ?_ h.size ⟨by simp [held], nofun, nofun⟩
  intro r p hneed
  obtain ⟨e, he, x, -, -, rfl⟩ := need_mem_codeSteps_iff.1 hneed
  exact h.pools e (mem_append_right _ he)

theorem Plain.top_eq (h : Plain f cls size pool code) (hpos : 0 < size)
    (hcode : code = before ++ after)
    (hstart : Runs f { regs := f.clearSlots, limit } (codeSteps after) b)
    (hend : Runs f b (codeSteps before) c) :
    b.top.get cls =
      size * (Finset.Ico before.length code.length).sup (pressure f cls (code.map (·.2))) := by
  induction after generalizing before b with
  | nil =>
    cases hstart
    simp [hcode]
  | cons e after ih =>
    subst hcode
    have hfront : codeSteps (e :: after) =
        codeSteps after ++ (needs e.1 e.2 ++ e.2.writes.map .write) := by simp [codeSteps, steps]
    have hback : codeSteps (before ++ [e]) =
        needs e.1 e.2 ++ (e.2.writes.map .write ++ codeSteps before) := by simp [codeSteps, steps]
    have hassoc := append_cons before e after
    -- the states before and after the slots for the instruction are found
    rw [hfront] at hstart
    obtain ⟨y, hy, hrest⟩ := hstart.exists_of_append
    obtain ⟨m, hm, hwrites⟩ := hrest.exists_of_append
    have hinner := ih hassoc hy (hback ▸ hm.append (hwrites.append hend))
    have hused := h.usedOf_eq hpos (hy.append hm) (hwrites.append hend)
    have htiled := Plain.tiled (hassoc ▸ h) hy
    rw [← h.pools e (by simp)] at htiled
    obtain ⟨htop, -⟩ := hm.top_needs h.size htiled
    have hlt : before.length < (before ++ e :: after).length := by simp
    rw [hwrites.top_writes, htop, hinner, hused, Nat.mul_max_mul_left, max_comm, length_append,
      length_singleton, ← Finset.insert_Ico_add_one_left_eq_Ico hlt, Finset.sup_insert]

end Tiled

end Allocator

open Allocator

/-- A block that does not jump back takes no more physical registers of a class than its alias sets
that are alive at once. -/
theorem allocateRegisters_uses_least {regs g : RegisterFile} {limit : Nat} {block : Block}
    {usage : PerClass Nat} {cls : RegisterClass} {size : Nat} (hregs : regs.Proper)
    (hforward : Forward #[block])
    (howns : ∀ i ∈ block.instructions, ∀ x ∈ i.accesses, regs.owns x.1 = true)
    (hkept : ∀ id < regs.size, (regs.data id).exported = false)
    (hreads : ReadsWritten regs block.instructions)
    (hsize : ∀ id < regs.size, (regs.data id).view = none → (regs.data id).cls = cls →
      (regs.data id).size = size)
    (h : allocateRegisters regs limit #[block] = (.ok usage, g)) :
    usage.get cls = size * (Finset.range block.instructions.length).sup
      (pressure regs cls block.instructions) := by
  have hv := hregs.toValid
  have hlayout : layout #[block] = block.instructions := by simp [layout]
  obtain ⟨a, pre, hruns, rfl, -, hpre, -⟩ := exists_runs_of_forward hv hforward (hlayout ▸ howns) h
  have hnil : pre = [] := eq_nil_iff_forall_not_mem.2 fun s hs => by
    obtain ⟨r, hr, -⟩ := hpre s hs
    rw [exported_eq_nil hkept] at hr
    cases hr
  rw [hnil] at hruns
  have hone : OneSize regs cls size := by
    intro r hr hcls
    have hid := (owns_iff.1 hr).2
    have hkey := hv.keyOf_mem_aliases (hv.baseOf_lt hid)
    exact hsize _ (slotKey_spec hv hr).1 (hv.view_of_mem_aliases hid hkey) hcls
  have hplain : Plain regs cls size block.pool ([] ++ layoutOf #[block]) :=
    ⟨hregs, hkept, by simp [layoutOf], by rwa [nil_append, map_layoutOf, hlayout], hone⟩
  rcases Nat.eq_zero_or_pos size with rfl | hpos
  · rw [(hplain.tiled hruns).top]
    simp
  · have hlength : (layoutOf #[block]).length = block.instructions.length := by simp [layoutOf]
    rw [hplain.top_eq hpos rfl hruns (.nil hruns.sound), nil_append, map_layoutOf, hlayout, hlength,
      length_nil, Finset.range_eq_Ico]

/-- The elements of a vector are loaded one by one, and another vector is added. -/
def sumBlock : Block where
  name := "sum"
  scope := none
  pool := ⟨0, 0⟩
  node := 0
  ops := [.inst ⟨.ldint, .base, 1, [.reg ⟨0, 1⟩, .number 5]⟩,
    .inst ⟨.ldint, .base, 1, [.reg ⟨0, 2⟩, .number 6]⟩,
    .inst ⟨.ldint, .base, 2, [.reg ⟨0, 3⟩, .number 7]⟩,
    .inst ⟨.addint, .base, 2, [.reg ⟨0, 4⟩, .reg ⟨0, 0⟩, .reg ⟨0, 3⟩]⟩]

/-- Three vectors of two registers are alive at the sum. -/
theorem allocateRegisters_uses_least_sum : ∃ usage g,
    allocateRegisters twoNumbers 6 #[sumBlock] = (.ok usage, g) ∧ usage.get .int = 6 ∧
      usage.get .int = 2 * (Finset.range 4).sup (pressure twoNumbers .int sumBlock.instructions) := by
  have hrun : allocateRegisters twoNumbers 6 #[sumBlock] =
    (.ok ((PerClass.fill 0).set .int 6),
      (allocateRegisters twoNumbers 6 #[sumBlock]).2) := by decide +kernel
  have hsize : ∀ id < twoNumbers.size, (twoNumbers.data id).view = none →
      (twoNumbers.data id).cls = .int → (twoNumbers.data id).size = 2 := by decide
  refine ⟨_, _, hrun, rfl, ?_⟩
  exact allocateRegisters_uses_least proper_twoNumbers (by decide) (by decide) (by decide) (by decide)
    hsize hrun

end SecureTape
