import SecureTape.Allocation
import SecureTape.Proofs.Actions
import SecureTape.Proofs.Registers
import SecureTape.Proofs.Accesses

/-!
# Slots

The walk of the allocator over the code of a tape is a sequence of steps, each for one register.
Main statements:
1. `Allocator.Moves`: what a step can do, and `Allocator.meets_run`: that a walk does nothing else.
2. `Allocator.Orderly`: the slots that are in use and those that were given back are apart from one
   another and below the limit. Every step of the walk keeps this.
3. `clearSlots_allocateRegisters`: the walk assigns slots and leaves the registers as they are.
4. `allocateRegisters_spec`: all registers of the code get slots below the number of physical
   registers, which is at most the limit.
-/

namespace SecureTape

open Action RegisterFile List Allocator

namespace RegisterFile

theorem clearSlots_setSlot (f : RegisterFile) (id slot : Nat) :
    (f.setSlot id slot).clearSlots = f.clearSlots := by
  unfold setSlot modify clearSlots
  congr 1
  apply Array.ext_getElem?
  intro j
  simp only [Array.getElem?_map, Array.getElem?_modify]
  split
  · rw [Option.map_map]
    rfl
  · rfl

theorem clearSlots_clearSlots (f : RegisterFile) : f.clearSlots.clearSlots = f.clearSlots := by
  unfold clearSlots
  congr 1
  rw [Array.map_map]
  rfl

def SameButSlots (f g : RegisterFile) : Prop := g.clearSlots = f.clearSlots

namespace SameButSlots

variable {f g : RegisterFile} (h : SameButSlots f g)

include h

theorem field_eq {α : Type} (p : RegisterData → α) (hp : ∀ d, p { d with slot := none } = p d)
    (id : Nat) : p (g.data id) = p (f.data id) := by
  have hdata := congrArg (fun k => p (data k id)) h
  simpa only [data_clearSlots, hp] using hdata

theorem sameShape : SameShape f g := by
  have hsize (f : RegisterFile) : f.clearSlots.size = f.size := by simp [size, clearSlots]
  have h' : g.clearSlots = f.clearSlots := h
  exact ⟨(congrArg tape h' :), (hsize g).symm.trans ((congrArg size h').trans (hsize f)),
    (congrArg counters h' :), (congrArg aliasSets h' :), h.field_eq (·.cls) fun _ => rfl,
    h.field_eq (·.size) fun _ => rfl, h.field_eq (·.index) fun _ => rfl,
    h.field_eq (·.view) fun _ => rfl, h.field_eq (·.aliasSet) fun _ => rfl⟩

end SameButSlots

end RegisterFile

/-- A run of physical registers of a class. -/
structure SlotRun where
  cls : RegisterClass
  start : Nat
  size : Nat

/-- The two runs have no physical register in common. -/
def SlotRun.Apart (x y : SlotRun) : Prop :=
  x.cls = y.cls → x.start + x.size ≤ y.start ∨ y.start + y.size ≤ x.start

theorem SlotRun.Apart.symm {x y : SlotRun} (h : x.Apart y) : y.Apart x :=
  fun hcls => (h hcls.symm).symm

theorem pairwise_apart_of_perm {xs ys : List SlotRun} (h : xs.Perm ys)
    (hxs : xs.Pairwise SlotRun.Apart) : ys.Pairwise SlotRun.Apart :=
  (h.pairwise_iff fun hxy => hxy.symm).1 hxs

namespace Allocator

variable {f : RegisterFile} {a b c : Allocator}

/-! ## Steps -/

/-- What the walk does for a register: give it a slot in a pool, or note that it is written. -/
inductive Step where
  | need (r : Reg) (pool : PoolId)
  | write (r : Reg)

namespace Step

def reg : Step → Reg
  | need r _ => r
  | write r => r

def exec : Step → AllocM Unit
  | need r pool => assign r pool
  | write r => define r

end Step

def needs (pool : PoolId) (i : Instruction) : List Step := (i.writes ++ i.reads).map (.need · pool)

def steps (pool : PoolId) (i : Instruction) : List Step := needs pool i ++ i.writes.map .write

/-- The steps for all that the body of a loop takes over from outside. -/
def loopSteps (blocks : Array Block) (start : BlockId) : List Step :=
  (blocksBelow blocks blocks.size [start]).flatMap fun id =>
    (blocks.getD id default).inherited.map (.need · (blocks.getD id default).pool)

def blockSteps (blocks : Array Block) (index : Nat) (block : Block) : List Step :=
  (match block.exit.bind (·.target) with
    | some target => if target ≤ index then loopSteps blocks target else []
    | none => []) ++ block.instructions.reverse.flatMap (steps block.pool)

def walkSteps (blocks : Array Block) (exported : List Reg) : List Step :=
  match blocks[0]? with
  | none => []
  | some first =>
    exported.map (.need · first.pool) ++
      blocks.toList.zipIdx.reverse.flatMap fun e => blockSteps blocks e.2 e.1

theorem forM_flatMap {α β : Type} (act : β → AllocM Unit) (g : α → List β) (xs : List α) :
    forM (xs.flatMap g) act = forM xs fun x => forM (g x) act := by
  induction xs with
  | nil => rfl
  | cons x xs ih => rw [flatMap_cons, forM_append, ih, forM_cons]

theorem visit_eq (pool : PoolId) (i : Instruction) :
    visit pool i = (steps pool i).forM Step.exec := by
  simp only [steps, needs, map_append, forM_eq_forM, forM_append, forM_map, bind_assoc]
  rfl

theorem visitBlock_eq (blocks : Array Block) (index : Nat) (block : Block) :
    visitBlock blocks index block = (blockSteps blocks index block).forM Step.exec := by
  have hloop (start : BlockId) : visitLoop blocks start = (loopSteps blocks start).forM Step.exec := by
    simp only [loopSteps, forM_eq_forM, forM_flatMap, forM_map]
    rfl
  simp only [blockSteps, forM_eq_forM, forM_append, forM_flatMap]
  simp only [← forM_eq_forM, ← visit_eq]
  unfold visitBlock
  simp only [hloop]
  cases block.exit.bind (·.target) with
  | none => rfl
  | some target =>
    by_cases htarget : target ≤ index
    · simp only [htarget, if_true]
    · simp only [htarget, if_false]
      rfl

theorem run_walk (blocks : Array Block) (a : Allocator) :
    (walk blocks).run a = ((walkSteps blocks a.regs.exported).forM Step.exec).run a := by
  unfold walk walkSteps
  cases blocks[0]? with
  | none => rfl
  | some first =>
    simp only [forM_eq_forM, forM_append, forM_map, forM_flatMap]
    simp only [← forM_eq_forM, ← visitBlock_eq]
    rfl

/-! ## Slots in use -/

def usedRun (regs : RegisterFile) (e : Nat × Slot) : SlotRun :=
  ⟨(regs.data e.1).cls, e.2.start, (regs.data e.1).size⟩

def freeRun (e : SlotClass × Nat) : SlotRun := ⟨e.1.cls, e.2, e.1.size⟩

def held (a : Allocator) : List SlotRun :=
  a.used.map (usedRun a.regs) ++ a.free.map freeRun

/-- Slots are in use under the keys of their registers, which all have the slot; slots in use and
slots given back are apart, and all slots are below the top, which is at most the limit. -/
structure Orderly (a : Allocator) : Prop where
  valid : a.regs.Valid
  keys : ∀ e ∈ a.used, e.1 < a.regs.size ∧ a.regs.keyOf e.1 = e.1
  nodup : (a.used.map (·.1)).Nodup
  apart : a.held.Pairwise SlotRun.Apart
  below : ∀ x ∈ a.held, x.start + x.size ≤ a.top.get x.cls
  inUse : ∀ e ∈ a.used, ∀ id ∈ a.regs.aliases e.1, (a.regs.data id).slot = some e.2.start
  slots : ∀ {id s}, id < a.regs.size → (a.regs.data id).slot = some s →
    s + (a.regs.data id).size ≤ a.top.get (a.regs.data id).cls
  top_le : ∀ cls, a.top.get cls ≤ a.limit

def InUse (a : Allocator) (key : Nat) : Prop := key ∈ a.used.map (·.1)

theorem isSome_lookup_iff {key : Nat} : (a.used.lookup key).isSome ↔ a.InUse key := by
  rw [lookup_isSome_iff, InUse, mem_map]
  exact exists_congr fun e => and_congr_right fun _ => by rw [beq_iff_eq, eq_comm]

/-! ## New slots -/

theorem perm_of_takeFree {wanted : SlotClass} {free rest : List (SlotClass × Nat)} {start : Nat}
    (h : takeFree wanted free = some (start, rest)) : free.Perm ((wanted, start) :: rest) := by
  induction free generalizing rest with
  | nil => cases h
  | cons e free ih =>
    obtain ⟨c, s⟩ := e
    unfold takeFree at h
    split at h
    · rename_i hc
      cases h
      rw [hc]
    · obtain ⟨⟨s', rest'⟩, hrest, heq⟩ := Option.map_eq_some_iff.1 h
      cases heq
      exact ((ih hrest).cons _).trans (.swap ..)

/-- What is known once a slot has been obtained, before it is in use. -/
structure Obtained (a : Allocator) (wanted : SlotClass) (start : Nat) (b : Allocator) : Prop where
  regs : b.regs = a.regs
  used : b.used = a.used
  limit : b.limit = a.limit
  top : ∀ cls, a.top.get cls ≤ b.top.get cls
  orderly : a.Orderly →
    (⟨wanted.cls, start, wanted.size⟩ :: b.held).Pairwise SlotRun.Apart ∧
      (∀ x ∈ (⟨wanted.cls, start, wanted.size⟩ : SlotRun) :: b.held,
        x.start + x.size ≤ b.top.get x.cls) ∧ ∀ cls, b.top.get cls ≤ b.limit

theorem perm_held_of_takeFree {wanted : SlotClass} {start : Nat} {free : List (SlotClass × Nat)}
    (h : takeFree wanted a.free = some (start, free)) :
    a.held.Perm (⟨wanted.cls, start, wanted.size⟩ :: held { a with free }) :=
  (((perm_of_takeFree h).map freeRun).append_left _).trans perm_middle

theorem obtained_of_takeFree {wanted : SlotClass} {start : Nat} {free : List (SlotClass × Nat)}
    (h : takeFree wanted a.free = some (start, free)) : Obtained a wanted start { a with free } := by
  have hperm := perm_held_of_takeFree h
  refine ⟨rfl, rfl, rfl, fun _ => Nat.le_refl _, ?_⟩
  intro ha
  exact ⟨pairwise_apart_of_perm hperm ha.apart, fun x hx => ha.below x (hperm.mem_iff.2 hx),
    ha.top_le⟩

theorem obtained_above (wanted : SlotClass) (h : a.top.get wanted.cls + wanted.size ≤ a.limit) :
    Obtained a wanted (a.top.get wanted.cls)
      { a with top := a.top.set wanted.cls (a.top.get wanted.cls + wanted.size) } := by
  have htop (cls : RegisterClass) : a.top.get cls ≤
      (a.top.set wanted.cls (a.top.get wanted.cls + wanted.size)).get cls := by
    rw [PerClass.get_set]
    split
    · rename_i hcls
      rw [hcls]
      omega
    · exact Nat.le_refl _
  refine ⟨rfl, rfl, rfl, htop, ?_⟩
  intro ha
  refine ⟨pairwise_cons.2 ⟨?_, ha.apart⟩, forall_mem_cons.2 ⟨?_, ?_⟩, ?_⟩
  · intro x hx hcls
    have hbelow := ha.below x hx
    rw [← hcls] at hbelow
    exact .inr hbelow
  · simp
  · intro x hx
    exact Nat.le_trans (ha.below x hx) (htop x.cls)
  · intro cls
    show (a.top.set wanted.cls _).get cls ≤ a.limit
    rw [PerClass.get_set]
    split
    · exact h
    · exact ha.top_le cls

/-- How a slot is obtained: one that was given back and fits, or else one above the top. -/
inductive Opens (a : Allocator) (wanted : SlotClass) : Nat → Allocator → Prop
  | reuse {start : Nat} {free : List (SlotClass × Nat)}
      (h : takeFree wanted a.free = some (start, free)) : Opens a wanted start { a with free }
  | grow (h : takeFree wanted a.free = none)
      (hlimit : a.top.get wanted.cls + wanted.size ≤ a.limit) :
      Opens a wanted (a.top.get wanted.cls)
        { a with top := a.top.set wanted.cls (a.top.get wanted.cls + wanted.size) }

theorem Opens.obtained {wanted : SlotClass} {start : Nat} (h : Opens a wanted start b) :
    Obtained a wanted start b := by
  cases h with
  | reuse h => exact obtained_of_takeFree h
  | grow _ hlimit => exact obtained_above wanted hlimit

theorem Opens.written {wanted : SlotClass} {start : Nat} (h : Opens a wanted start b) :
    b.written = a.written := by
  cases h <;> rfl

/-! ## What a step does -/

theorem data_foldl_setSlot (ids : List Nat) (start : Nat) (f : RegisterFile) (j : Nat) :
    (ids.foldl (fun f id => f.setSlot id start) f).data j =
      if j ∈ ids ∧ j < f.size then { f.data j with slot := some start } else f.data j := by
  induction ids generalizing f with
  | nil => simp
  | cons id ids ih =>
    rw [foldl_cons, ih, setSlot, size_modify, data_modify]
    by_cases hj : j = id
    · subst hj
      by_cases hlt : j < f.size <;> simp [hlt]
    · simp [hj]

theorem clearSlots_foldl_setSlot (ids : List Nat) (start : Nat) (f : RegisterFile) :
    (ids.foldl (fun f id => f.setSlot id start) f).clearSlots = f.clearSlots := by
  induction ids generalizing f with
  | nil => rfl
  | cons id ids ih => exact (ih _).trans (f.clearSlots_setSlot id start)

def place (a : Allocator) (key start : Nat) (pool : PoolId) : Allocator :=
  { a with
    regs := (a.regs.aliases key).foldl (fun f id => f.setSlot id start) a.regs
    used := (key, ⟨start, pool⟩) :: a.used }

def note (f : RegisterFile) (a : Allocator) (r : Reg) : Allocator :=
  { a with written := (f.baseOf r, ((f.resolve r).2, f.sizeOf r) :: a.runs (f.baseOf r)) ::
      a.written.filter (·.1 ≠ f.baseOf r) }

/-- The alias set with the key is written completely, and its slot is not kept. -/
def isDone (f : RegisterFile) (a : Allocator) (key : Nat) : Bool :=
  (f.aliases key).all a.isCovered && !(f.aliases key).any fun id => (f.data id).exported

/-- What a step can do, if the registers are those of the file but for their slots. -/
inductive Moves (f : RegisterFile) (a : Allocator) : Step → Allocator → Prop
  | idle {r : Reg} {pool : PoolId} (h : a.InUse (f.slotKey r)) : Moves f a (.need r pool) a
  | place {r : Reg} {pool : PoolId} {start : Nat} {b : Allocator} (h : ¬ a.InUse (f.slotKey r))
      (hopens : Opens a ⟨pool, (f.data (f.slotKey r)).cls, (f.data (f.slotKey r)).size⟩ start b) :
      Moves f a (.need r pool) (b.place (f.slotKey r) start pool)
  | note {r : Reg}
      (hfresh : (a.runs (f.baseOf r)).any (overlap ((f.resolve r).2, f.sizeOf r)) = false)
      (hopen : (a.note f r).isDone f (f.slotKey r) = false) : Moves f a (.write r) (a.note f r)
  | finish {r : Reg}
      (hfresh : (a.runs (f.baseOf r)).any (overlap ((f.resolve r).2, f.sizeOf r)) = false)
      (hdone : (a.note f r).isDone f (f.slotKey r) = true) :
      Moves f a (.write r) ((a.note f r).giveBack (f.slotKey r))

/-- The walk leaves everything about the registers as it is but their slots. -/
structure Walks (a b : Allocator) : Prop where
  file : SameButSlots a.regs b.regs
  limit : b.limit = a.limit

instance : IsTrans Allocator Walks where
  trans _ _ _ hab hbc := ⟨hbc.file.trans hab.file, hbc.limit.trans hab.limit⟩

theorem Walks.refl (a : Allocator) : Walks a a := ⟨rfl, rfl⟩

theorem Walks.of_regs_eq (hregs : b.regs = a.regs) (hlimit : b.limit = a.limit) : Walks a b :=
  ⟨congrArg clearSlots hregs, hlimit⟩

theorem regs_giveBack (a : Allocator) (key : Nat) : (a.giveBack key).regs = a.regs := by
  unfold giveBack
  split <;> rfl

theorem meets_obtain (wanted : SlotClass) (a : Allocator) :
    Meets Walks (obtain wanted) a fun start b => Opens a wanted start b := by
  refine .get_bind ?_
  split
  · rename_i start free hfree
    exact .set_bind (.of_regs_eq rfl rfl) (.pure (.refl _) (.reuse hfree))
  · rename_i hfree
    refine .set_bind (.of_regs_eq rfl rfl) ?_
    simp only []
    split
    · exact .throw_bind (.refl _)
    · rename_i hlimit
      exact .pure_bind (.pure (.refl _) (.grow hfree (Nat.le_of_not_lt hlimit)))

theorem meets_assign (r : Reg) (pool : PoolId) (hf : SameButSlots f a.regs) :
    Meets Walks (assign r pool) a fun _ b => Moves f a (.need r pool) b := by
  refine .get_bind ?_
  simp only [hf.sameShape.slotKey, hf.sameShape.cls, hf.sameShape.width]
  split
  · rename_i hused
    exact .pure (.refl a) (.idle (isSome_lookup_iff.1 hused))
  · rename_i hfree
    refine .bind (meets_obtain _ a) ?_
    intro start b _ hopens
    exact .modify ⟨clearSlots_foldl_setSlot _ start b.regs, rfl⟩
      (.place (fun hused => hfree (isSome_lookup_iff.2 hused)) hopens)

theorem meets_define (r : Reg) (hf : SameButSlots f a.regs) :
    Meets Walks (define r) a fun _ b => Moves f a (.write r) b := by
  have hexported (id : Nat) := hf.field_eq (·.exported) (fun _ => rfl) id
  refine .get_bind ?_
  simp only [hf.sameShape.slotKey, hf.sameShape.resolve, hf.sameShape.sizeOf, hf.sameShape.aliases,
    hexported]
  split
  · exact .throw_bind (.refl a)
  · rename_i hfresh
    rw [Bool.not_eq_true] at hfresh
    split
    · rename_i hdone
      refine .of_run_ok rfl (.of_regs_eq (regs_giveBack _ _) ?_) (.finish hfresh hdone)
      unfold giveBack
      split <;> rfl
    · rename_i hopen
      exact .of_run_ok rfl (.of_regs_eq rfl rfl) (.note hfresh ((Bool.not_eq_true _).mp hopen))

/-! ## Elements written -/

theorem lookup_filter_ne {α : Type} (l : List (Nat × α)) {k j : Nat} (h : j ≠ k) :
    (l.filter (·.1 ≠ k)).lookup j = l.lookup j := by
  induction l with
  | nil => rfl
  | cons e l ih =>
    by_cases he : e.1 = k
    · have hj : (j == e.1) = false := by simp [he, h]
      rw [filter_cons_of_neg (by simp [he]), ih, ← Prod.eta e, lookup_cons, hj]
    · rw [filter_cons_of_pos (by simp [he]), ← Prod.eta e, lookup_cons, lookup_cons, ih]

theorem runs_note (f : RegisterFile) (a : Allocator) (r : Reg) (base : Nat) :
    (a.note f r).runs base =
      if f.baseOf r = base then ((f.resolve r).2, f.sizeOf r) :: a.runs base else a.runs base := by
  unfold runs note
  rw [lookup_cons]
  split
  · rename_i h
    rw [if_pos (beq_iff_eq.1 h).symm, beq_iff_eq.1 h]
    rfl
  · rename_i h
    have hne : base ≠ f.baseOf r := by simpa using h
    rw [if_neg hne.symm, lookup_filter_ne _ hne]

theorem runs_giveBack (a : Allocator) (key base : Nat) : (a.giveBack key).runs base = a.runs base := by
  unfold giveBack
  split <;> rfl

theorem runs_place {wanted : SlotClass} {start : Nat} (h : Opens a wanted start b) (pool : PoolId)
    (base : Nat) : (b.place key start pool).runs base = a.runs base :=
  congrArg (fun w => (w.lookup base).getD []) h.written

/-! ## Order -/

theorem Obtained.held_place {start : Nat} {wanted : SlotClass} (h : Obtained a wanted start b)
    (key : Nat) (pool : PoolId) : (b.place key start pool).held =
      ⟨(a.regs.data key).cls, start, (a.regs.data key).size⟩ :: b.held := by
  have hshape := SameButSlots.sameShape (clearSlots_foldl_setSlot (a.regs.aliases key) start a.regs)
  have hused (e : Nat × Slot) : usedRun (b.place key start pool).regs e = usedRun a.regs e := by
    rw [usedRun, usedRun, place, h.regs, hshape.cls, hshape.width]
  have hrun := map_congr_left fun e (_ : e ∈ (b.place key start pool).used) => hused e
  rw [held, hrun, held, h.regs]
  rfl

theorem Orderly.place (ha : a.Orderly) {key start : Nat} {pool : PoolId} (hlt : key < a.regs.size)
    (hkey : a.regs.keyOf key = key) (hnew : ¬ a.InUse key)
    (h : Obtained a ⟨pool, (a.regs.data key).cls, (a.regs.data key).size⟩ start b) :
    (b.place key start pool).Orderly := by
  obtain ⟨hapart, hbelow, htop⟩ := h.orderly ha
  have hshape := SameButSlots.sameShape (clearSlots_foldl_setSlot (a.regs.aliases key) start a.regs)
  have hregs : (b.place key start pool).regs =
      (a.regs.aliases key).foldl (fun f id => f.setSlot id start) a.regs := by
    rw [Allocator.place, h.regs]
  have hheld := h.held_place key pool
  refine ⟨?_, ?_, ?_, ?_, ?_, ?_, ?_, htop⟩
  · rw [hregs]
    exact hshape.valid ha.valid
  · rw [hregs, hshape.size]
    intro e he
    rw [hshape.keyOf]
    rcases mem_cons.1 he with rfl | he
    · exact ⟨hlt, hkey⟩
    · exact ha.keys e (h.used ▸ he)
  · show (key :: b.used.map (·.1)).Nodup
    rw [h.used]
    exact nodup_cons.2 ⟨hnew, ha.nodup⟩
  · rw [hheld]
    exact hapart
  · rw [hheld]
    exact hbelow
  · rw [hregs]
    intro e he id hid
    rw [hshape.aliases] at hid
    rw [data_foldl_setSlot]
    rcases mem_cons.1 he with rfl | he
    · rw [if_pos ⟨hid, ha.valid.lt_of_mem_aliases hlt hid⟩]
    · have he' : e ∈ a.used := h.used ▸ he
      rw [if_neg, ha.inUse e he' id hid]
      -- an alias of both keys would make the keys equal
      rintro ⟨hid', -⟩
      have hsame := (ha.valid.keyOf_eq_of_mem_aliases hid').symm.trans
        (ha.valid.keyOf_eq_of_mem_aliases hid)
      rw [hkey, (ha.keys e he').2] at hsame
      exact hnew (mem_map.2 ⟨e, he', hsame.symm⟩)
  · rw [hregs]
    intro id s hid hs
    rw [hshape.size] at hid
    rw [data_foldl_setSlot] at hs
    rw [hshape.width, hshape.cls]
    split at hs
    · rename_i hmem
      cases hs
      obtain ⟨hcls, hsize⟩ := ha.valid.alike_of_mem_aliases hlt hmem.1
      rw [hcls, hsize]
      exact hbelow _ (.head _)
    · exact Nat.le_trans (ha.slots hid hs) (h.top _)

theorem Orderly.giveBack_cases (ha : a.Orderly) (key : Nat) :
    a.giveBack key = a ∨ ∃ slot before after, a.used = before ++ (key, slot) :: after ∧
      a.giveBack key = { a with
        used := before ++ after
        free := (⟨slot.pool, (a.regs.data key).cls, (a.regs.data key).size⟩, slot.start) ::
          a.free } := by
  unfold giveBack
  split
  · exact .inl rfl
  rename_i slot hslot
  obtain ⟨before, after, heq, hbefore⟩ := lookup_eq_some_iff.1 hslot
  have hnodup := ha.nodup
  rw [heq, map_append, map_cons, perm_middle.nodup_iff] at hnodup
  have hafter : key ∉ (before ++ after).map (·.1) := by
    rw [map_append]
    exact (nodup_cons.1 hnodup).1
  have hfilter : a.used.filter (·.1 ≠ key) = before ++ after := by
    have hkeep : (before ++ after).filter (·.1 ≠ key) = before ++ after := by
      refine filter_eq_self.2 fun e he => ?_
      rw [decide_eq_true_eq]
      rintro rfl
      exact hafter (mem_map_of_mem he)
    rw [← hkeep, heq]
    simp
  exact .inr ⟨slot, before, after, heq, by rw [hfilter]⟩

theorem Orderly.perm_giveBack (ha : a.Orderly) (key : Nat) : a.held.Perm (a.giveBack key).held := by
  rcases ha.giveBack_cases key with h | ⟨slot, before, after, heq, h⟩ <;> rw [h]
  simp only [held, heq, map_append, map_cons, append_assoc, cons_append]
  exact List.Perm.append_left _ perm_middle.symm

theorem Orderly.giveBack (ha : a.Orderly) (key : Nat) : (a.giveBack key).Orderly := by
  have hperm := ha.perm_giveBack key
  rcases ha.giveBack_cases key with h | ⟨slot, before, after, heq, h⟩ <;> rw [h] at hperm ⊢
  · exact ha
  have hsub : (before ++ after).Sublist a.used := by
    rw [heq]
    exact List.Sublist.append_left (sublist_cons_self _ _) before
  exact ⟨ha.valid, fun e he => ha.keys e (hsub.subset he), ha.nodup.sublist (hsub.map _),
    pairwise_apart_of_perm hperm ha.apart, fun x hx => ha.below x (hperm.mem_iff.2 hx),
    fun e he => ha.inUse e (hsub.subset he), ha.slots, ha.top_le⟩

theorem Orderly.note (ha : a.Orderly) (f : RegisterFile) (r : Reg) : (a.note f r).Orderly :=
  ⟨ha.valid, ha.keys, ha.nodup, ha.apart, ha.below, ha.inUse, ha.slots, ha.top_le⟩

/-- The registers are those of the file but for their slots, the slots are orderly, and the runs
written so far lie in their registers and are apart. -/
structure Sound (f : RegisterFile) (a : Allocator) : Prop where
  valid : f.Valid
  file : SameButSlots f a.regs
  orderly : a.Orderly
  apart : ∀ base, (a.runs base).Pairwise fun p q => overlap p q = false
  inside : ∀ base, ∀ p ∈ a.runs base, p.1 + p.2 ≤ (f.data base).size

theorem slotKey_spec (hv : f.Valid) {r : Reg} (hr : f.owns r) :
    f.slotKey r < f.size ∧ f.keyOf (f.slotKey r) = f.slotKey r ∧
      f.baseOf r ∈ f.aliases (f.slotKey r) := by
  have hbase := hv.baseOf_lt (owns_iff.1 hr).2
  have hlt := hv.keyOf_lt hbase
  have hkk := hv.keyOf_keyOf hbase
  exact ⟨hlt, hkk, (hv.keyOf_eq_iff hlt hbase).1 hkk.symm⟩

theorem Sound.note (ha : Sound f a) {r : Reg} (hr : f.owns r)
    (hfresh : (a.runs (f.baseOf r)).any (overlap ((f.resolve r).2, f.sizeOf r)) = false) :
    Sound f (a.note f r) := by
  refine ⟨ha.valid, ha.file, ha.orderly.note f r, ?_, ?_⟩ <;> intro base <;> rw [runs_note] <;> split
  · rename_i h
    subst h
    refine pairwise_cons.2 ⟨?_, ha.apart _⟩
    simpa using hfresh
  · exact ha.apart base
  · rename_i h
    subst h
    exact forall_mem_cons.2 ⟨ha.valid.resolve_add_size_le (owns_iff.1 hr).2, ha.inside _⟩
  · exact ha.inside base

theorem Moves.sound {s : Step} (h : Moves f a s b) (ha : Sound f a) (hs : f.owns s.reg) :
    Sound f b := by
  have hshape := ha.file.sameShape
  cases h with
  | idle => exact ha
  | place hnew hopens =>
    obtain ⟨hlt, hkey, -⟩ := slotKey_spec ha.valid hs
    rw [← hshape.size] at hlt
    rw [← hshape.keyOf] at hkey
    rw [← hshape.cls, ← hshape.width] at hopens
    refine ⟨ha.valid, (clearSlots_foldl_setSlot _ _ _).trans ?_,
      ha.orderly.place hlt hkey hnew hopens.obtained, fun base => ?_, fun base => ?_⟩
    · rw [hopens.obtained.regs]
      exact ha.file
    · rw [runs_place hopens]
      exact ha.apart base
    · rw [runs_place hopens]
      exact ha.inside base
  | note hfresh => exact ha.note hs hfresh
  | finish hfresh =>
    have hnote := ha.note hs hfresh
    refine ⟨ha.valid, (congrArg clearSlots (regs_giveBack _ _)).trans ha.file, hnote.orderly.giveBack _,
      fun base => ?_, fun base => ?_⟩ <;> rw [runs_giveBack]
    · exact hnote.apart base
    · exact hnote.inside base

theorem Moves.inUse_need {r : Reg} {pool : PoolId} (h : Moves f a (.need r pool) b) :
    b.InUse (f.slotKey r) := by
  cases h with
  | idle h => exact h
  | place => exact .head _

theorem Sound.slot_of_mem (ha : Sound f a) {e : Nat × Slot} (he : e ∈ a.used) {id : Nat}
    (hid : id ∈ f.aliases e.1) : (a.regs.data id).slot = some e.2.start :=
  ha.orderly.inUse e he id (by rwa [ha.file.sameShape.aliases])

theorem Moves.slot_cases {s : Step} (h : Moves f a s b) (hf : SameButSlots f a.regs) :
    (∀ id, (b.regs.data id).slot = (a.regs.data id).slot) ∨
      ∃ r pool start, s = .need r pool ∧ ¬ a.InUse (f.slotKey r) ∧
        ∀ id, (b.regs.data id).slot =
          if id ∈ f.aliases (f.slotKey r) ∧ id < f.size then some start else (a.regs.data id).slot := by
  cases h with
  | idle | note => exact .inl fun _ => rfl
  | @place r pool start _ hnew hopens =>
    refine .inr ⟨r, pool, start, rfl, hnew, fun id => ?_⟩
    rw [Allocator.place, hopens.obtained.regs, hf.sameShape.aliases, data_foldl_setSlot,
      hf.sameShape.size]
    split <;> rfl
  | finish => exact .inl fun _ => by rw [regs_giveBack]; rfl

/-! ## Runs -/

/-- From the sound state `a`, steps for registers of the file lead to the state `b`. -/
inductive Runs (f : RegisterFile) : Allocator → List Step → Allocator → Prop
  | nil {a : Allocator} (ha : Sound f a) : Runs f a [] a
  | cons {a b c : Allocator} {s : Step} {ss : List Step} (ha : Sound f a) (hs : f.owns s.reg = true)
      (hmove : Moves f a s b) (hrest : Runs f b ss c) : Runs f a (s :: ss) c

theorem meets_run (ss : List Step) (hf : SameButSlots f a.regs) :
    Meets Walks (ss.forM Step.exec) a fun _ b =>
      Sound f a → (∀ s ∈ ss, f.owns s.reg = true) → Runs f a ss b := by
  induction ss generalizing a with
  | nil => exact .pure (.refl a) fun ha _ => .nil ha
  | cons s ss ih =>
    have hexec : Meets Walks s.exec a fun _ b => Moves f a s b := by
      cases s with
      | need r pool => exact meets_assign r pool hf
      | write r => exact meets_define r hf
    refine .bind hexec ?_
    intro _ b hab hmove
    refine (ih (hab.file.trans hf)).mono fun _ c _ hrest ha hss => ?_
    obtain ⟨hs, hss⟩ := forall_mem_cons.1 hss
    exact .cons ha hs hmove (hrest (hmove.sound ha hs) hss)

variable {ss : List Step}

theorem Runs.start (h : Runs f a ss b) : Sound f a := by
  cases h <;> assumption

theorem Runs.sound (h : Runs f a ss b) : Sound f b := by
  induction h with
  | nil ha => exact ha
  | cons _ _ _ _ ih => exact ih

theorem Runs.owns (h : Runs f a ss b) : ∀ s ∈ ss, f.owns s.reg := by
  induction h with
  | nil => exact fun _ h => nomatch h
  | cons _ hs _ _ ih => exact forall_mem_cons.2 ⟨hs, ih⟩

theorem Runs.append {xs ys : List Step} (h : Runs f a xs b) (h' : Runs f b ys c) :
    Runs f a (xs ++ ys) c := by
  induction h with
  | nil => exact h'
  | cons ha hs hmove _ ih => exact .cons ha hs hmove (ih h')

theorem Runs.exists_of_append {xs ys : List Step} (h : Runs f a (xs ++ ys) c) :
    ∃ b, Runs f a xs b ∧ Runs f b ys c := by
  induction xs generalizing a with
  | nil => exact ⟨a, .nil h.start, h⟩
  | cons s xs ih =>
    cases h with
    | cons ha hs hmove hrest =>
      obtain ⟨b, hxs, hys⟩ := ih hrest
      exact ⟨b, .cons ha hs hmove hxs, hys⟩

theorem Runs.isSome_slot (h : Runs f a ss b) {id : Nat} (hid : (a.regs.data id).slot.isSome = true ∨
    ∃ r pool, .need r pool ∈ ss ∧ id ∈ f.aliases (f.slotKey r)) :
    (b.regs.data id).slot.isSome := by
  induction h with
  | nil => simpa using hid
  | cons ha _ hmove hrest ih =>
    refine ih ?_
    rcases hid with hslot | ⟨r, pool, hmem, hid⟩
    · rcases hmove.slot_cases ha.file with heq | ⟨_, _, start, -, -, heq⟩ <;> rw [heq id]
      · exact .inl hslot
      · split
        · exact .inl rfl
        · exact .inl hslot
    · rcases mem_cons.1 hmem with rfl | hmem
      · obtain ⟨e, he, heq⟩ := mem_map.1 hmove.inUse_need
        exact .inl (by rw [hrest.start.slot_of_mem he (heq ▸ hid)]; rfl)
      · exact .inr ⟨r, pool, hmem, hid⟩

/-! ## The walk -/

/-- All code of the block, and what it takes over, is on registers of the file. -/
def OnFile (f : RegisterFile) (b : Block) : Prop :=
  (∀ i ∈ b.instructions, ∀ x ∈ i.accesses, f.owns x.1 = true) ∧ ∀ r ∈ b.inherited, f.owns r = true

theorem mem_needs_iff {pool : PoolId} {i : Instruction} {s : Step} :
    s ∈ needs pool i ↔ ∃ x ∈ i.accesses, s = .need x.1 pool := by
  simp only [needs, mem_map, mem_append, Instruction.mem_writes_iff, Instruction.mem_reads_iff]
  constructor
  · rintro ⟨r, ⟨access, hacc, -⟩ | ⟨access, hacc, -⟩, rfl⟩
    · exact ⟨_, hacc, rfl⟩
    · exact ⟨_, hacc, rfl⟩
  · rintro ⟨⟨r, access⟩, hacc, rfl⟩
    refine ⟨r, ?_, rfl⟩
    cases access with
    | read => exact .inr ⟨_, hacc, rfl⟩
    | write | readWrite => exact .inl ⟨_, hacc, rfl⟩

theorem owns_of_mem_steps {pool : PoolId} {i : Instruction} {s : Step} (hs : s ∈ steps pool i)
    (hi : ∀ x ∈ i.accesses, f.owns x.1) : f.owns s.reg := by
  rcases mem_append.1 hs with hs | hs
  · obtain ⟨x, hx, rfl⟩ := mem_needs_iff.1 hs
    exact hi x hx
  · obtain ⟨r, hr, rfl⟩ := mem_map.1 hs
    obtain ⟨_, hacc, -⟩ := Instruction.mem_writes_iff.1 hr
    exact hi _ hacc

theorem owns_of_mem_exported {r : Reg} (hr : r ∈ f.exported) : f.owns r := by
  obtain ⟨id, hid, rfl⟩ := mem_map.1 hr
  exact owns_iff.2 ⟨rfl, mem_range.1 (mem_filter.1 hid).1⟩

theorem owns_of_mem_walkSteps {blocks : Array Block} (h : ∀ id, OnFile f (blocks.getD id default))
    {s : Step} (hs : s ∈ walkSteps blocks f.exported) : f.owns s.reg := by
  unfold walkSteps at hs
  split at hs
  · cases hs
  · rcases mem_append.1 hs with hs | hs
    · obtain ⟨r, hr, rfl⟩ := mem_map.1 hs
      exact owns_of_mem_exported hr
    obtain ⟨⟨block, index⟩, he, hs⟩ := mem_flatMap.1 hs
    have hblock : blocks.getD index default = block := by
      have hget := mem_zipIdx_iff_getElem?.mp (mem_reverse.1 he)
      rw [Array.getElem?_toList] at hget
      rw [Array.getD_eq_getD_getElem?, hget]
      rfl
    rcases mem_append.1 hs with hs | hs
    · split at hs
      · split at hs
        · obtain ⟨id, -, hs⟩ := mem_flatMap.1 hs
          obtain ⟨r, hr, rfl⟩ := mem_map.1 hs
          exact (h id).2 r hr
        · cases hs
      · cases hs
    · obtain ⟨i, hi, hs⟩ := mem_flatMap.1 hs
      exact owns_of_mem_steps hs ((hblock ▸ h index).1 i (mem_reverse.1 hi))

theorem mem_walkSteps {blocks : Array Block} {exported : List Reg} {block : Block} {i : Instruction}
    {s : Step} (hblock : block ∈ blocks) (hi : i ∈ block.instructions) (hs : s ∈ steps block.pool i) :
    s ∈ walkSteps blocks exported := by
  obtain ⟨k, hk, rfl⟩ := Array.mem_iff_getElem.1 hblock
  have hfirst : blocks[0]? = some blocks[0] := Array.getElem?_eq_getElem (Nat.zero_lt_of_lt hk)
  rw [walkSteps, hfirst]
  refine mem_append_right _ (mem_flatMap.2 ⟨(blocks[k], k), mem_reverse.2 ?_, ?_⟩)
  · exact mem_zipIdx_iff_getElem?.mpr (by simp [hk])
  · exact mem_append_right _ (mem_flatMap.2 ⟨i, mem_reverse.2 hi, hs⟩)

theorem sound_start (hv : f.Valid) (limit : Nat) : Sound f { regs := f.clearSlots, limit } := by
  refine ⟨hv, f.clearSlots_clearSlots,
    ⟨(SameShape.clearSlots f).valid hv, nofun, .nil, .nil, nofun, nofun,
    ?_, ?_⟩, fun _ => .nil, fun _ _ h => nomatch h⟩
  · intro id s _ hs
    rw [data_clearSlots] at hs
    cases hs
  · intro cls
    simp

end Allocator

theorem exported_clearSlots (f : RegisterFile) : f.clearSlots.exported = f.exported := by
  have hsize : f.clearSlots.size = f.size := (SameShape.clearSlots f).size
  simp only [RegisterFile.exported, data_clearSlots, hsize]
  rfl

section Allocate

variable (regs : RegisterFile) (limit : Nat) (blocks : Array Block)

theorem clearSlots_allocateRegisters :
    (allocateRegisters regs limit blocks).2.clearSlots = regs.clearSlots := by
  have hmeets := meets_run (f := regs) (a := { regs := regs.clearSlots, limit })
    (walkSteps blocks regs.clearSlots.exported) regs.clearSlots_clearSlots
  unfold allocateRegisters
  rw [run_walk]
  exact hmeets.ends.file.trans regs.clearSlots_clearSlots

theorem sameShape_allocateRegisters : SameShape regs (allocateRegisters regs limit blocks).2 :=
  SameButSlots.sameShape (clearSlots_allocateRegisters regs limit blocks)

variable {regs limit blocks} {g : RegisterFile} {usage : PerClass Nat}

theorem exists_runs_of_allocateRegisters (hregs : regs.Valid)
    (howns : ∀ s ∈ walkSteps blocks regs.exported, regs.owns s.reg)
    (h : allocateRegisters regs limit blocks = (.ok usage, g)) :
    ∃ a, Allocator.Runs regs { regs := regs.clearSlots, limit }
        (walkSteps blocks regs.exported) a ∧ a.limit = limit ∧ a.top = usage ∧ a.regs = g := by
  have hmeets := meets_run (a := { regs := regs.clearSlots, limit })
    (walkSteps blocks regs.exported) regs.clearSlots_clearSlots
  unfold allocateRegisters at h
  rw [run_walk, exported_clearSlots] at h
  rcases hrun : ((walkSteps blocks regs.exported).forM Allocator.Step.exec).run
    { regs := regs.clearSlots, limit } with ⟨result, a⟩
  have hends := hmeets.ends
  rw [hrun] at h hends
  obtain ⟨hresult, rfl⟩ := Prod.mk.inj h
  cases result with
  | error e => cases hresult
  | ok u =>
    cases hresult
    exact ⟨a, hmeets.result _ _ hrun (sound_start hregs limit) howns, hends.limit, rfl, rfl⟩

theorem allocateRegisters_spec (hregs : regs.Valid)
    (hblocks : ∀ id, Allocator.OnFile regs (blocks.getD id default))
    (h : allocateRegisters regs limit blocks = (.ok usage, g)) :
    (∀ cls, usage.get cls ≤ limit) ∧
      ∀ block ∈ blocks, ∀ i ∈ block.instructions, ∀ x ∈ i.accesses,
        ∃ s, (g.data (g.baseOf x.1)).slot = some s ∧
          s + (g.data (g.baseOf x.1)).size ≤ usage.get (g.data (g.baseOf x.1)).cls := by
  have howns (s : Allocator.Step) (hs : s ∈ walkSteps blocks regs.exported) :=
    owns_of_mem_walkSteps hblocks hs
  obtain ⟨a, hruns, rfl, rfl, rfl⟩ := exists_runs_of_allocateRegisters hregs howns h
  have ha := hruns.sound
  have hshape := ha.file.sameShape
  refine ⟨ha.orderly.top_le, ?_⟩
  intro block hblock i hi x hx
  have hneed : Allocator.Step.need x.1 block.pool ∈ walkSteps blocks regs.exported :=
    mem_walkSteps hblock hi (mem_append_left _ (mem_needs_iff.2 ⟨x, hx, rfl⟩))
  have hx' := howns _ hneed
  have hslot := hruns.isSome_slot
    (.inr ⟨x.1, block.pool, hneed, (slotKey_spec hregs hx').2.2⟩)
  rw [hshape.baseOf]
  obtain ⟨s, hs⟩ := Option.isSome_iff_exists.1 hslot
  refine ⟨s, hs, ha.orderly.slots ?_ hs⟩
  rw [hshape.size]
  exact hregs.baseOf_lt (owns_iff.1 hx').2

end Allocate

theorem sameShape_keepVirtual (regs : RegisterFile) (limit : Nat) :
    SameShape regs (keepVirtual regs limit).2 := by
  unfold keepVirtual
  simp only []
  split <;> exact SameShape.clearSlots regs

theorem keepVirtual_spec {regs g : RegisterFile} {limit : Nat} {usage : PerClass Nat}
    (h : keepVirtual regs limit = (.ok usage, g)) :
    g = regs.clearSlots ∧ usage = regs.counters ∧ ∀ cls, usage.get cls ≤ limit := by
  unfold keepVirtual at h
  simp only [] at h
  split at h
  · cases h
  · rename_i hnone
    cases h
    refine ⟨rfl, rfl, ?_⟩
    intro cls
    have hcls := find?_eq_none.1 hnone cls (by cases cls <;> decide)
    simpa using hcls

end SecureTape
