import Mathlib.Tactic.Common
import SecureTape.Register.File

/-!
# Valid register files

Main statements:
1. `Valid` holds of the empty file and is kept by every change of a file: views lie in base
   registers, and alias sets hold exactly the base registers that belong to them.
2. `keyOf_eq_iff`: in a valid file two base registers have the same slot key exactly when one is
   an alias of the other.
3. `Extends`: what a file says of its registers stays as it is when registers are added.
4. `Keeps`: whatever is done to a file, its registers keep their classes, sizes, numbers and views.
-/

namespace SecureTape

theorem getD_modify {α : Type} (xs : Array α) (d : α) (i j : Nat) (f : α → α) :
    (xs.modify i f).getD j d = if j = i ∧ i < xs.size then f (xs.getD i d) else xs.getD j d := by
  simp only [Array.getD_eq_getD_getElem?, Array.getElem?_modify]
  by_cases hj : i = j
  · subst hj
    by_cases hlt : i < xs.size
    · simp [hlt]
    · simp [hlt]
  · simp [hj, Ne.symm hj]

theorem getD_push {α : Type} (xs : Array α) (d x : α) (j : Nat) :
    (xs.push x).getD j d = if j = xs.size then x else xs.getD j d := by
  simp only [Array.getD_eq_getD_getElem?, Array.getElem?_push]
  split <;> rfl

namespace RegisterFile

/-! ## Fields of changed files -/

section

variable (f : RegisterFile) (id : Nat) (h : RegisterData → RegisterData)

theorem data_modify (j : Nat) :
    (f.modify id h).data j = if j = id ∧ id < f.size then h (f.data id) else f.data j :=
  getD_modify f.regs default id j h

@[simp] theorem size_modify : (f.modify id h).size = f.size := by
  simp [modify, size]

@[simp] theorem aliasSets_modify : (f.modify id h).aliasSets = f.aliasSets := rfl

theorem data_push (d : RegisterData) (j : Nat) :
    (f.push d).2.data j = if j = f.size then d else f.data j :=
  getD_push f.regs default d j

@[simp] theorem size_push (d : RegisterData) : (f.push d).2.size = f.size + 1 := by
  simp [push, size]

theorem data_clearSlots : f.clearSlots.data id = { f.data id with slot := none } := by
  simp only [data, clearSlots, Array.getD_eq_getD_getElem?, Array.getElem?_map]
  cases f.regs[id]? <;> rfl

end

variable {f g : RegisterFile}

def members (f : RegisterFile) (set : Nat) : List Nat := f.aliasSets.getD set []

/-- The base register that stands for a base register and all that is linked to it. -/
def keyOf (f : RegisterFile) (base : Nat) : Nat :=
  match (f.data base).aliasSet with
  | some set => (f.members set).head?.getD base
  | none => base

theorem aliases_of_none {base : Nat} (h : (f.data base).aliasSet = none) :
    f.aliases base = [base] := by
  rw [aliases, h]

theorem aliases_of_some {base set : Nat} (h : (f.data base).aliasSet = some set) :
    f.aliases base = f.members set := by
  rw [aliases, h]
  rfl

theorem mem_aliases_cases {a b : Nat} (h : b ∈ f.aliases a) :
    b = a ∨ ∃ set, (f.data a).aliasSet = some set ∧ b ∈ f.members set := by
  cases hset : (f.data a).aliasSet with
  | none => exact .inl (List.mem_singleton.1 (aliases_of_none hset ▸ h))
  | some set => exact .inr ⟨set, rfl, aliases_of_some hset ▸ h⟩

theorem slotKey_eq_keyOf (f : RegisterFile) (r : Reg) : f.slotKey r = f.keyOf (f.baseOf r) := rfl

theorem owns_iff {r : Reg} : f.owns r ↔ r.tape = f.tape ∧ r.id < f.size := by
  simp [owns]

/-! ## Valid files -/

/-- Base registers lie below the counter of their class, views lie in base registers, and the alias
sets are disjoint sets of base registers of one class and size. -/
structure Valid (f : RegisterFile) : Prop where
  base : ∀ {id : Nat}, id < f.size → (f.data id).view = none →
    (f.data id).index + (f.data id).size ≤ f.counters.get (f.data id).cls
  view : ∀ {id base offset : Nat}, id < f.size → (f.data id).view = some (base, offset) →
    base < f.size ∧ (f.data base).view = none ∧ (f.data base).cls = (f.data id).cls ∧
      offset + (f.data id).size ≤ (f.data base).size
  mem_members : ∀ {id set : Nat}, id < f.size → (f.data id).aliasSet = some set →
    id ∈ f.members set
  of_mem_members : ∀ {id set : Nat}, id ∈ f.members set →
    id < f.size ∧ (f.data id).view = none ∧ (f.data id).aliasSet = some set
  alike : ∀ {a b set : Nat}, a ∈ f.members set → b ∈ f.members set →
    (f.data a).cls = (f.data b).cls ∧ (f.data a).size = (f.data b).size

theorem valid_new (tape : TapeId) : (new tape).Valid := by
  have hnone (set : Nat) : (new tape).members set = [] := by simp [members, new]
  refine ⟨?_, ?_, ?_, ?_, ?_⟩
  · intro id hid
    simp [new, size] at hid
  · intro id base offset hid
    simp [new, size] at hid
  · intro id set hid
    simp [new, size] at hid
  · intro id set hmem
    simp [hnone] at hmem
  · intro a b set hmem
    simp [hnone] at hmem

namespace Valid

variable {r : Reg} {base a b : Nat}

theorem baseOf_lt (hf : f.Valid) (hr : r.id < f.size) : f.baseOf r < f.size := by
  unfold baseOf resolve
  cases hv : (f.data r.id).view with
  | none => exact hr
  | some v => exact (hf.view hr hv).1

theorem view_baseOf (hf : f.Valid) (hr : r.id < f.size) : (f.data (f.baseOf r)).view = none := by
  unfold baseOf resolve
  cases hv : (f.data r.id).view with
  | none => exact hv
  | some v => exact (hf.view hr hv).2.1

theorem resolve_add_size_le (hf : f.Valid) (hr : r.id < f.size) :
    (f.resolve r).2 + f.sizeOf r ≤ (f.data (f.baseOf r)).size := by
  unfold baseOf resolve sizeOf
  cases hv : (f.data r.id).view with
  | none => simp
  | some v => exact (hf.view hr hv).2.2.2

theorem cls_baseOf (hf : f.Valid) (hr : r.id < f.size) :
    (f.data (f.baseOf r)).cls = f.classOf r := by
  unfold baseOf resolve classOf
  cases hv : (f.data r.id).view with
  | none => rfl
  | some v => exact (hf.view hr hv).2.2.1

theorem keyOf_mem_members (hf : f.Valid) {set : Nat} (hb : base < f.size)
    (hset : (f.data base).aliasSet = some set) : f.keyOf base ∈ f.members set := by
  have hmem := hf.mem_members hb hset
  obtain ⟨first, rest, hcons⟩ := List.exists_cons_of_ne_nil (List.ne_nil_of_mem hmem)
  simp [keyOf, hset, hcons]

theorem mem_aliases_self (hf : f.Valid) (hb : base < f.size) : base ∈ f.aliases base := by
  cases hset : (f.data base).aliasSet with
  | none => simp [aliases_of_none hset]
  | some set =>
    rw [aliases_of_some hset]
    exact hf.mem_members hb hset

theorem keyOf_mem_aliases (hf : f.Valid) (hb : base < f.size) : f.keyOf base ∈ f.aliases base := by
  cases hset : (f.data base).aliasSet with
  | none => simp [aliases_of_none hset, keyOf, hset]
  | some set =>
    rw [aliases_of_some hset]
    exact hf.keyOf_mem_members hb hset

theorem aliases_eq_of_mem (hf : f.Valid) (h : b ∈ f.aliases a) : f.aliases b = f.aliases a := by
  obtain rfl | ⟨set, hset, h⟩ := mem_aliases_cases h
  · rfl
  · rw [aliases_of_some hset, aliases_of_some (hf.of_mem_members h).2.2]

theorem lt_of_mem_aliases (hf : f.Valid) (ha : a < f.size) (h : b ∈ f.aliases a) : b < f.size := by
  obtain rfl | ⟨set, -, h⟩ := mem_aliases_cases h
  · exact ha
  · exact (hf.of_mem_members h).1

theorem keyOf_eq_of_mem_aliases (hf : f.Valid) (h : b ∈ f.aliases a) : f.keyOf b = f.keyOf a := by
  obtain rfl | ⟨set, hset, h⟩ := mem_aliases_cases h
  · rfl
  · obtain ⟨first, rest, hcons⟩ := List.exists_cons_of_ne_nil (List.ne_nil_of_mem h)
    simp [keyOf, hset, (hf.of_mem_members h).2.2, hcons]

theorem keyOf_eq_iff (hf : f.Valid) (ha : a < f.size) (hb : b < f.size) :
    f.keyOf b = f.keyOf a ↔ b ∈ f.aliases a := by
  refine ⟨?_, hf.keyOf_eq_of_mem_aliases⟩
  intro h
  have hka := hf.keyOf_mem_aliases ha
  have hkb := hf.keyOf_mem_aliases hb
  rw [h] at hkb
  rw [← hf.aliases_eq_of_mem hka, hf.aliases_eq_of_mem hkb]
  exact hf.mem_aliases_self hb

theorem keyOf_lt (hf : f.Valid) (ha : a < f.size) : f.keyOf a < f.size :=
  hf.lt_of_mem_aliases ha (hf.keyOf_mem_aliases ha)

theorem keyOf_keyOf (hf : f.Valid) (ha : a < f.size) : f.keyOf (f.keyOf a) = f.keyOf a :=
  hf.keyOf_eq_of_mem_aliases (hf.keyOf_mem_aliases ha)

theorem alike_of_mem_aliases (hf : f.Valid) (ha : a < f.size) (h : b ∈ f.aliases a) :
    (f.data b).cls = (f.data a).cls ∧ (f.data b).size = (f.data a).size := by
  cases hset : (f.data a).aliasSet with
  | none =>
    rw [aliases_of_none hset] at h
    rw [List.mem_singleton.1 h]
    exact ⟨rfl, rfl⟩
  | some set =>
    rw [aliases_of_some hset] at h
    exact hf.alike h (hf.mem_members ha hset)

end Valid

/-! ## Files of the same shape -/

/-- The files differ at most in protection, export and slots. -/
structure SameShape (f g : RegisterFile) : Prop where
  tape : g.tape = f.tape
  size : g.size = f.size
  counters : g.counters = f.counters
  aliasSets : g.aliasSets = f.aliasSets
  cls : ∀ id, (g.data id).cls = (f.data id).cls
  width : ∀ id, (g.data id).size = (f.data id).size
  index : ∀ id, (g.data id).index = (f.data id).index
  view : ∀ id, (g.data id).view = (f.data id).view
  aliasSet : ∀ id, (g.data id).aliasSet = (f.data id).aliasSet

namespace SameShape

theorem refl (f : RegisterFile) : SameShape f f :=
  ⟨rfl, rfl, rfl, rfl, fun _ => rfl, fun _ => rfl, fun _ => rfl, fun _ => rfl, fun _ => rfl⟩

theorem trans {h : RegisterFile} (hfg : SameShape f g) (hgh : SameShape g h) :
    SameShape f h where
  tape := hgh.tape.trans hfg.tape
  size := hgh.size.trans hfg.size
  counters := hgh.counters.trans hfg.counters
  aliasSets := hgh.aliasSets.trans hfg.aliasSets
  cls id := (hgh.cls id).trans (hfg.cls id)
  width id := (hgh.width id).trans (hfg.width id)
  index id := (hgh.index id).trans (hfg.index id)
  view id := (hgh.view id).trans (hfg.view id)
  aliasSet id := (hgh.aliasSet id).trans (hfg.aliasSet id)

theorem modify (f : RegisterFile) (id : Nat) {h : RegisterData → RegisterData}
    (hh : ∀ d, (h d).cls = d.cls ∧ (h d).size = d.size ∧ (h d).index = d.index ∧
      (h d).view = d.view ∧ (h d).aliasSet = d.aliasSet) : SameShape f (f.modify id h) := by
  have hdata (j : Nat) : (f.modify id h).data j = f.data j ∨
      (f.modify id h).data j = h (f.data j) := by
    rw [data_modify]
    split
    · rename_i hj
      rw [hj.1]
      exact .inr rfl
    · exact .inl rfl
  refine ⟨rfl, size_modify f id h, rfl, rfl, ?_, ?_, ?_, ?_, ?_⟩ <;> intro j <;>
    rcases hdata j with hj | hj <;> rw [hj]
  · exact (hh _).1
  · exact (hh _).2.1
  · exact (hh _).2.2.1
  · exact (hh _).2.2.2.1
  · exact (hh _).2.2.2.2

theorem foldl {α : Type} {step : RegisterFile → α → RegisterFile}
    (hstep : ∀ f a, SameShape f (step f a)) (as : List α) (f : RegisterFile) :
    SameShape f (as.foldl step f) := by
  induction as generalizing f with
  | nil => exact refl f
  | cons a as ih => exact (hstep f a).trans (ih (step f a))

theorem pin (f : RegisterFile) (id : Nat) : SameShape f (f.pin id) :=
  modify f id fun _ => ⟨rfl, rfl, rfl, rfl, rfl⟩

theorem keep (f : RegisterFile) (r : Reg) : SameShape f (f.keep r) :=
  (foldl pin _ f).trans (pin _ _)

theorem markExported (f : RegisterFile) (r : Reg) : SameShape f (f.markExported r) :=
  (keep f r).trans (modify _ _ fun _ => ⟨rfl, rfl, rfl, rfl, rfl⟩)

theorem clearSlots (f : RegisterFile) : SameShape f f.clearSlots := by
  refine ⟨rfl, by simp [RegisterFile.size, RegisterFile.clearSlots], rfl, rfl, ?_, ?_, ?_, ?_, ?_⟩ <;>
    intro id <;> rw [data_clearSlots]

variable (h : SameShape f g)

include h

theorem resolve (r : Reg) : g.resolve r = f.resolve r := by
  rw [RegisterFile.resolve, RegisterFile.resolve, h.view]

theorem baseOf (r : Reg) : g.baseOf r = f.baseOf r := by
  rw [RegisterFile.baseOf, RegisterFile.baseOf, h.resolve]

theorem sizeOf (r : Reg) : g.sizeOf r = f.sizeOf r := h.width r.id

theorem owns (r : Reg) : g.owns r = f.owns r := by
  rw [RegisterFile.owns, RegisterFile.owns, h.tape, h.size]

theorem members (set : Nat) : g.members set = f.members set := by
  rw [RegisterFile.members, RegisterFile.members, h.aliasSets]

theorem aliases (base : Nat) : g.aliases base = f.aliases base := by
  rw [RegisterFile.aliases, RegisterFile.aliases, h.aliasSet, h.aliasSets]

theorem keyOf (base : Nat) : g.keyOf base = f.keyOf base := by
  simp only [RegisterFile.keyOf, h.aliasSet, h.members]

theorem slotKey (r : Reg) : g.slotKey r = f.slotKey r := by
  rw [slotKey_eq_keyOf, slotKey_eq_keyOf, h.keyOf, h.baseOf]

theorem valid (hf : f.Valid) : g.Valid := by
  refine ⟨?_, ?_, ?_, ?_, ?_⟩
  · intro id hid hv
    rw [h.index, h.width, h.cls, h.counters]
    exact hf.base (h.size ▸ hid) (h.view id ▸ hv)
  · intro id base offset hid hv
    rw [h.size, h.view, h.cls, h.cls, h.width, h.width]
    exact hf.view (h.size ▸ hid) (h.view id ▸ hv)
  · intro id set hid hset
    rw [h.members]
    exact hf.mem_members (h.size ▸ hid) (h.aliasSet id ▸ hset)
  · intro id set hmem
    rw [h.size, h.view, h.aliasSet]
    exact hf.of_mem_members (h.members set ▸ hmem)
  · intro a b set ha hb
    rw [h.cls, h.cls, h.width, h.width]
    exact hf.alike (h.members set ▸ ha) (h.members set ▸ hb)

end SameShape

/-! ## Files with more registers -/

/-- The file `g` has the registers of `f` and perhaps more, and links nothing else. -/
structure Extends (f g : RegisterFile) : Prop where
  tape : g.tape = f.tape
  size_le : f.size ≤ g.size
  data : ∀ id, id < f.size → g.data id = f.data id
  aliasSets : g.aliasSets = f.aliasSets

namespace Extends

theorem refl (f : RegisterFile) : Extends f f := ⟨rfl, Nat.le_refl _, fun _ _ => rfl, rfl⟩

theorem trans {h : RegisterFile} (hfg : Extends f g) (hgh : Extends g h) : Extends f h where
  tape := hgh.tape.trans hfg.tape
  size_le := Nat.le_trans hfg.size_le hgh.size_le
  data id hid := (hgh.data id (Nat.lt_of_lt_of_le hid hfg.size_le)).trans (hfg.data id hid)
  aliasSets := hgh.aliasSets.trans hfg.aliasSets

theorem push (f : RegisterFile) (d : RegisterData) : Extends f (f.push d).2 where
  tape := rfl
  size_le := by simp
  data id hid := by rw [data_push, if_neg (Nat.ne_of_lt hid)]
  aliasSets := rfl

variable (h : Extends f g)

include h

variable {r : Reg} {base : Nat}

theorem owns (hr : f.owns r) : g.owns r := by
  rw [owns_iff] at hr ⊢
  exact ⟨hr.1.trans h.tape.symm, Nat.lt_of_lt_of_le hr.2 h.size_le⟩

theorem resolve (hr : r.id < f.size) : g.resolve r = f.resolve r := by
  rw [RegisterFile.resolve, RegisterFile.resolve, h.data _ hr]

theorem baseOf (hr : r.id < f.size) : g.baseOf r = f.baseOf r := by
  rw [RegisterFile.baseOf, RegisterFile.baseOf, h.resolve hr]

theorem sizeOf (hr : r.id < f.size) : g.sizeOf r = f.sizeOf r := by
  rw [RegisterFile.sizeOf, RegisterFile.sizeOf, h.data _ hr]

theorem members (set : Nat) : g.members set = f.members set := by
  rw [RegisterFile.members, RegisterFile.members, h.aliasSets]

theorem aliases (hb : base < f.size) : g.aliases base = f.aliases base := by
  rw [RegisterFile.aliases, RegisterFile.aliases, h.data _ hb, h.aliasSets]

theorem keyOf (hb : base < f.size) : g.keyOf base = f.keyOf base := by
  simp only [RegisterFile.keyOf, h.data _ hb, h.members]

theorem slotKey (hf : f.Valid) (hr : r.id < f.size) : g.slotKey r = f.slotKey r := by
  rw [slotKey_eq_keyOf, slotKey_eq_keyOf, h.baseOf hr, h.keyOf (hf.baseOf_lt hr)]

/-- A new register is linked to nothing. -/
theorem aliasSet_of_new (hf : f.Valid) (hg : g.Valid) (hb : base < g.size) (hnew : ¬base < f.size) :
    (g.data base).aliasSet = none := by
  cases hset : (g.data base).aliasSet with
  | none => rfl
  | some set => exact absurd (hf.of_mem_members (h.members set ▸ hg.mem_members hb hset)).1 hnew

theorem isEliminable (hf : f.Valid) (hb : base < f.size) :
    g.isEliminable base = f.isEliminable base := by
  rw [RegisterFile.isEliminable, RegisterFile.isEliminable, h.aliases hb, Bool.eq_iff_iff,
    List.all_eq_true, List.all_eq_true]
  refine forall₂_congr fun id hid => ?_
  rw [h.data id (hf.lt_of_mem_aliases hb hid)]

end Extends

/-! ## Files that keep registers -/

/-- The file `g` has the registers of `f` with their classes, sizes, numbers and views. -/
structure Keeps (f g : RegisterFile) : Prop where
  tape : g.tape = f.tape
  size_le : f.size ≤ g.size
  cls : ∀ {id}, id < f.size → (g.data id).cls = (f.data id).cls
  width : ∀ {id}, id < f.size → (g.data id).size = (f.data id).size
  index : ∀ {id}, id < f.size → (g.data id).index = (f.data id).index
  view : ∀ {id}, id < f.size → (g.data id).view = (f.data id).view

namespace Keeps

theorem refl (f : RegisterFile) : Keeps f f :=
  ⟨rfl, Nat.le_refl _, fun _ => rfl, fun _ => rfl, fun _ => rfl, fun _ => rfl⟩

theorem trans {h : RegisterFile} (hfg : Keeps f g) (hgh : Keeps g h) : Keeps f h where
  tape := hgh.tape.trans hfg.tape
  size_le := Nat.le_trans hfg.size_le hgh.size_le
  cls hid := (hgh.cls (Nat.lt_of_lt_of_le hid hfg.size_le)).trans (hfg.cls hid)
  width hid := (hgh.width (Nat.lt_of_lt_of_le hid hfg.size_le)).trans (hfg.width hid)
  index hid := (hgh.index (Nat.lt_of_lt_of_le hid hfg.size_le)).trans (hfg.index hid)
  view hid := (hgh.view (Nat.lt_of_lt_of_le hid hfg.size_le)).trans (hfg.view hid)

variable (h : Keeps f g)

include h

variable {r : Reg}

theorem owns (hr : f.owns r) : g.owns r := by
  obtain ⟨htape, hid⟩ := owns_iff.1 hr
  exact owns_iff.2 ⟨htape.trans h.tape.symm, Nat.lt_of_lt_of_le hid h.size_le⟩

theorem classOf (hr : f.owns r) : g.classOf r = f.classOf r :=
  h.cls (owns_iff.1 hr).2

theorem sizeOf (hr : f.owns r) : g.sizeOf r = f.sizeOf r :=
  h.width (owns_iff.1 hr).2

end Keeps

theorem SameShape.keeps (h : SameShape f g) : Keeps f g :=
  ⟨h.tape, Nat.le_of_eq h.size.symm, fun _ => h.cls _, fun _ => h.width _, fun _ => h.index _,
    fun _ => h.view _⟩

theorem Extends.keeps (h : Extends f g) : Keeps f g := by
  refine ⟨h.tape, h.size_le, ?_, ?_, ?_, ?_⟩ <;> intro id hid <;> rw [h.data id hid]

/-! ## New registers -/

theorem Valid.push (hf : f.Valid) {d : RegisterData} (hset : d.aliasSet = none)
    (hbase : d.view = none → d.index + d.size ≤ f.counters.get d.cls)
    (hview : ∀ base offset, d.view = some (base, offset) →
      base < f.size ∧ (f.data base).view = none ∧ (f.data base).cls = d.cls ∧
        offset + d.size ≤ (f.data base).size) : (f.push d).2.Valid := by
  have hext := Extends.push f d
  have hnew : (f.push d).2.data f.size = d := by rw [data_push, if_pos rfl]
  have hmembers (set : Nat) : (f.push d).2.members set = f.members set := rfl
  have hid {id : Nat} (h : id < (f.push d).2.size) : id < f.size ∨ id = f.size := by
    rw [size_push] at h
    omega
  refine ⟨?_, ?_, ?_, ?_, ?_⟩
  · intro id hlt hv
    rcases hid hlt with hlt | rfl
    · rw [hext.data id hlt] at hv ⊢
      exact hf.base hlt hv
    · rw [hnew] at hv ⊢
      exact hbase hv
  · intro id base offset hlt hv
    have hold : base < f.size → (f.push d).2.data base = f.data base := hext.data base
    rw [size_push]
    rcases hid hlt with hlt | rfl
    · rw [hext.data id hlt] at hv ⊢
      obtain ⟨hb, hrest⟩ := hf.view hlt hv
      rw [hold hb]
      exact ⟨by omega, hrest⟩
    · rw [hnew] at hv ⊢
      obtain ⟨hb, hrest⟩ := hview base offset hv
      rw [hold hb]
      exact ⟨by omega, hrest⟩
  · intro id set hlt hs
    rcases hid hlt with hlt | rfl
    · rw [hext.data id hlt] at hs
      exact hf.mem_members hlt hs
    · rw [hnew, hset] at hs
      cases hs
  · intro id set hmem
    obtain ⟨hlt, hrest⟩ := hf.of_mem_members (hmembers set ▸ hmem)
    rw [hext.data id hlt, size_push]
    exact ⟨by omega, hrest⟩
  · intro a b set ha hb
    rw [hmembers] at ha hb
    rw [hext.data a (hf.of_mem_members ha).1, hext.data b (hf.of_mem_members hb).1]
    exact hf.alike ha hb

theorem of_create_eq_ok {cls : RegisterClass} {size : Nat} {r : Reg}
    (h : f.create cls size = .ok (r, g)) :
    Extends f g ∧ g.size = f.size + 1 ∧ r = f.handle f.size ∧ (f.Valid → g.Valid) ∧
      ∃ index, g.data f.size = { cls, size, index } := by
  simp only [create] at h
  split at h
  · cases h
  · cases h
    let d : RegisterData := { cls, size, index := f.counters.get cls }
    let f' : RegisterFile := { f with counters := f.counters.set cls (f.counters.get cls + size) }
    have hext : Extends f (f.push d).2 := .push f d
    refine ⟨⟨hext.tape, hext.size_le, hext.data, hext.aliasSets⟩, size_push f d, rfl, ?_,
      _, (data_push f d f.size).trans (if_pos rfl)⟩
    intro hf
    have hf' : f'.Valid := by
      refine ⟨?_, hf.view, hf.mem_members, hf.of_mem_members, hf.alike⟩
      intro id hid hv
      have hle := hf.base hid hv
      show (f.data id).index + (f.data id).size ≤ (f.counters.set cls _).get (f.data id).cls
      rw [PerClass.get_set]
      split
      · rename_i hcls
        rw [hcls] at hle
        omega
      · exact hle
    exact hf'.push (d := d) rfl (fun _ => Nat.le_of_eq (by simp [d, f'])) (by simp [d])

theorem of_viewOf_eq_ok {r v : Reg} {start size : Nat} (hf : f.Valid) (hr : f.owns r)
    (h : f.viewOf r start size = .ok (v, g)) :
    Extends f g ∧ g.Valid ∧ g.owns v ∧ g.baseOf v = f.baseOf r ∧ g.sizeOf v = size ∧
      (g.resolve v).2 = (f.resolve r).2 + start ∧ start + size ≤ f.sizeOf r := by
  obtain ⟨-, hlt⟩ := owns_iff.1 hr
  have hbase := hf.baseOf_lt hlt
  have hview := hf.view_baseOf hlt
  have hfit := hf.resolve_add_size_le hlt
  simp only [viewOf] at h
  split at h
  · cases h
  split at h
  · cases h
  rename_i htotal
  split at h
  · rename_i hwhole
    obtain ⟨rfl, rfl⟩ := Prod.mk.inj (Except.ok.inj h)
    have hres : f.resolve (f.handle (f.baseOf r)) = (f.baseOf r, 0) := by
      rw [resolve, show (f.data (f.handle (f.baseOf r)).id).view = none from hview]
      rfl
    refine ⟨.refl f, hf, owns_iff.2 ⟨rfl, hbase⟩, ?_, hwhole.2.symm, ?_, by omega⟩
    · show (f.resolve (f.handle (f.baseOf r))).1 = _
      rw [hres]
    · show (f.resolve (f.handle (f.baseOf r))).2 = _
      rw [hres, hwhole.1]
  · let d : RegisterData :=
      { cls := (f.data (f.baseOf r)).cls, size
        index := (f.data (f.baseOf r)).index + (f.resolve r).2 + start
        view := some (f.baseOf r, (f.resolve r).2 + start)
        eliminable := (f.data (f.baseOf r)).eliminable }
    have hpush : f.push d = (v, g) := Except.ok.inj h
    have hv : v = f.handle f.size := (congrArg Prod.fst hpush).symm
    have hg : g = (f.push d).2 := (congrArg Prod.snd hpush).symm
    subst hv hg
    have hdata : (f.push d).2.data f.size = d := (data_push f d f.size).trans (if_pos rfl)
    have hres : (f.push d).2.resolve (f.handle f.size) = (f.baseOf r, (f.resolve r).2 + start) := by
      rw [resolve, show (f.handle f.size).id = f.size from rfl, hdata]
      rfl
    refine ⟨.push f d, hf.push rfl nofun ?_, owns_iff.2 ⟨rfl, by simp [handle]⟩, ?_, ?_, ?_,
      by omega⟩
    · intro base offset hv
      obtain ⟨rfl, rfl⟩ := Prod.mk.inj (Option.some.inj hv)
      refine ⟨hbase, hview, rfl, ?_⟩
      show (f.resolve r).2 + start + size ≤ (f.data (f.baseOf r)).size
      omega
    · rw [baseOf, hres]
    · exact congrArg RegisterData.size hdata
    · rw [hres]

/-! ## Links -/

theorem data_foldl_joined (moved : List Nat) (set : Nat) (f : RegisterFile) (j : Nat) :
    (moved.foldl (fun f id => f.modify id ({ · with aliasSet := some set })) f).data j =
      if j ∈ moved ∧ j < f.size then { f.data j with aliasSet := some set } else f.data j := by
  induction moved generalizing f with
  | nil => simp
  | cons m moved ih =>
    rw [List.foldl_cons, ih, size_modify, data_modify]
    by_cases hj : j = m
    · subst hj
      by_cases hlt : j < f.size <;> simp [hlt]
    · simp [hj]

theorem foldl_joined_eq (moved : List Nat) (set : Nat) (f : RegisterFile) :
    (moved.foldl (fun f id => f.modify id ({ · with aliasSet := some set })) f).size = f.size ∧
      (moved.foldl (fun f id => f.modify id ({ · with aliasSet := some set })) f).aliasSets =
        f.aliasSets ∧
      (moved.foldl (fun f id => f.modify id ({ · with aliasSet := some set })) f).tape = f.tape ∧
      (moved.foldl (fun f id => f.modify id ({ · with aliasSet := some set })) f).counters =
        f.counters := by
  induction moved generalizing f with
  | nil => exact ⟨rfl, rfl, rfl, rfl⟩
  | cons m moved ih =>
    rw [List.foldl_cons]
    have hrest := ih (f.modify m ({ · with aliasSet := some set }))
    rw [size_modify] at hrest
    exact hrest

/-- The two files have the same registers, up to the alias sets that these belong to. -/
structure Relabeled (f g : RegisterFile) : Prop where
  tape : g.tape = f.tape
  size : g.size = f.size
  counters : g.counters = f.counters
  data : ∀ id, ∃ set, g.data id = { f.data id with aliasSet := set }

theorem Relabeled.keeps (h : Relabeled f g) : Keeps f g := by
  refine ⟨h.tape, Nat.le_of_eq h.size.symm, ?_, ?_, ?_, ?_⟩ <;> intro id _ <;>
    obtain ⟨set, hd⟩ := h.data id <;> rw [hd]

variable {id set a b : Nat}

theorem Valid.relabel (hf : f.Valid) (h : Relabeled f g)
    (hmem : ∀ {id set : Nat}, id < f.size → (g.data id).aliasSet = some set → id ∈ g.members set)
    (hof : ∀ {id set : Nat}, id ∈ g.members set →
      id < f.size ∧ (f.data id).view = none ∧ (g.data id).aliasSet = some set)
    (halike : ∀ {a b set : Nat}, a ∈ g.members set → b ∈ g.members set →
      (f.data a).cls = (f.data b).cls ∧ (f.data a).size = (f.data b).size) : g.Valid := by
  have hsame (id : Nat) : (g.data id).cls = (f.data id).cls ∧
      (g.data id).size = (f.data id).size ∧ (g.data id).view = (f.data id).view := by
    obtain ⟨set, hd⟩ := h.data id
    rw [hd]
    exact ⟨rfl, rfl, rfl⟩
  refine ⟨?_, ?_, ?_, ?_, ?_⟩
  · intro id hid hv
    obtain ⟨set, hd⟩ := h.data id
    rw [h.size] at hid
    rw [hd] at hv ⊢
    rw [h.counters]
    exact hf.base hid hv
  · intro id base offset hid hv
    rw [h.size, (hsame base).1, (hsame id).1, (hsame base).2.1, (hsame id).2.1, (hsame base).2.2]
    exact hf.view (h.size ▸ hid) ((hsame id).2.2 ▸ hv)
  · intro id set hid
    exact hmem (h.size ▸ hid)
  · intro id set hid
    rw [h.size, (hsame id).2.2]
    exact hof hid
  · intro a b set ha hb
    rw [(hsame a).1, (hsame b).1, (hsame a).2.1, (hsame b).2.1]
    exact halike ha hb

/-- Two base registers that can be linked. -/
structure Linkable (f : RegisterFile) (a b : Nat) : Prop where
  left : a < f.size ∧ (f.data a).view = none
  right : b < f.size ∧ (f.data b).view = none
  ne : a ≠ b
  alike : (f.data a).cls = (f.data b).cls ∧ (f.data a).size = (f.data b).size

theorem set_lt_of_mem (h : id ∈ f.members set) : set < f.aliasSets.size := by
  by_contra hge
  simp [members, Array.getD_eq_getD_getElem?, Array.getElem?_eq_none (Nat.le_of_not_lt hge)] at h

theorem Valid.of_mem_aliases (hf : f.Valid) (ha : a < f.size ∧ (f.data a).view = none)
    (h : id ∈ f.aliases a) : (id < f.size ∧ (f.data id).view = none) ∧
      (f.data id).cls = (f.data a).cls ∧ (f.data id).size = (f.data a).size := by
  refine ⟨⟨hf.lt_of_mem_aliases ha.1 h, ?_⟩, hf.alike_of_mem_aliases ha.1 h⟩
  cases hset : (f.data a).aliasSet with
  | none =>
    rw [aliases_of_none hset] at h
    rw [List.mem_singleton.1 h]
    exact ha.2
  | some set =>
    rw [aliases_of_some hset] at h
    exact (hf.of_mem_members h).2.1

/-- A register shares a slot with `a` or `b`. -/
def Either (f : RegisterFile) (a b id : Nat) : Prop := id ∈ f.aliases a ∨ id ∈ f.aliases b

/-- The file `g` joins the aliases of `a` and `b` in the set `set`. -/
structure Joined (f g : RegisterFile) (a b set : Nat) : Prop where
  relabeled : Relabeled f g
  joins : ∀ {id}, id < f.size → f.Either a b id → (g.data id).aliasSet = some set
  keeps : ∀ {id}, id < f.size → ¬f.Either a b id → (g.data id).aliasSet = (f.data id).aliasSet
  mem_set : ∀ {id}, id ∈ g.members set ↔ f.Either a b id
  mem_other : ∀ {id s}, s ≠ set → (id ∈ g.members s ↔ id ∈ f.members s ∧ ¬f.Either a b id)
  free : ∀ {id}, id ∈ f.members set → f.Either a b id

theorem Joined.valid {a b set : Nat} (h : Joined f g a b set) (hf : f.Valid) (hab : Linkable f a b) :
    g.Valid := by
  have hjoined {id : Nat} (hid : f.Either a b id) : (id < f.size ∧ (f.data id).view = none) ∧
      (f.data id).cls = (f.data a).cls ∧ (f.data id).size = (f.data a).size := by
    rcases hid with hid | hid
    · exact hf.of_mem_aliases hab.left hid
    · obtain ⟨hbase, hcls, hsize⟩ := hf.of_mem_aliases hab.right hid
      exact ⟨hbase, hcls.trans hab.alike.1.symm, hsize.trans hab.alike.2.symm⟩
  refine hf.relabel h.relabeled ?_ ?_ ?_
  · intro id s hid hs
    by_cases hu : f.Either a b id
    · rw [h.joins hid hu] at hs
      cases hs
      exact h.mem_set.2 hu
    · rw [h.keeps hid hu] at hs
      have hmem := hf.mem_members hid hs
      have hne : s ≠ set := by
        rintro rfl
        exact hu (h.free hmem)
      exact (h.mem_other hne).2 ⟨hmem, hu⟩
  · intro id s hid
    by_cases hs : s = set
    · subst hs
      have hu := h.mem_set.1 hid
      obtain ⟨⟨hlt, hview⟩, -⟩ := hjoined hu
      exact ⟨hlt, hview, h.joins hlt hu⟩
    · obtain ⟨hmem, hu⟩ := (h.mem_other hs).1 hid
      obtain ⟨hlt, hview, hset⟩ := hf.of_mem_members hmem
      exact ⟨hlt, hview, (h.keeps hlt hu).trans hset⟩
  · intro x y s hx hy
    by_cases hs : s = set
    · subst hs
      obtain ⟨-, hxc, hxs⟩ := hjoined (h.mem_set.1 hx)
      obtain ⟨-, hyc, hys⟩ := hjoined (h.mem_set.1 hy)
      exact ⟨hxc.trans hyc.symm, hxs.trans hys.symm⟩
    · exact hf.alike ((h.mem_other hs).1 hx).1 ((h.mem_other hs).1 hy).1

theorem Valid.set_eq (hf : f.Valid) {s u : Nat} (hs : id ∈ f.members s) (hu : id ∈ f.members u) :
    s = u :=
  Option.some.inj ((hf.of_mem_members hs).2.2.symm.trans (hf.of_mem_members hu).2.2)

theorem Valid.not_mem_members (hf : f.Valid) {s : Nat} (h : (f.data id).aliasSet = none) :
    id ∉ f.members s := by
  intro hid
  rw [(hf.of_mem_members hid).2.2] at h
  cases h

/-- The file `g` moves base registers to the end of an alias set, out of the sets that they were
in. -/
structure Moved (f g : RegisterFile) (set : Nat) (moved : List Nat) : Prop where
  tape : g.tape = f.tape
  size : g.size = f.size
  counters : g.counters = f.counters
  data : ∀ id, g.data id = if id ∈ moved then { f.data id with aliasSet := some set } else f.data id
  members_set : g.members set = f.members set ++ moved
  members_other : ∀ s, s ≠ set → g.members s = (f.members s).filter (· ∉ moved)
  fresh : ∀ id ∈ moved, id ∉ f.members set
  nodup : (∀ s, (f.members s).Nodup) → moved.Nodup

theorem Moved.joined {moved : List Nat} (h : Moved f g set moved) (hf : f.Valid)
    (heither : ∀ id, f.Either a b id ↔ id ∈ f.members set ∨ id ∈ moved) : Joined f g a b set := by
  refine ⟨⟨h.tape, h.size, h.counters, fun id => ?_⟩, fun {id} _ hu => ?_, fun {id} _ hu => ?_,
    fun {id} => ?_, fun {id s} hs => ?_, fun hid => (heither _).2 (.inl hid)⟩
  · rw [h.data]
    split
    · exact ⟨_, rfl⟩
    · exact ⟨(f.data id).aliasSet, rfl⟩
  · rw [h.data]
    split
    · rfl
    · rename_i hne
      exact (hf.of_mem_members (((heither id).1 hu).resolve_right hne)).2.2
  · rw [h.data, if_neg fun hid => hu ((heither id).2 (.inr hid))]
  · rw [h.members_set, heither, List.mem_append]
  · rw [h.members_other s hs, List.mem_filter, decide_eq_true_eq, heither]
    exact and_congr_right fun hid => not_congr
      ⟨.inr, fun hu => hu.resolve_left fun hset => hs (hf.set_eq hid hset)⟩

theorem eq_filter_notMem {xs ys : List Nat} (h : ∀ id ∈ xs, id ∉ ys) : xs = xs.filter (· ∉ ys) :=
  (List.filter_eq_self.2 fun id hid => decide_eq_true (h id hid)).symm

theorem moved_joinSet (hf : f.Valid) (hset : set < f.aliasSets.size) (hb : b < f.size)
    (hnone : (f.data b).aliasSet = none) : Moved f (f.joinSet set b) set [b] := by
  have hmembers (s : Nat) : (f.joinSet set b).members s =
      if s = set then f.members set ++ [b] else f.members s := by
    simp only [joinSet, members, aliasSets_modify, getD_modify, hset, and_true]
  refine ⟨rfl, size_modify _ _ _, rfl, fun id => ?_, by rw [hmembers, if_pos rfl], fun s hs => ?_,
    fun id hid => List.mem_singleton.1 hid ▸ hf.not_mem_members hnone, fun _ => by simp⟩
  · simp only [joinSet, data_modify, List.mem_singleton]
    by_cases hid : id = b
    · subst hid
      rw [if_pos ⟨rfl, hb⟩, if_pos rfl]
      rfl
    · rw [if_neg (fun h => hid h.1), if_neg hid]
      rfl
  · rw [hmembers, if_neg hs]
    exact eq_filter_notMem fun id hid hmem => hf.not_mem_members hnone (List.mem_singleton.1 hmem ▸ hid)

theorem moved_mergeSets (hf : f.Valid) {x y : Nat} (hx : x < f.aliasSets.size)
    (hy : y < f.aliasSets.size) (hxy : x ≠ y) : Moved f (f.mergeSets x y) x (f.members y) := by
  have hfold := foldl_joined_eq (f.aliasSets.getD y []) x
    { f with aliasSets := f.aliasSets.modify y fun _ => [] }
  have hmembers (s : Nat) : (f.mergeSets x y).members s =
      if s = x then f.members x ++ f.members y else if s = y then [] else f.members s := by
    simp only [mergeSets, members]
    rw [hfold.2.1]
    simp only [getD_modify, Array.size_modify, hx, hy, and_true, hxy, if_false]
  refine ⟨hfold.2.2.1, hfold.1, hfold.2.2.2, fun id => ?_, by rw [hmembers, if_pos rfl], fun s hs => ?_,
    fun id hy hx => hxy (hf.set_eq hx hy), fun h => h y⟩
  · refine (data_foldl_joined (f.members y) x
      { f with aliasSets := f.aliasSets.modify y fun _ => [] } id).trans (if_congr ?_ rfl rfl)
    exact and_iff_left_of_imp fun hid => (hf.of_mem_members hid).1
  · rw [hmembers, if_neg hs]
    split
    · rename_i hsy
      subst hsy
      exact (List.filter_eq_nil_iff.2 fun id hid => by simp [hid]).symm
    · rename_i hsy
      exact eq_filter_notMem fun id hid hid' => hsy (hf.set_eq hid hid')

theorem moved_new_set (hf : f.Valid) (hab : Linkable f a b) (ha : (f.data a).aliasSet = none)
    (hb : (f.data b).aliasSet = none) : Moved f (f.joinAliases a b) f.aliasSets.size [a, b] := by
  have heq : f.joinAliases a b =
      ((({ f with aliasSets := f.aliasSets.push [a, b] } : RegisterFile).modify a
        ({ · with aliasSet := some f.aliasSets.size })).modify b
        ({ · with aliasSet := some f.aliasSets.size })) := by
    rw [joinAliases, ha, hb]
  have hold (id : Nat) :
      ({ f with aliasSets := f.aliasSets.push [a, b] } : RegisterFile).data id = f.data id := rfl
  have hsize : ({ f with aliasSets := f.aliasSets.push [a, b] } : RegisterFile).size = f.size := rfl
  have hmembers (s : Nat) : (f.joinAliases a b).members s =
      if s = f.aliasSets.size then [a, b] else f.members s := by
    rw [heq]
    simp only [members, aliasSets_modify, Array.getD_eq_getD_getElem?, Array.getElem?_push]
    split <;> rfl
  have hnone : f.members f.aliasSets.size = [] := by simp [members, Array.getD_eq_getD_getElem?]
  refine ⟨by rw [heq]; rfl, by rw [heq, size_modify, size_modify, hsize], by rw [heq]; rfl,
    fun id => ?_,
    by rw [hmembers, if_pos rfl, hnone, List.nil_append], fun s hs => ?_, fun id _ => by simp [hnone],
    fun _ => by simp [hab.ne]⟩
  · rw [heq, data_modify, data_modify, data_modify, hold, size_modify, hsize]
    by_cases hida : id = a
    · subst hida
      simp [hab.left.1, hab.ne]
    · by_cases hidb : id = b
      · subst hidb
        simp [hab.right.1, hab.ne.symm, hold]
      · simp [hida, hidb, hold]
  · rw [hmembers, if_neg hs]
    refine eq_filter_notMem fun id hid => ?_
    rintro (_ | ⟨_, _ | ⟨_, hmem⟩⟩)
    · exact hf.not_mem_members ha hid
    · exact hf.not_mem_members hb hid
    · cases hmem

theorem moved_joinAliases (hf : f.Valid) (hab : Linkable f a b) :
    f.joinAliases a b = f ∧ b ∈ f.aliases a ∨ ∃ set moved, Moved f (f.joinAliases a b) set moved ∧
      ∀ id, f.Either a b id ↔ id ∈ f.members set ∨ id ∈ moved := by
  have hlt {id set : Nat} (hid : id < f.size) (h : (f.data id).aliasSet = some set) :=
    set_lt_of_mem (hf.mem_members hid h)
  cases ha : (f.data a).aliasSet with
  | none =>
    cases hb : (f.data b).aliasSet with
    | none =>
      refine .inr ⟨_, _, moved_new_set hf hab ha hb, fun id => ?_⟩
      simp [Either, aliases_of_none ha, aliases_of_none hb, members, Array.getD_eq_getD_getElem?]
    | some y =>
      rw [joinAliases, ha, hb]
      refine .inr ⟨y, _, moved_joinSet hf (hlt hab.right.1 hb) hab.left.1 ha, fun id => ?_⟩
      rw [Either, aliases_of_none ha, aliases_of_some hb, or_comm]
  | some x =>
    cases hb : (f.data b).aliasSet with
    | none =>
      rw [joinAliases, ha, hb]
      refine .inr ⟨x, _, moved_joinSet hf (hlt hab.left.1 ha) hab.right.1 hb, fun id => ?_⟩
      rw [Either, aliases_of_some ha, aliases_of_none hb]
    | some y =>
      rw [joinAliases, ha, hb]
      by_cases hxy : x = y
      · subst hxy
        refine .inl ⟨if_pos rfl, ?_⟩
        rw [aliases_of_some ha]
        exact hf.mem_members hab.right.1 hb
      · simp only [if_neg hxy, Either, aliases_of_some ha, aliases_of_some hb]
        split
        · exact .inr ⟨x, _, moved_mergeSets hf (hlt hab.left.1 ha) (hlt hab.right.1 hb) hxy,
            fun _ => .rfl⟩
        · exact .inr ⟨y, _, moved_mergeSets hf (hlt hab.right.1 hb) (hlt hab.left.1 ha) (Ne.symm hxy),
            fun _ => or_comm⟩

theorem joined_joinAliases (hf : f.Valid) (hab : Linkable f a b) :
    f.joinAliases a b = f ∨ ∃ set, Joined f (f.joinAliases a b) a b set :=
  (moved_joinAliases hf hab).imp And.left fun ⟨set, _, hm, heither⟩ => ⟨set, hm.joined hf heither⟩

theorem Valid.joinAliases (hf : f.Valid) (hab : Linkable f a b) : (f.joinAliases a b).Valid := by
  rcases joined_joinAliases hf hab with heq | ⟨set, hj⟩
  · rw [heq]
    exact hf
  · exact hj.valid hf hab

theorem linkable_of_linkFlaw?_eq_none {a b : Reg} (ha : f.owns a) (hb : f.owns b)
    (hne : a.id ≠ b.id) (h : f.linkFlaw? a b = none) : Linkable f a.id b.id := by
  simp only [linkFlaw?] at h
  split at h
  · cases h
  · rename_i hview
    split at h
    · cases h
    · rename_i hcls
      split at h
      · cases h
      · rename_i hsize
        simp only [not_or, Option.not_isSome_iff_eq_none] at hview
        exact ⟨⟨(owns_iff.1 ha).2, hview.1⟩, ⟨(owns_iff.1 hb).2, hview.2⟩, hne,
          Decidable.not_not.1 hcls, Decidable.not_not.1 hsize⟩

theorem of_link_eq_ok {a b : Reg} (ha : f.owns a) (hb : f.owns b) (h : f.link a b = .ok g) :
    a.id = b.id ∧ g = f ∨ Linkable f a.id b.id ∧ g = ((f.joinAliases a.id b.id).pin a.id).pin b.id := by
  unfold link at h
  split at h
  · cases h
  · rename_i hflaw
    split at h
    · rename_i heq
      cases h
      exact .inl ⟨heq, rfl⟩
    · rename_i hne
      cases h
      exact .inr ⟨linkable_of_linkFlaw?_eq_none ha hb hne hflaw, rfl⟩

theorem Valid.of_link_eq_ok (hf : f.Valid) {a b : Reg} (ha : f.owns a) (hb : f.owns b)
    (h : f.link a b = .ok g) : g.Valid ∧ Keeps f g := by
  rcases RegisterFile.of_link_eq_ok ha hb h with ⟨-, rfl⟩ | ⟨hab, rfl⟩
  · exact ⟨hf, .refl g⟩
  · have hpin := (SameShape.pin (f.joinAliases a.id b.id) a.id).trans (SameShape.pin _ b.id)
    refine ⟨hpin.valid (hf.joinAliases hab), ?_⟩
    rcases joined_joinAliases hf hab with heq | ⟨set, hj⟩
    · rw [heq] at hpin ⊢
      exact hpin.keeps
    · exact hj.relabeled.keeps.trans hpin.keeps

end RegisterFile

end SecureTape
