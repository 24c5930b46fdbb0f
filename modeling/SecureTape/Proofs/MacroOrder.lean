import SecureTape.Proofs.DeadCode
import SecureTape.Proofs.InlinedCalls
import SecureTape.Proofs.Meaning

/-!
# Order around deferred macro calls

A macro call is scheduled before it is expanded, and what it expands to is scheduled once more. Main
statement: `BuildM.scheduled_in_order`, where calls are inlined, the code of a block is an
arrangement of the block with every call replaced by its expansion, in which everything that clashes
keeps its order. A fence that is hidden in a macro is the exception
(`BuildM.reorders_hidden_fence`): the scheduler knows nothing of it before the expansion.

1. `conflict_of_clash`: what clashes in the code of two operations makes the operations conflict, so
   the first pass keeps their order.
2. `arranges_expanded`: hence the expanded code is arranged.
3. `conflict_of_clash_units`: what clashes in expanded code conflicts there, so the second pass
   keeps its order too.
4. `BuildM.deferred_call_adds_round`: the two passes may need a round more than one pass would.
-/

open SecureTape.Action

namespace SecureTape

open List

open RegisterFile Program

variable {k x : Nat} {a b : Place} {u : List Place} {us : List (List Nat)}
  {expanded ops out : List Op} {i : Instruction} {f g regs : RegisterFile}
  {codeOf : Nat → List Instruction} {owner : Nat → Nat} {result : List Op × MergeStats}
  {options : MergeOptions} {codes : List (List Instruction)}

/-- Where an instruction stands in a block in which every operation is replaced by its code: the
number of the operation, and the number in its code. -/
structure Place where
  op : Nat
  index : Nat
  deriving Repr, DecidableEq

namespace Place

instance : LT Place := ⟨fun a b => a.op < b.op ∨ a.op = b.op ∧ a.index < b.index⟩

def instruction? (codes : List (List Instruction)) (a : Place) : Option Instruction :=
  codes[a.op]?.bind (·[a.index]?)

def op? (codes : List (List Instruction)) (a : Place) : Option Op :=
  (a.instruction? codes).map .inst

/-- A fence at this place orders the instruction at the other: it is an operation of the block
itself, or the two come from the same operation. -/
def Orders (ops : List Op) (a b : Place) : Prop :=
  a.op = b.op ∨ ∃ i, ops[a.op]? = some (.inst i)

/-- The instructions at two places have to keep their order: one of them disturbs the other, or is a
fence for it. -/
def Clash (regs : RegisterFile) (ops : List Op) (codes : List (List Instruction)) (a b : Place) :
    Prop :=
  ∃ i j, a.instruction? codes = some i ∧ b.instruction? codes = some j ∧
    ((i.Disturbs regs j ∨ i.isFence = true ∧ a.Orders ops b) ∨
      (j.Disturbs regs i ∨ j.isFence = true ∧ b.Orders ops a))

end Place

/-! ## The first pass -/

section Spelled

/-! All operations of a block on the registers of `f` have code on those of `g`. A new slot belongs
to one operation. -/

def codesOf (codeOf : Nat → List Instruction) (n : Nat) : List (List Instruction) :=
  (List.range n).map codeOf

theorem instruction?_codesOf :
    a.instruction? (codesOf codeOf ops.length) = some i ↔
      ∃ op, ops[a.op]? = some op ∧ (codeOf a.op)[a.index]? = some i := by
  unfold Place.instruction? codesOf
  by_cases h : a.op < ops.length
  · simp [h]
  · simp [h]

def placesOf (codeOf : Nat → List Instruction) (k : Nat) : List Place :=
  (List.range (codeOf k).length).map (⟨k, ·⟩)

def unitPlaces (codeOf : Nat → List Instruction) (e : List Nat × Op) : List (List Place) :=
  match e.2 with
  | .inst _ => [e.1.map (⟨·, 0⟩)]
  | .call _ => (e.1.flatMap (placesOf codeOf)).map ([·])

theorem mem_placesOf : a ∈ placesOf codeOf k ↔ a.op = k ∧ a.index < (codeOf k).length := by
  simp only [placesOf, mem_map, mem_range]
  constructor
  · rintro ⟨n, hn, rfl⟩
    exact ⟨rfl, hn⟩
  · rintro ⟨rfl, hn⟩
    exact ⟨a.index, hn, rfl⟩

theorem op_mem_of_mem_unitPlaces {e : List Nat × Op} (hu : u ∈ unitPlaces codeOf e) (ha : a ∈ u) :
    a.op ∈ e.1 := by
  unfold unitPlaces at hu
  split at hu
  · rw [mem_singleton.1 hu] at ha
    obtain ⟨k, hk, rfl⟩ := mem_map.1 ha
    exact hk
  · obtain ⟨b, hb, rfl⟩ := mem_map.1 hu
    obtain ⟨k, hk, hbk⟩ := mem_flatMap.1 hb
    rw [mem_singleton.1 ha, (mem_placesOf.1 hbk).1]
    exact hk

variable (hf : f.Valid) (hops : ∀ op ∈ ops, op.Owned f)
  (hspelled : ∀ (k : Nat) (op : Op), ops[k]? = some op →
    op.Spelled f g (fun key => f.size ≤ key ∧ owner key = k) (codeOf k))

include hspelled

theorem codeOf_inst (h : ops[k]? = some (.inst i)) : codeOf k = [i] := by
  have hunfolds := (hspelled k _ h).unfolds
  generalize codeOf k = code at hunfolds
  cases hunfolds
  rfl

theorem typed_codesOf (h : a.instruction? (codesOf codeOf ops.length) = some i) : i.Typed g := by
  obtain ⟨op, hop, hi⟩ := instruction?_codesOf.1 h
  exact (hspelled _ _ hop).typed i (mem_of_getElem? hi)

theorem forall₂_unfolds : Forall₂ (Op.Unfolds f) ops (codesOf codeOf ops.length) := by
  rw [codesOf, forall₂_map_right_iff]
  exact ((forall₂_range ops).imp fun k op hop => (hspelled k op hop).unfolds).flip

theorem flatten_unitPlaces (hlen : us.length = out.length)
    (hinst : ∀ u i, (u, .inst i) ∈ us.zip out → ∀ k ∈ u, ∃ j, ops[k]? = some (.inst j)) :
    ((us.zip out).flatMap (unitPlaces codeOf)).flatten = us.flatten.flatMap (placesOf codeOf) := by
  have hunit (e : List Nat × Op) (he : e ∈ us.zip out) :
      (unitPlaces codeOf e).flatten = e.1.flatMap (placesOf codeOf) := by
    obtain ⟨u, m⟩ := e
    cases m with
    | inst i =>
      show [u.map (⟨·, 0⟩)].flatten = u.flatMap (placesOf codeOf)
      rw [flatten_singleton, map_eq_flatMap]
      refine flatMap_congr ?_
      intro k hk
      obtain ⟨j, hj⟩ := hinst u i he k hk
      rw [placesOf, codeOf_inst hspelled hj]
      rfl
    | call c =>
      show ((u.flatMap (placesOf codeOf)).map ([·])).flatten = _
      rw [← flatMap_def, flatMap_singleton']
  rw [flatten_eq_flatMap, flatMap_assoc]
  have hfst : us = (us.zip out).map (·.1) := (map_fst_zip hlen.le).symm
  conv_rhs => rw [hfst, flatten_eq_flatMap, flatMap_assoc, flatMap_map]
  refine flatMap_congr fun e he => ?_
  rw [← flatten_eq_flatMap]
  exact hunit e he

include hf hops

/-- What clashes in the code of two operations makes the operations conflict. -/
theorem conflict_of_clash (hne : a.op ≠ b.op)
    (h : Place.Clash g ops (codesOf codeOf ops.length) a b) : Conflict f ops a.op b.op := by
  obtain ⟨i, j, hi, hj, h⟩ := h
  obtain ⟨x, hx, hxi⟩ := instruction?_codesOf.1 hi
  obtain ⟨y, hy, hyj⟩ := instruction?_codesOf.1 hj
  have hold {op : Op} {k key : Nat} (hop : op ∈ ops) (hkey : f.size ≤ key ∧ owner key = k) :
      ¬op.Reads f.slotKey key ∧ ¬op.Writes f.slotKey key := by
    refine ⟨?_, ?_⟩
    · rintro ⟨r, hr, rfl⟩
      exact Nat.not_lt.2 hkey.1
        (hf.slotKey_lt ((hops op hop).owns r (Op.mem_registers_of_mem_reads hr)))
    · rintro ⟨r, hr, rfl⟩
      exact Nat.not_lt.2 hkey.1
        (hf.slotKey_lt ((hops op hop).owns r (Op.mem_registers_of_mem_writes hr)))
  have hdisturbs {x y : Op} {k l : Nat} {i j : Instruction} (hkl : k ≠ l) (hx : ops[k]? = some x)
      (hy : ops[l]? = some y) (hi : i ∈ codeOf k) (hj : j ∈ codeOf l) (h : i.Disturbs g j) :
      (x.footprint f).conflicts (y.footprint f) = true := by
    refine Op.conflicts_of_disturbs ((hspelled k x hx).accounts i hi)
      ((hspelled l y hy).accounts j hj) ?_ (hold (mem_of_getElem? hy))
      (fun hkey => (hold (mem_of_getElem? hx) hkey).2) h
    rintro key ⟨-, hk⟩ ⟨-, hl⟩
    exact hkl (hk.symm.trans hl)
  have hfence {x y : Op} {c d : Place} {i : Instruction} (hcd : c.op ≠ d.op)
      (hx : ops[c.op]? = some x) (hi : (codeOf c.op)[c.index]? = some i) (h : i.isFence = true)
      (horders : c.Orders ops d) : (x.footprint f).conflicts (y.footprint f) = true := by
    rcases horders with heq | ⟨i', hi'⟩
    · exact absurd heq hcd
    · cases hx.symm.trans hi'
      rw [codeOf_inst hspelled hi'] at hi
      obtain rfl := mem_singleton.1 (mem_of_getElem? hi)
      exact Footprint.conflicts_iff.2
        ⟨.control, .inl ⟨Op.control_mem_writes h, .inl (Op.control_mem_reads y)⟩⟩
  refine ⟨x, y, hx, hy, ?_⟩
  have hmi := mem_of_getElem? hxi
  have hmj := mem_of_getElem? hyj
  rcases h with (h | ⟨h, horders⟩) | (h | ⟨h, horders⟩)
  · exact hdisturbs hne hx hy hmi hmj h
  · exact hfence hne hx hxi h horders
  · exact Footprint.conflicts_symm (hdisturbs hne.symm hy hx hmj hmi h)
  · exact Footprint.conflicts_symm (hfence hne.symm hy hyj h horders)

theorem arranges_expanded (ht : SameTemplates ops) (h : ArrangesOps f ops us out) :
    Arranges (Place.op? (codesOf codeOf ops.length)) (· < ·)
      (Place.Clash g ops (codesOf codeOf ops.length)) ((us.zip out).flatMap (unitPlaces codeOf))
      ((us.zip out).flatMap (BuildM.unitCode codeOf)) := by
  have hlen := h.gathered.length_eq
  have hgather {e : List Nat × Op} (he : e ∈ us.zip out) :
      Op.gather? (e.1.filterMap (ops[·]?)) = some e.2 := (forall₂_iff_zip.1 h.gathered).2 he
  have hget {u : List Nat} {k : Nat} (hu : u ∈ us) (hk : k ∈ u) : ∃ op, ops[k]? = some op :=
    Option.isSome_iff_exists.1 (h.found k (mem_flatten.2 ⟨u, hu, hk⟩))
  have hinst (u : List Nat) (i : Instruction) (he : (u, Op.inst i) ∈ us.zip out) (k : Nat)
      (hk : k ∈ u) : ∃ j, ops[k]? = some (.inst j) := by
    have hu := (of_mem_zip he).1
    obtain ⟨op, hop⟩ := hget hu hk
    rcases BuildM.unit_cases ht (fun k hk => h.found k (mem_flatten.2 ⟨u, hu, hk⟩))
      (hgather he) (h.alike u hu) with ⟨_, -, hall⟩ | ⟨_, -, _, hm, -⟩
    · obtain ⟨j, rfl⟩ := hall k op hk hop
      exact ⟨j, hop⟩
    · cases hm
  have hflatten := flatten_unitPlaces hspelled hlen hinst
  have hop? {k n : Nat} {op : Op} {i : Instruction} (hop : ops[k]? = some op)
      (hi : (codeOf k)[n]? = some i) :
      Place.op? (codesOf codeOf ops.length) ⟨k, n⟩ = some (.inst i) := by
    rw [Place.op?, instruction?_codesOf.2 ⟨op, hop, hi⟩]
    rfl
  have hzero {k : Nat} {j : Instruction} (hj : ops[k]? = some (.inst j)) :
      Place.op? (codesOf codeOf ops.length) ⟨k, 0⟩ = ops[k]? := by
    rw [hj]
    exact hop? hj (by rw [codeOf_inst hspelled hj]; rfl)
  have hconflict {a b : Place} (hne : a.op ≠ b.op)
      (hab : Place.Clash g ops (codesOf codeOf ops.length) a b) : Conflict f ops a.op b.op :=
    conflict_of_clash hf hops hspelled hne hab
  have hnodup (u : List Nat) (hu : u ∈ us) : u.Nodup := (nodup_flatten.1 h.nodup).1 u hu
  refine ⟨?_, ?_, ?_, ?_, ?_, ?_, ?_⟩
  · rw [hflatten, nodup_flatMap]
    refine ⟨?_, h.nodup.imp ?_⟩
    · intro k _
      refine nodup_range.map ?_
      intro m n hmn
      exact congrArg Place.index hmn
    · intro k l hkl a ha hb
      exact hkl ((mem_placesOf.1 ha).1.symm.trans (mem_placesOf.1 hb).1)
  · rw [hflatten]
    intro a ha
    obtain ⟨k, hk, hak⟩ := mem_flatMap.1 ha
    obtain ⟨rfl, hlt⟩ := mem_placesOf.1 hak
    obtain ⟨u, hu, hku⟩ := mem_flatten.1 hk
    obtain ⟨op, hop⟩ := hget hu hku
    rw [hop? hop (getElem?_eq_getElem hlt)]
    rfl
  · refine rel_flatMap (R := fun e e' => e = e' ∧ e ∈ us.zip out) ?_ ?_
    · exact forall₂_same.2 fun e he => ⟨rfl, he⟩
    · rintro ⟨u, m⟩ _ ⟨rfl, he⟩
      have hu := (of_mem_zip he).1
      cases m with
      | inst i =>
        refine .cons ?_ .nil
        rw [filterMap_map, ← hgather he]
        congr 1
        refine filterMap_congr fun k hk => ?_
        obtain ⟨j, hj⟩ := hinst u i he k hk
        exact hzero hj
      | call c =>
        show Forall₂ _ ((u.flatMap (placesOf codeOf)).map ([·]))
          ((u.flatMap codeOf).map Op.inst)
        rw [forall₂_map_left_iff, forall₂_map_right_iff]
        refine rel_flatMap (R := fun k l => k = l ∧ k ∈ u) ?_ ?_
        · exact forall₂_same.2 fun k hk => ⟨rfl, hk⟩
        · rintro k _ ⟨rfl, hk⟩
          obtain ⟨op, hop⟩ := hget hu hk
          rw [placesOf, forall₂_map_left_iff, forall₂_iff_get]
          refine ⟨length_range, ?_⟩
          intro n hn hn'
          have hat : (codeOf k)[n]? = some ((codeOf k).get ⟨n, hn'⟩) := getElem?_eq_getElem hn'
          simp only [get_eq_getElem, getElem_range, filterMap_cons] at hat ⊢
          rw [hop? hop hat]
          rfl
  · intro w hw
    obtain ⟨⟨u, m⟩, he, hw⟩ := mem_flatMap.1 hw
    cases m with
    | inst i =>
      obtain rfl : w = u.map (⟨·, 0⟩) := mem_singleton.1 hw
      rcases h.alike u (of_mem_zip he).1 with ⟨k, rfl⟩ | ⟨b, hb⟩
      · exact .inl ⟨⟨k, 0⟩, rfl⟩
      · refine .inr ⟨b, ?_⟩
        intro a ha
        obtain ⟨k, hk, rfl⟩ := mem_map.1 ha
        obtain ⟨j, hj⟩ := hinst u i he k hk
        rw [hzero hj]
        exact hb k hk
    | call c =>
      obtain ⟨a, -, rfl⟩ := mem_map.1 hw
      exact .inl ⟨a, rfl⟩
  · rw [hflatten]
    intro a op hop ha
    obtain ⟨i, hi, rfl⟩ := Option.map_eq_some_iff.1 hop
    obtain ⟨x, hx, hxi⟩ := instruction?_codesOf.1 hi
    have hdropped := h.dropped hx fun hmem => ha (List.mem_flatMap.2
      ⟨a.op, hmem, mem_placesOf.2 ⟨rfl, (List.getElem?_eq_some_iff.1 hxi).1⟩⟩)
    obtain ⟨j, rfl, heffect⟩ := hdropped
    rw [codeOf_inst hspelled hx] at hxi
    obtain rfl := mem_singleton.1 (mem_of_getElem? hxi)
    exact ⟨_, rfl, heffect⟩
  · intro w hw
    obtain ⟨⟨u, m⟩, he, hw⟩ := mem_flatMap.1 hw
    have hu := (of_mem_zip he).1
    cases m with
    | inst i =>
      obtain rfl : w = u.map (⟨·, 0⟩) := mem_singleton.1 hw
      rw [pairwise_map]
      refine ((hnodup u hu).and (h.independent u hu)).imp ?_
      rintro k l ⟨hne, hnot⟩ hclash
      exact hnot (hconflict hne hclash)
    | call c =>
      obtain ⟨a, -, rfl⟩ := mem_map.1 hw
      exact pairwise_singleton _ _
  · have hfst : us = (us.zip out).map (·.1) := (map_fst_zip hlen.le).symm
    rw [pairwise_flatMap]
    refine ⟨?_, ?_⟩
    · rintro ⟨u, m⟩ he
      have hu := (of_mem_zip he).1
      cases m with
      | inst i => exact pairwise_singleton _ _
      | call c =>
        show ((u.flatMap (placesOf codeOf)).map ([·])).Pairwise _
        rw [pairwise_map, pairwise_flatMap]
        refine ⟨?_, ?_⟩
        · intro k _
          rw [placesOf, pairwise_map]
          refine pairwise_lt_range.imp ?_
          intro m n hmn a ha b hb _
          rw [mem_singleton.1 ha, mem_singleton.1 hb]
          exact .inr ⟨rfl, hmn⟩
        · -- calls of one unit are independent
          refine ((hnodup u hu).and (h.independent u hu)).imp ?_
          rintro k l ⟨hne, hnot⟩ x hx y hy a ha b hb hclash
          obtain rfl := mem_singleton.1 ha
          obtain rfl := mem_singleton.1 hb
          obtain ⟨rfl, -⟩ := mem_placesOf.1 hx
          obtain ⟨rfl, -⟩ := mem_placesOf.1 hy
          exact absurd (hconflict hne hclash) hnot
    · have hpairs := (nodup_flatten.1 h.nodup).2.and h.ordered
      rw [hfst, pairwise_map] at hpairs
      refine hpairs.imp ?_
      rintro e e' ⟨hdisjoint, hord⟩ x hx y hy a ha b hb hclash
      have hak := op_mem_of_mem_unitPlaces hx ha
      have hbl := op_mem_of_mem_unitPlaces hy hb
      have hne : a.op ≠ b.op := fun heq => hdisjoint hak (heq ▸ hbl)
      exact .inl (hord a.op hak b.op hbl (hconflict hne hclash))

end Spelled

/-! ## The second pass -/

section Second

variable {g : RegisterFile} {ops : List Op} {codes : List (List Instruction)}
  {units : List (List Place)} {out : List Op}

theorem accountsFor_of_gather? {part : List Op} {m : Op} (hlayout : ∀ op ∈ part, op.HasLayout)
    (halike : (∃ op, part = [op]) ∨ ∃ b, ∀ op ∈ part, op.batch? = some b)
    (hpart : ∀ op ∈ part, ∃ i, op = .inst i) (h : Op.gather? part = some m) (hi : .inst i ∈ part) :
    ∃ j, m = .inst j ∧ j.opcode = i.opcode ∧
      (Op.inst j).AccountsFor g g (fun _ => False) i := by
  have hgathers := gathers_of_gather? hlayout (fun c _ hc => by
    obtain ⟨_, hc⟩ := hpart _ hc
    cases hc) halike h
  have hsome := hgathers.inst hi
  cases m with
  | call c => cases hsome
  | inst j =>
    have hopcode : j.opcode = i.opcode := by
      rcases halike with ⟨op, rfl⟩ | ⟨b, hb⟩
      · cases h
        cases mem_singleton.1 hi
        rfl
      · have hj := Op.batch?_of_gather? h hb
        have hib := hb _ hi
        simp only [Op.batch?, Option.ite_none_right_eq_some, Option.some.injEq] at hj hib
        exact congrArg MergeKey.opcode (Batch.inst.inj (hj.2.trans hib.2.symm))
    have hself := Op.accountsFor_self (f := g) (fun _ => False) j
    have hhas (flag : OpFlag) : j.has flag = i.has flag := by
      rw [Instruction.has, Instruction.has, hopcode]
    refine ⟨j, rfl, hopcode, ?_, ?_, ?_, ?_, ?_⟩
    · intro r hr
      exact hself.reads (hgathers.reads.2 ⟨_, hi, hr⟩)
    · intro r hr
      exact hself.writes (hgathers.writes.2 ⟨_, hi, hr⟩)
    · rw [← hopcode, ← hhas]
      exact hself.memory
    · rw [← hhas]
      exact hself.io
    · rw [Instruction.communicates, ← hhas]
      exact hself.communicates

variable (h : Arranges (Place.op? codes) (· < ·) (Place.Clash g ops codes) units out)
  (hlayout : ∀ a i, Place.instruction? codes a = some i → i.HasLayout)

include h hlayout

theorem exists_accountsFor (hu : units[x]? = some u) (ha : a ∈ u)
    (hi : a.instruction? codes = some i) :
    ∃ j, out[x]? = some (.inst j) ∧ j.opcode = i.opcode ∧
      (Op.inst j).AccountsFor g g (fun _ => False) i := by
  rcases getElem?_of_forall₂ h.gathered x with ⟨hnone, -⟩ | ⟨v, m, hv, hm, hgather⟩
  · cases hnone.symm.trans hu
  · cases hv.symm.trans hu
    have hpart {op : Op} (hop : op ∈ u.filterMap (Place.op? codes)) :
        ∃ i, op = .inst i ∧ i.HasLayout := by
      obtain ⟨b, -, hb⟩ := mem_filterMap.1 hop
      obtain ⟨i, hi, rfl⟩ := Option.map_eq_some_iff.1 hb
      exact ⟨i, rfl, hlayout b i hi⟩
    have hmem : .inst i ∈ u.filterMap (Place.op? codes) :=
      mem_filterMap.2 ⟨a, ha, by rw [Place.op?, hi]; rfl⟩
    have halike : (∃ op, u.filterMap (Place.op? codes) = [op]) ∨
        ∃ b, ∀ op ∈ u.filterMap (Place.op? codes), op.batch? = some b := by
      rcases h.alike u (mem_of_getElem? hu) with ⟨c, rfl⟩ | ⟨b, hb⟩
      · obtain rfl := mem_singleton.1 ha
        exact .inl ⟨.inst i, by rw [filterMap_cons, Place.op?, hi]; rfl⟩
      · refine .inr ⟨b, ?_⟩
        intro op hop
        obtain ⟨c, hc, hco⟩ := mem_filterMap.1 hop
        have hbc := hb c hc
        rwa [hco] at hbc
    have hlayouts (op : Op) (hop : op ∈ u.filterMap (Place.op? codes)) : op.HasLayout := by
      obtain ⟨i, rfl, hi⟩ := hpart hop
      exact hi
    have hinsts (op : Op) (hop : op ∈ u.filterMap (Place.op? codes)) : ∃ i, op = .inst i := by
      obtain ⟨i, rfl, -⟩ := hpart hop
      exact ⟨i, rfl⟩
    obtain ⟨j, rfl, hj⟩ := accountsFor_of_gather? (g := g) hlayouts halike hinsts hgather hmem
    exact ⟨j, hm, hj⟩

theorem conflict_of_clash_units {y : Nat} {v : List Place} (hu : units[x]? = some u)
    (hv : units[y]? = some v) (ha : a ∈ u) (hb : b ∈ v) (hab : Place.Clash g ops codes a b) :
    Conflict g out x y := by
  obtain ⟨i, j, hi, hj, hab⟩ := hab
  obtain ⟨m, hm, hmi, haccounts⟩ := exists_accountsFor h hlayout hu ha hi
  obtain ⟨n, hn, hnj, haccounts'⟩ := exists_accountsFor h hlayout hv hb hj
  have hfence {i j : Instruction} (hopcode : j.opcode = i.opcode) (hi : i.isFence = true) :
      j.isFence = true := by
    simpa only [Instruction.isFence, Instruction.has, hopcode] using hi
  have hdisturbs {i j : Instruction} {a b : Op} (hi : a.AccountsFor g g (fun _ => False) i)
      (hj : b.AccountsFor g g (fun _ => False) j) (hij : i.Disturbs g j) :
      (a.footprint g).conflicts (b.footprint g) = true :=
    Op.conflicts_of_disturbs hi hj False.elim False.elim False.elim hij
  refine ⟨_, _, hm, hn, ?_⟩
  rcases hab with (hab | ⟨hab, -⟩) | (hab | ⟨hab, -⟩)
  · exact hdisturbs haccounts haccounts' hab
  · exact Footprint.conflicts_iff.2
      ⟨.control, .inl ⟨Op.control_mem_writes (hfence hmi hab), .inl (Op.control_mem_reads _)⟩⟩
  · exact Footprint.conflicts_symm (hdisturbs haccounts' haccounts hab)
  · exact Footprint.conflicts_symm (Footprint.conflicts_iff.2
      ⟨.control, .inl ⟨Op.control_mem_writes (hfence hnj hab), .inl (Op.control_mem_reads _)⟩⟩)

/-- Code that is arranged and then optimized is arranged. -/
theorem exists_arranges_again {out' : List Op} (h' : ArrangesOps g out us out') :
    ∃ units', Arranges (Place.op? codes) (· < ·)
      (Place.Clash g ops codes) units' out' := by
  refine ⟨_, h.trans h' (fun hu hv ha hb _ => conflict_of_clash_units h hlayout hu hv ha hb) ?_⟩
  intro ks hks
  have hops (us : List Place) : us.filterMap (Place.op? codes) =
      (us.filterMap (Place.instruction? codes)).map .inst := by
    rw [map_filterMap]
    exact filterMap_congr fun a _ => rfl
  have hget {x : Nat} (hx : x ∈ ks) : ∃ u m, units[x]? = some u ∧ out[x]? = some m ∧
      Op.gather? (u.filterMap (Place.op? codes)) = some m := by
    obtain ⟨m, hm⟩ := Option.isSome_iff_exists.1
      (h'.found x (mem_flatten.2 ⟨ks, hks, hx⟩))
    rcases getElem?_of_forall₂ h.gathered x with ⟨-, hnone⟩ | ⟨u, m', hu, hm', hgather⟩
    · cases hnone.symm.trans hm
    · exact ⟨u, m', hu, hm', hgather⟩
  rw [hops, filterMap_flatMap, Op.gather?_flatMap (fun x => out.getD x default) ?_ ?_]
  · congr 1
    rw [← filterMap_eq_map]
    refine filterMap_congr fun x hx => ?_
    obtain ⟨u, m, -, hm, -⟩ := hget hx
    simp [hm]
  · intro x hx i hi
    obtain ⟨a, -, ha⟩ := mem_filterMap.1 hi
    exact hlayout a i ha
  · intro x hx
    obtain ⟨u, m, hu, hm, hgather⟩ := hget hx
    rw [getD_eq_getElem?_getD, hu, Option.getD_some, ← hops, hgather]
    simp [hm]

end Second

namespace BuildM

variable {p q : Program} {id : TapeId}

/-! ## Blocks -/

/-- Instructions that the first pass drops have code too, although it is not needed. -/
theorem exists_spelled_block (hf : f.Valid) (hfg : Grows f g) (hops : ∀ op ∈ ops, op.Owned f)
    (h : ArrangesOps f ops us out)
    (hs : SpelledAll f g f.size codeOf owner (numbered ops us.flatten)) :
    ∃ (codeOf' : Nat → List Instruction) (owner' : Nat → Nat),
      (∀ (k : Nat) (op : Op), ops[k]? = some op →
        op.Spelled f g (fun key => f.size ≤ key ∧ owner' key = k) (codeOf' k)) ∧
      (us.zip out).flatMap (unitCode codeOf) = (us.zip out).flatMap (unitCode codeOf') := by
  have hdropped : SpelledAll f g g.size (fun k => (ops[k]?.bind Op.inst?).toList) (fun _ => 0)
      (numbered ops ((List.range ops.length).filter (· ∉ us.flatten))) := by
    intro e he
    obtain ⟨hk, hop⟩ := mem_numbered.1 he
    obtain ⟨i, hi, -⟩ := h.dropped hop (of_decide_eq_true (mem_filter.1 hk).2)
    have howned := hops e.2 (mem_of_getElem? hop)
    rw [hi] at hop howned
    simp only [hop, hi]
    exact Op.spelled_inst howned hf hfg
  obtain ⟨codeOf', owner', hall, hold, -⟩ := exists_spelledAll_append hs hfg.valid hfg.ext.size_le
    hfg.valid.grows hdropped (by
      intro e he e' he' heq
      have hmem := (mem_numbered.1 he).1
      rw [heq] at hmem
      exact of_decide_eq_true (mem_filter.1 (mem_numbered.1 he').1).2 hmem)
  refine ⟨codeOf', owner', ?_, ?_⟩
  · intro k op hop
    refine hall (k, op) (mem_append.2 ?_)
    by_cases hk : k ∈ us.flatten
    · exact .inl (mem_numbered.2 ⟨hk, hop⟩)
    · have hlt := (List.getElem?_eq_some_iff.1 hop).1
      exact .inr (mem_numbered.2 ⟨List.mem_filter.2 ⟨List.mem_range.2 hlt,
        decide_eq_true hk⟩, hop⟩)
  · refine flatMap_congr ?_
    rintro ⟨u, m⟩ he
    refine unitCode_congr m fun k hk => ?_
    have hmem := mem_flatten.2 ⟨u, (of_mem_zip he).1, hk⟩
    obtain ⟨op, hop⟩ := Option.isSome_iff_exists.1 (h.found k hmem)
    exact (hold (k, op) (mem_numbered.2 ⟨hmem, hop⟩)).symm

/-- The operations `out` on the registers of `g` are an arrangement of the operations `ops` on those
of `f`, with every macro call replaced by its expansion. -/
def InOrder (f g : RegisterFile) (ops out : List Op) : Prop :=
  ∃ codes units, List.Forall₂ (Op.Unfolds f) ops codes ∧
    (∀ code ∈ codes, ∀ i ∈ code, i.Typed g) ∧
    Arranges (Place.op? codes) (· < ·) (Place.Clash g ops codes) units out

theorem InOrder.mono {f' g' : RegisterFile} (h : InOrder f g ops out) (hf : Extends f' f)
    (hg : g.Valid) (hgg' : Grows g g') : InOrder f' g' ops out := by
  obtain ⟨codes, units, hunfolds, htyped, harranges⟩ := h
  refine ⟨codes, units, hunfolds.imp fun _ _ => .mono hf, ?_, harranges.of_imp ?_⟩
  · exact fun code hcode i hi => (htyped code hcode i hi).keeps hgg'.ext.keeps
  · rintro a b ⟨i, j, hi, hj, hclash⟩
    have hkey {a : Place} {i : Instruction} {r : Reg} (hi : a.instruction? codes = some i)
        (hr : r ∈ i.reads ∨ r ∈ i.writes) : g'.slotKey r = g.slotKey r := by
      obtain ⟨code, hcode, hat⟩ := Option.bind_eq_some_iff.1 hi
      have howned := (htyped code (mem_of_getElem? hcode) i (mem_of_getElem? hat)).owned
      have hmem : r ∈ (Op.inst i).registers :=
        hr.elim (fun h => Op.mem_registers_of_mem_reads h) fun h => Op.mem_registers_of_mem_writes h
      exact hgg'.ext.slotKey hg (owns_iff.1 (howned.owns r hmem)).2
    have hdisturbs {a b : Place} {i j : Instruction} (hi : a.instruction? codes = some i)
        (hj : b.instruction? codes = some j) (h : i.Disturbs g' j) : i.Disturbs g j := by
      cases h with
      | slot hr hs heq =>
        rw [hkey hi (.inr hr), hkey hj hs] at heq
        exact .slot hr hs heq
      | memory hi hj hw => exact .memory hi hj hw
      | channel hi hj => exact .channel hi hj
    refine ⟨i, j, hi, hj, ?_⟩
    exact hclash.imp (.imp_left (hdisturbs hi hj)) (.imp_left (hdisturbs hj hi))

theorem run_expandCalls_of_instructions (id : TapeId) (node : NodeId)
    (h : ∀ op ∈ ops, op.inst?.isSome) (p : Program) :
    (expandCalls id node ops).run p = (.ok ops, p) := by
  induction ops with
  | nil => rfl
  | cons op ops ih =>
    cases op with
    | call c => cases h _ (.head _)
    | inst i =>
      rw [expandCalls, run_bind_ok (ih fun o ho => h o (.tail _ ho))]
      rfl

section Block

variable (options : MergeOptions) (hp : p.Coherent) (hid : id < p.tapes.size)
  (hstate : (p.tapeAt id).TakesRegisters) {b : Block}
  (hops : ∀ op ∈ b.ops, op.Owned (p.tapeAt id).regs)
  (hcached : ∀ c, .call c ∈ b.ops → p.macros.lookup c.key = some c.template)
  (hrestrained : ∀ c, .call c ∈ b.ops → c.template.Restrained)
  (hinline : ∀ c, .call c ∈ (optimize (p.tapeAt id).regs options (b.liveOut (p.tapeAt id).regs)
      b.ops).1 → p.policy.usesCall c.totalWidth (p.tapeAt id).singular = false)

include hp hid hstate hops hcached hrestrained hinline

/-- The code of a block that is optimized and then expanded is that of the operations that
survive. -/
theorem exists_spelled_expandCalls
    (hrun : (expandCalls id b.node (optimize (p.tapeAt id).regs options
      (b.liveOut (p.tapeAt id).regs) b.ops).1).run p = (.ok expanded, q)) :
    ∃ us codeOf, ∃ owner : Nat → Nat, Grows (p.tapeAt id).regs (q.tapeAt id).regs ∧
      ArrangesOps (p.tapeAt id).regs b.ops us (optimize (p.tapeAt id).regs options
        (b.liveOut (p.tapeAt id).regs) b.ops).1 ∧
      (∀ k, k ∈ us.flatten ↔ Survives (p.tapeAt id).regs options.fullDeadCode
        (b.liveOut (p.tapeAt id).regs) b.ops k) ∧
      (∀ (k : Nat) (op : Op), b.ops[k]? = some op → op.Spelled (p.tapeAt id).regs (q.tapeAt id).regs
        (fun key => (p.tapeAt id).regs.size ≤ key ∧ owner key = k) (codeOf k)) ∧
      expanded = (us.zip (optimize (p.tapeAt id).regs options (b.liveOut (p.tapeAt id).regs)
        b.ops).1).flatMap (unitCode codeOf) := by
  have hf := (hp.sound hid).valid
  obtain ⟨us, hfirst, hsurvives⟩ := exists_arranges_optimize (p.tapeAt id).regs options
    (b.liveOut (p.tapeAt id).regs) b.ops
  have hmeets := meets_expandUnits hf b.node hops (sameTemplates_of_cached hcached)
    (fun c hc => ⟨hp.parametric (hcached c hc), hrestrained c hc⟩) hfirst.nodup hfirst.found
    hfirst.gathered hfirst.alike hp hid hstate hf.grows hinline
  obtain ⟨codeOf, owner, rfl, hs⟩ := hmeets.result _ _ hrun
  have hgrows : Grows (p.tapeAt id).regs (q.tapeAt id).regs := by
    have hends := hmeets.ends
    rw [hrun] at hends
    exact hends.advances.regs
  obtain ⟨codeOf', owner', hspelled, hcode⟩ := exists_spelled_block hf hgrows hops hfirst hs
  exact ⟨us, codeOf', owner', hgrows, hfirst, hsurvives, hspelled, hcode⟩

theorem inOrder_expandCalls
    (hrun : (expandCalls id b.node (optimize (p.tapeAt id).regs options
      (b.liveOut (p.tapeAt id).regs) b.ops).1).run p = (.ok expanded, q))
        (hout : ArrangesOps (q.tapeAt id).regs expanded us out) :
    InOrder (p.tapeAt id).regs (q.tapeAt id).regs b.ops out := by
  obtain ⟨us₁, codeOf, owner, -, hfirst, -, hspelled, rfl⟩ :=
    exists_spelled_expandCalls options hp hid
    hstate hops hcached hrestrained hinline hrun
  obtain ⟨units, harranges⟩ := exists_arranges_again
    (arranges_expanded (hp.sound hid).valid hops hspelled (sameTemplates_of_cached hcached) hfirst)
    (fun a i hi => (typed_codesOf hspelled hi).layout) hout
  refine ⟨_, units, forall₂_unfolds hspelled, fun code hcode i hi => ?_, harranges⟩
  obtain ⟨k, hk, rfl⟩ := mem_map.1 hcode
  exact (hspelled k _ (getElem?_eq_getElem (mem_range.1 hk))).typed i hi

theorem inOrder_optimizeBlock
    (hrun : (optimizeBlock id options (p.tapeAt id).regs b).run p = (.ok result, q)) :
    InOrder (p.tapeAt id).regs (q.tapeAt id).regs b.ops result.1 := by
  unfold optimizeBlock at hrun
  simp only [] at hrun
  split at hrun
  · rename_i hall
    cases hrun
    exact inOrder_expandCalls options hp hid hstate hops hcached hrestrained hinline
      (run_expandCalls_of_instructions id b.node (all_eq_true.1 hall) p) (arranges_self _ _)
  · obtain ⟨expanded, m, hexpand, hrest⟩ := of_run_bind_ok hrun
    cases hrest
    obtain ⟨us, hus, -⟩ := exists_arranges_optimize (q.tapeAt id).regs options
      (b.liveOut (p.tapeAt id).regs) expanded
    exact inOrder_expandCalls options hp hid hstate hops hcached hrestrained hinline hexpand hus

end Block

theorem of_run_storeBlock {index : BlockId} {b : Block} (hp : p.Coherent) (hid : id < p.tapes.size)
    (hindex : index < (p.tapeAt id).blocks.size)
    (hrun : (storeBlock id index b result).run p = (.ok ⟨⟩, q)) :
    (q.tapeAt id).regs = (p.tapeAt id).regs ∧
      Jumps (p.tapeAt id).regs b.exit result.1 ((q.tapeAt id).block index).ops := by
  obtain ⟨ops, m, hjump, hrest⟩ := of_run_bind_ok hrun
  have hmeets : Meets (Advances id fun _ => False) _ p _ := meets_appendJump hp hid b.exit result.1
  obtain ⟨rfl, hjumps⟩ := hmeets.result _ _ hjump
  cases hrest
  show ((m.modifyTape id _).tapeAt id).regs = _ ∧
    Jumps _ _ _ (((m.modifyTape id _).tapeAt id).block index).ops
  rw [tapeAt_modifyTape_self hid, Tape.block_modifyBlock, if_pos ⟨rfl, hindex⟩]
  exact ⟨rfl, hjumps⟩

/-- The policy inlines every batch that a pass over the block makes of its macro calls. -/
def InlinesBlock (options : MergeOptions) (p : Program) (id : TapeId) (k : BlockId) : Prop :=
  ∀ c, .call c ∈ (optimize (p.tapeAt id).regs options
      (((p.tapeAt id).block k).liveOut (p.tapeAt id).regs) ((p.tapeAt id).block k).ops).1 →
    p.policy.usesCall c.totalWidth (p.tapeAt id).singular = false

theorem inOrder_scheduleBlock {k : BlockId} (hp : p.Coherent) (hid : id < p.tapes.size)
    (hstate : (p.tapeAt id).state = .scheduled) (hk : k < (p.tapeAt id).blocks.size)
    (hrestrained : ∀ c, .call c ∈ ((p.tapeAt id).block k).ops → c.template.Restrained)
    (hinline : InlinesBlock options p id k)
    (hrun : (scheduleBlock id options k).run p = (.ok ⟨⟩, q)) :
    ∃ out, InOrder (p.tapeAt id).regs (q.tapeAt id).regs ((p.tapeAt id).block k).ops out ∧
      Jumps (q.tapeAt id).regs ((p.tapeAt id).block k).exit out ((q.tapeAt id).block k).ops := by
  have hb := (hp.sound hid).block k
  have hclear := advances_clear hp hid hstate k
  rw [scheduleBlock_eq, run_get_bind, run_bind_ok (run_modify _ p)] at hrun
  have hpolicy : (p.modifyTape id fun t => t.modifyBlock k ({ · with ops := [] })).policy =
      p.policy := rfl
  have hsingular : ((p.modifyTape id fun t =>
      t.modifyBlock k ({ · with ops := [] })).tapeAt id).singular = (p.tapeAt id).singular := by
    rw [tapeAt_modifyTape_self hid]
    rfl
  generalize hp₁ : p.modifyTape id (fun t => t.modifyBlock k ({ · with ops := [] })) = p₁
    at hclear hrun hpolicy hsingular
  obtain ⟨hregs, -⟩ := tapeAt_clear hid hk hp₁.symm
  obtain ⟨result, m, hopt, hstore⟩ := of_run_bind_ok hrun
  have hid₁ := hclear.lt hid
  have hmeets : Meets (Advances id fun _ => False) _ p₁ _ :=
    meets_optimizeCleared options hp hid hstate hk hp₁.symm
  have hadvances := hmeets.ends
  rw [hopt] at hadvances
  rw [← hregs] at hopt
  obtain ⟨hsame, hjumps⟩ := of_run_storeBlock hadvances.coherent (hadvances.lt hid₁)
    (hadvances.size ▸ hclear.size ▸ hk) hstore
  have horder := inOrder_optimizeBlock options hclear.coherent hid₁
    (.inr (hclear.state.trans hstate)) (hregs ▸ hb.ops)
    (fun c hc => hclear.macros ▸ hp.cached hid ⟨k, hc⟩) hrestrained
    (fun c hc => by
      rw [hpolicy, hsingular]
      rw [hregs] at hc
      exact hinline c hc) hopt
  rw [hregs] at horder
  refine ⟨result.1, ?_, ?_⟩
  · rw [hsame]
    exact horder
  · rw [hsame]
    exact hjumps

/-! ## Tapes -/

/-- The program in which a block of a tape is scheduled, after the blocks in front of it. -/
def beforeBlock (p : Program) (id : TapeId) (k : BlockId) : Program :=
  stateAt id (mergeOptions p.options) (p.modifyTape id closeTape) k

theorem isFence_of_exitJump {kind : ExitKind} {jump : Instruction}
    (h : exitJump regs kind = .ok jump) : jump.isFence := by
  have hmake {opcode : Opcode} {operands : List Operand}
      (h : Instruction.make opcode .base 1 operands regs = .ok jump)
      (hop : opcode.has .jump = true) : jump.isFence = true := by
    obtain ⟨-, -, -, -, -, rfl⟩ := Instruction.of_make_eq_ok h
    rw [Instruction.isFence, Bool.or_eq_true]
    exact .inr hop
  unfold exitJump at h
  cases kind with
  | always | ifNonZero | ifZero => exact hmake h rfl

/-- Where macro calls are inlined, what scheduling makes of a block is an arrangement of the block
with every call replaced by its expansion, and perhaps a jump. Instructions of which one disturbs
the other are in different units, in their order, and so is everything around a fence that the block
has outside its macros. -/
theorem scheduled_in_order (hp : p.Reachable) (hid : id < p.tapes.size)
    (hb : (p.tapeAt id).isBuilding = true) (hrun : (scheduleTape id).run p = (.ok ⟨⟩, q))
    {k : BlockId} (hk : k < (p.tapeAt id).blocks.size)
    (hrestrained : ∀ c, .call c ∈ ((closeTape (p.tapeAt id)).block k).ops → c.template.Restrained)
    (hinline : InlinesBlock (mergeOptions p.options) (beforeBlock p id k) id k) :
    ∃ codes units out, ∃ jump : Option Instruction,
      ((q.tapeAt id).block k).ops = out ++ jump.toList.map .inst ∧
      (∀ j ∈ jump, j.isFence = true) ∧
      List.Forall₂ (Op.Unfolds (closeTape (p.tapeAt id)).regs)
        ((closeTape (p.tapeAt id)).block k).ops codes ∧
      Arranges (Place.op? codes) (· < ·)
        (Place.Clash (q.tapeAt id).regs ((closeTape (p.tapeAt id)).block k).ops codes)
          units out := by
  obtain ⟨hscopes, hblocks⟩ := run_closed_of_run_scheduleTape hp.coherent hb hrun
  have hclose := evolves_close hp.coherent hb hscopes
  have hclosed := tapeAt_modifyTape_self hid closeTape
  have hstate := state_close hid
  have hidc := hclose.lt hid
  have hkc : k < ((p.modifyTape id closeTape).tapeAt id).blocks.size := by
    rw [hclosed, Tape.size_closeTape]
    exact hk
  have hfirst : Advances id (fun i => 0 ≤ i ∧ i < k) (p.modifyTape id closeTape)
      (beforeBlock p id k) :=
    advances_stateAt hblocks hclose.coherent hidc hstate le_rfl k.zero_le
      hkc.le
  have hlast := advances_stateAt hblocks hclose.coherent hidc hstate le_rfl
    (Nat.succ_le_of_lt hkc) le_rfl
  have hend : stateAt id (mergeOptions p.options) (p.modifyTape id closeTape)
      ((p.modifyTape id closeTape).tapeAt id).blocks.size = q := by
    rw [stateAt, hblocks]
  rw [hend] at hlast
  have hblock : ((beforeBlock p id k).tapeAt id).block k = (closeTape (p.tapeAt id)).block k := by
    rw [hfirst.block fun h => lt_irrefl k h.2, hclosed]
  rw [← hblock] at hrestrained ⊢
  obtain ⟨out, horder, hjumps⟩ := inOrder_scheduleBlock hfirst.coherent (hfirst.lt hidc)
    (hfirst.state.trans hstate) (hfirst.size ▸ hkc) hrestrained hinline
    (run_scheduleBlock_stateAt hblocks hkc)
  have hgrows : Grows ((beforeBlock p id k).tapeAt id).regs _ :=
    (advances_stateAt hblocks hclose.coherent hidc hstate le_rfl k.le_succ
      (Nat.succ_le_of_lt hkc)).regs
  obtain ⟨codes, units, hunfolds, -, harranges⟩ :=
    horder.mono (hclosed ▸ hfirst.regs.ext) hgrows.valid hlast.regs
  rw [hlast.block fun h => lt_irrefl k h.1]
  rcases hjumps with heq | ⟨exit, jump, -, hjump, heq⟩
  · refine ⟨codes, units, out, none, ?_, ?_, hunfolds, harranges⟩
    · simp [heq]
    · simp
  · refine ⟨codes, units, out, some jump, heq, ?_, hunfolds, harranges⟩
    rintro _ ⟨⟩
    exact isFence_of_exitJump hjump

/-! ## Hidden fences -/

/-- A check of all macro calls of a block. -/
def allCalls (P : MacroCall → Prop) [DecidablePred P] (ops : List Op) : Bool :=
  ops.all fun
    | .inst _ => true
    | .call c => decide (P c)

theorem of_allCalls {P : MacroCall → Prop} [DecidablePred P] (h : allCalls P ops) (c : MacroCall)
    (hc : .call c ∈ ops) : P c :=
  of_decide_eq_true (all_eq_true.1 h _ hc)

/-- A macro that loads its argument and calls a tape. -/
def loadAndCall (callee : TapeId) : MacroBody where
  name := "load"
  signature := [(.int, .write)]
  build args := do
    args.forM (loadInt · 1)
    callTape callee []

/-- A store between two calls of a macro that is inlined. -/
def storeBetweenCalls : BuildM Unit := do
  let (callee, _) ← newFunction "callee" (emit .crash [])
  let first ← newInteger
  let stored ← newInteger
  let second ← newInteger
  modify ({ · with policy := .inlineAlways })
  callMacro (loadAndCall callee) [first]
  storeMemory stored 0
  callMacro (loadAndCall callee) [second]

theorem api_forM {α : Type} {act : α → BuildM PUnit} (h : ∀ a, (act a).Api) (l : List α) :
    (l.forM act).Api := by
  induction l with
  | nil => exact .pure _
  | cons a l ih => exact .bind (h a) fun _ => ih

theorem api_loadAndCall (callee : TapeId) (args : List Reg) :
    ((loadAndCall callee).build args).Api :=
  .bind (api_forM (fun _ => .loadInt ..) args) fun _ => .callTape ..

theorem api_storeBetweenCalls : storeBetweenCalls.Api :=
  .bind (.newFunction _ (.emit ..)) fun (callee, _) => .bind .newInteger fun _ =>
    .bind .newInteger fun _ => .bind .newInteger fun _ => .bind (.setPolicy _) fun _ =>
      .bind (.callMacro (api_loadAndCall callee) _) fun _ => .bind (.storeMemory ..) fun _ =>
        .callMacro (api_loadAndCall callee) _

theorem run_storeBetweenCalls : (scheduleTape 0).run (builtBy storeBetweenCalls) =
    (.ok ⟨⟩, ((scheduleTape 0).run (builtBy storeBetweenCalls)).2) :=
  run_eq_of_fst (by decide +kernel)

theorem restrained_storeBetweenCalls (c : MacroCall)
    (hc : .call c ∈ ((closeTape ((builtBy storeBetweenCalls).tapeAt 0)).block 0).ops) :
    c.template.Restrained :=
  of_allCalls (P := (·.template.Restrained)) (by decide +kernel) c hc

theorem inlinesBlock_of_policy {k : BlockId} (h : p.policy = .inlineAlways) :
    InlinesBlock options p id k := by
  intro c _
  rw [h]
  rfl

/-- The loads and the tape calls of the two macro calls are code in front of and behind the
store. -/
theorem scheduled_in_order_hidden : ∃ q codes units out, ∃ jump : Option Instruction,
    (scheduleTape 0).run (builtBy storeBetweenCalls) = (.ok ⟨⟩, q) ∧
      ((q.tapeAt 0).block 0).ops = out ++ jump.toList.map .inst ∧
      (∀ j ∈ jump, j.isFence = true) ∧
      List.Forall₂ (Op.Unfolds (closeTape ((builtBy storeBetweenCalls).tapeAt 0)).regs)
        ((closeTape ((builtBy storeBetweenCalls).tapeAt 0)).block 0).ops codes ∧
      Arranges (Place.op? codes) (· < ·)
        (Place.Clash (q.tapeAt 0).regs
          ((closeTape ((builtBy storeBetweenCalls).tapeAt 0)).block 0).ops codes) units out := by
  have hpolicy : (beforeBlock (builtBy storeBetweenCalls) 0 0).policy = .inlineAlways := by
    decide +kernel
  exact ⟨_, (scheduled_in_order (reachable_builtBy api_storeBetweenCalls) (by decide +kernel)
    (by decide +kernel) run_storeBetweenCalls (by decide +kernel) restrained_storeBetweenCalls
    (inlinesBlock_of_policy hpolicy)).imp fun _ h => h.imp fun _ h => h.imp fun _ h =>
      h.imp fun _ h => ⟨run_storeBetweenCalls, h⟩⟩

def hiddenCall : Instruction := ⟨.callTape, .base, 1, [.number 1, .number 0]⟩

def storeBetween : Instruction := ⟨.stmint, .base, 1, [.reg ⟨0, 1⟩, .number 0]⟩

/-- The store stands behind both fences, although it was built between them: a macro call is no
fence for the scheduler, even if its code is one. -/
theorem reorders_hidden_fence : ∃ p q : Program, p.Reachable ∧ (p.tapeAt 0).isBuilding = true ∧
    (scheduleTape 0).run p = (.ok ⟨⟩, q) ∧ p.policy = .inlineAlways ∧ hiddenCall.isFence = true ∧
    ((closeTape (p.tapeAt 0)).block 0).ops.map Op.inst? = [none, some storeBetween, none] ∧
    (∀ c, .call c ∈ ((closeTape (p.tapeAt 0)).block 0).ops →
      c.template.Restrained ∧ hiddenCall ∈ c.template.instructions) ∧
    ((q.tapeAt 0).block 0).ops = [.inst hiddenCall, .inst hiddenCall, .inst storeBetween] := by
  refine ⟨builtBy storeBetweenCalls, _, reachable_builtBy api_storeBetweenCalls, by decide +kernel,
    run_storeBetweenCalls, by decide +kernel, rfl, by decide +kernel, ?_, by decide +kernel⟩
  intro c hc
  exact ⟨restrained_storeBetweenCalls c hc,
    of_allCalls (P := fun c => hiddenCall ∈ c.template.instructions) (by decide +kernel) c hc⟩

/-! ## Rounds of deferred calls -/

def builtWith (options : Options) (act : BuildM Unit) : Program :=
  match Program.new "main" options with
  | .ok start => (act.run start).2
  | .error _ => default

/-- Four values are opened. The first is computed by a macro that does not communicate, the third
depends on the second, and the last on the first. -/
def openFour : BuildM Unit := do
  let double : MacroBody := ⟨"double", [], [(.secret, .read), (.secret, .write)], fun args =>
    emitRegs .adds [args.getD 1 default, args.getD 0 default, args.getD 0 default]⟩
  let a ← newVector .secret 1
  let b ← newVector .secret 1
  let doubled ← newVector .secret 1
  modify ({ · with policy := .inlineAlways })
  randomBit a
  randomBit b
  callMacro double [a, doubled]
  let first ← newVector .clear 1
  let second ← newVector .clear 1
  reveal first doubled
  reveal second b
  let third ← newVector .secret 1
  add third b second
  reveal (← newVector .clear 1) third
  let last ← newVector .secret 1
  add last b first
  reveal (← newVector .clear 1) last

/-- A call that waits for its expansion counts as a round, even if its code has none. So the first
opening is put off and merged with the third, and the last one takes a round more than without
templates. -/
theorem deferred_call_adds_round :
    let rounds (cached : Bool) :=
      (finish.run (builtWith { cacheMacros := cached } openFour)).1.toOption.map
      (·.requirements.get .rounds)
    rounds true = some (.finite 3) ∧ rounds false = some (.finite 2) := by
  decide +kernel

end BuildM

end SecureTape
