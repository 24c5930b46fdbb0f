import Mathlib.Data.List.Sort
import SecureTape.Proofs.HeapPartition

/-!
# Free lists are canonical

The blocks of a free list are the maximal runs of free cells. So the list depends on the free cells
only, not on the order in which they were given back, and a request is refused only if no run has
enough cells. Main statements:
1. `FreeList.Tidy.push`, `FreeList.Tidy.pop`: a step keeps the order of both indexes, and no two
   blocks touch after it.
2. `FreeList.Tidy.mem_iff_isRun`: the blocks of a tidy list are the maximal runs of its cells.
3. `Heap.free_lists_canonical`: what follows for every sequence of steps, and for the heap.
-/

namespace SecureTape

open List

variable {b c : Nat × Nat} {bs cs rest : List (Nat × Nat)} {cells : Nat → Prop} {cell top : Nat}

/-! ## Maximal runs -/

/-- The block has cells of the given ones only, and the cells next to it are none of them. -/
structure IsRun (cells : Nat → Prop) (b : Nat × Nat) : Prop where
  positive : 0 < b.2
  inside : ∀ cell, HasCell b cell → cells cell
  above : ¬ cells (b.1 + b.2)
  below : ∀ cell, cell + 1 = b.1 → ¬ cells cell

namespace IsRun

theorem contains (hb : IsRun cells b) (hc : IsRun cells c) (hcell : HasCell b cell)
    (hcell' : HasCell c cell) : b.1 ≤ c.1 ∧ c.1 + c.2 ≤ b.1 + b.2 := by
  unfold HasCell at hcell hcell'
  constructor
  · by_contra hlt
    refine hb.below (b.1 - 1) (by omega) (hc.inside _ ?_)
    unfold HasCell
    omega
  · by_contra hlt
    refine hb.above (hc.inside _ ?_)
    unfold HasCell
    omega

theorem eq_of_hasCell (hb : IsRun cells b) (hc : IsRun cells c) (hcell : HasCell b cell)
    (hcell' : HasCell c cell) : b = c := by
  have hle := hb.contains hc hcell hcell'
  have hge := hc.contains hb hcell' hcell
  exact Prod.ext (by omega) (by omega)

end IsRun

/-! ## Blocks as a part of a tiling -/

/-- Blocks that share no cell are a part of a tiling: the cells between them are blocks too. -/
theorem exists_tiles (hpositive : ∀ b ∈ bs, 0 < b.2) (hapart : bs.Pairwise Apart) :
    ∃ rest top, Tiles (bs ++ rest) top := by
  obtain ⟨top, htop⟩ : ∃ top, ∀ b ∈ bs, b.1 + b.2 ≤ top := by
    clear hpositive hapart
    induction bs with
    | nil => exact ⟨0, nofun⟩
    | cons b bs ih =>
      obtain ⟨top, htop⟩ := ih
      refine ⟨b.1 + b.2 + top, forall_mem_cons.2 ⟨Nat.le_add_right .., fun c hc => ?_⟩⟩
      exact (htop c hc).trans (Nat.le_add_left ..)
  let others := (range top).filter fun cell => ∀ b ∈ bs, ¬ HasCell b cell
  have hunit {x cell : Nat} : HasCell (x, 1) cell ↔ cell = x := by
    simp only [HasCell]
    omega
  have hothers {x : Nat} : x ∈ others ↔ x < top ∧ ∀ b ∈ bs, ¬ HasCell b x := by
    simp only [others, mem_filter, mem_range, decide_eq_true_eq]
  refine ⟨others.map (·, 1), top, ?_, pairwise_append.2 ⟨hapart, ?_, ?_⟩, fun cell => ?_⟩
  · intro b hb
    rcases mem_append.1 hb with hb | hb
    · exact hpositive b hb
    · obtain ⟨x, -, rfl⟩ := mem_map.1 hb
      exact Nat.one_pos
  · refine pairwise_map.2 ((nodup_range.filter _).imp fun hne cell hx hy => ?_)
    exact hne ((hunit.1 hx).symm.trans (hunit.1 hy))
  · intro b hb c hc cell hcell hcell'
    obtain ⟨x, hx, rfl⟩ := mem_map.1 hc
    exact (hothers.1 hx).2 b hb (hunit.1 hcell' ▸ hcell)
  · constructor
    · intro hlt
      by_cases hcell : ∃ b ∈ bs, HasCell b cell
      · obtain ⟨b, hb, hcell⟩ := hcell
        exact ⟨b, mem_append_left _ hb, hcell⟩
      · refine ⟨(cell, 1), mem_append_right _ (mem_map_of_mem (hothers.2 ⟨hlt, ?_⟩)), hunit.2 rfl⟩
        exact fun b hb hb' => hcell ⟨b, hb, hb'⟩
    · rintro ⟨b, hb, hcell⟩
      rcases mem_append.1 hb with hb | hb
      · exact hcell.2.trans_le (htop b hb)
      · obtain ⟨x, hx, rfl⟩ := mem_map.1 hb
        exact hunit.1 hcell ▸ (hothers.1 hx).1

theorem Tiles.exists_hasCell_iff (h : Tiles (bs ++ rest) top) :
    (∃ b ∈ bs, HasCell b cell) ↔ cell < top ∧ ∀ c ∈ rest, ¬ HasCell c cell := by
  have hcross := (pairwise_append.1 h.apart).2.2
  constructor
  · rintro ⟨b, hb, hcell⟩
    exact ⟨(h.covered cell).2 ⟨b, mem_append_left _ hb, hcell⟩,
      fun c hc => hcross b hb c hc cell hcell⟩
  · rintro ⟨hlt, hrest⟩
    obtain ⟨b, hb, hcell⟩ := (h.covered cell).1 hlt
    rcases mem_append.1 hb with hb | hb
    · exact ⟨b, hb, hcell⟩
    · exact absurd hcell (hrest b hb)

/-! ## Tidy lists -/

namespace FreeList

variable {l l' : FreeList} {addr size k v : Nat}

def Has (l : FreeList) (cell : Nat) : Prop := ∃ b ∈ l.byAddress, HasCell b cell

/-- Both indexes are in order and have the same blocks, and no two blocks touch. -/
structure Tidy (l : FreeList) : Prop where
  starts : l.byAddress.Pairwise (·.1 < ·.1)
  sizes : l.bySize.Pairwise (pairBefore · ·)
  indexed : l.Indexed
  positive : ∀ b ∈ l.byAddress, 0 < b.2
  apart : l.byAddress.Pairwise Apart
  untouched : ∀ b ∈ l.byAddress, ∀ c ∈ l.byAddress, b.1 + b.2 ≠ c.1

theorem tidy_empty : empty.Tidy :=
  ⟨.nil, .nil, indexed_empty, nofun, .nil, nofun⟩

theorem mem_putKey (h : b ∈ putKey k v bs) : b = (k, v) ∨ b ∈ bs := by
  induction bs with
  | nil => exact .inl (mem_singleton.1 h)
  | cons c bs ih =>
    unfold putKey at h
    split at h
    · exact mem_cons.1 h
    · split at h
      · exact (mem_cons.1 h).imp_right (.tail _)
      · rcases mem_cons.1 h with rfl | h
        · exact .inr (.head _)
        · exact (ih h).imp_right (.tail _)

theorem pairwise_putKey (h : bs.Pairwise (·.1 < ·.1)) : (putKey k v bs).Pairwise (·.1 < ·.1) := by
  induction bs with
  | nil => exact pairwise_singleton ..
  | cons c bs ih =>
    obtain ⟨hleast, hrest⟩ := pairwise_cons.1 h
    unfold putKey
    split
    · rename_i hlt
      exact .cons (forall_mem_cons.2 ⟨hlt, fun b hb => hlt.trans (hleast b hb)⟩) h
    · split
      · rename_i heq
        exact .cons (heq ▸ hleast) hrest
      · refine .cons (fun b hb => ?_) (ih hrest)
        rcases mem_putKey hb with rfl | hb
        · show c.1 < k
          omega
        · exact hleast b hb

theorem pairBefore_iff : pairBefore b c ↔ b.1 < c.1 ∨ b.1 = c.1 ∧ b.2 < c.2 := by
  simp [pairBefore]

theorem pairwise_putPair (h : bs.Pairwise (pairBefore · ·)) :
    (putPair b bs).Pairwise (pairBefore · ·) := by
  induction bs with
  | nil => exact pairwise_singleton ..
  | cons c bs ih =>
    obtain ⟨hleast, hrest⟩ := pairwise_cons.1 h
    unfold putPair
    split
    · rename_i hlt
      refine .cons (forall_mem_cons.2 ⟨hlt, fun d hd => ?_⟩) h
      have hd := hleast d hd
      rw [pairBefore_iff] at hlt hd ⊢
      omega
    · split
      · exact h
      · rename_i hlt hne
        refine .cons (fun d hd => ?_) (ih hrest)
        rcases mem_putPair.1 hd with rfl | hd
        · rw [Prod.ext_iff] at hne
          rw [pairBefore_iff] at hlt ⊢
          omega
        · exact hleast d hd

/-- What is left of the list when a block joins its neighbours has no block that ends where the
joined one starts. -/
theorem of_joinBelow (h : l.Tidy) {addr' size' : Nat}
    (hjoin : l.joinBelow addr size = (l', addr', size')) :
    l'.byAddress.Sublist l.byAddress ∧ l'.bySize.Sublist l.bySize ∧
      ∀ b ∈ l'.byAddress, b.1 + b.2 ≠ addr' := by
  -- blocks below the address other than the last end below it, since they end before the last
  have hlast {a s : Nat} {b : Nat × Nat} (hbelow : l.blockBelow? addr = some (a, s))
      (hb : b ∈ l.byAddress)
      (hend : b.1 + b.2 = addr) : b = (a, s) := by
    obtain ⟨init, hinit⟩ := getLast?_eq_some_iff.1 hbelow
    have hpos := h.positive b hb
    have hmem : b ∈ init ++ [(a, s)] := hinit ▸ mem_filter.2 ⟨hb, decide_eq_true (by omega)⟩
    have hlt : a < addr := by
      have : (a, s) ∈ l.byAddress.filter (·.1 < addr) := mem_of_getLast? hbelow
      simpa using (mem_filter.1 this).2
    rcases mem_append.1 hmem with hmem | hmem
    · have hsub : (init ++ [(a, s)]).Sublist l.byAddress := hinit ▸ filter_sublist
      have hstart := (pairwise_append.1 (h.starts.sublist hsub)).2.2 b hmem _ (.head _)
      have happart := (pairwise_append.1 (h.apart.sublist hsub)).2.2 b hmem _ (.head _)
      rw [apart_iff hpos (h.positive _ (hsub.subset (by simp)))] at happart
      simp only at hstart happart
      omega
    · exact mem_singleton.1 hmem
  unfold joinBelow at hjoin
  split at hjoin
  · rename_i a s hbelow
    have hmem : (a, s) ∈ l.byAddress := (mem_filter.1 (mem_of_getLast? hbelow)).1
    split at hjoin
    · cases hjoin
      exact ⟨filter_sublist, filter_sublist, fun b hb => h.untouched b (mem_of_mem_filter hb) _ hmem⟩
    · rename_i hne
      cases hjoin
      refine ⟨.refl _, .refl _, fun b hb hend => hne ?_⟩
      obtain rfl := hlast hbelow hb hend
      exact hend
  · rename_i hnone
    cases hjoin
    refine ⟨.refl _, .refl _, fun b hb hend => ?_⟩
    have hpos := h.positive b hb
    have hfilter : b ∉ l.byAddress.filter (·.1 < addr) := getLast?_eq_none_iff.1 hnone ▸ not_mem_nil
    exact hfilter (mem_filter.2 ⟨hb, decide_eq_true (by omega)⟩)

theorem of_joinAbove (h : ∀ b ∈ l.byAddress, ∀ c ∈ l.byAddress, b.1 + b.2 ≠ c.1) {size' : Nat}
    (hjoin : l.joinAbove addr size = (l', size')) :
    l'.byAddress.Sublist l.byAddress ∧ l'.bySize.Sublist l.bySize ∧
      ∀ b ∈ l'.byAddress, addr + size' ≠ b.1 := by
  unfold joinAbove at hjoin
  split at hjoin
  · rename_i s habove
    have hmem : (addr + size, s) ∈ l.byAddress := by
      obtain ⟨l₁, l₂, heq, -⟩ := lookup_eq_some_iff.1 habove
      simp [heq]
    cases hjoin
    refine ⟨filter_sublist, filter_sublist, fun b hb => ?_⟩
    rw [← Nat.add_assoc]
    exact h _ hmem b (mem_of_mem_filter hb)
  · rename_i hnone
    cases hjoin
    refine ⟨.refl _, .refl _, fun b hb heq => ?_⟩
    simpa [heq] using lookup_eq_none_iff.1 hnone b hb

theorem Tidy.insert (h : l.Tidy) (haddress : l'.byAddress.Sublist l.byAddress)
    (hsizes : l'.bySize.Sublist l.bySize) (hsize : 0 < size)
    (hbelow : ∀ b ∈ l'.byAddress, b.1 + b.2 ≠ addr) (habove : ∀ b ∈ l'.byAddress, addr + size ≠ b.1)
    (hindexed : (l'.insert addr size).Indexed)
    (ht : Tiles ((l'.insert addr size).byAddress ++ rest) top) : (l'.insert addr size).Tidy := by
  refine ⟨pairwise_putKey (h.starts.sublist haddress), pairwise_putPair (h.sizes.sublist hsizes),
    hindexed, fun b hb => ht.positive b (mem_append_left _ hb), (pairwise_append.1 ht.apart).1, ?_⟩
  intro b hb c hc
  rcases mem_putKey hb with rfl | hb
  · rcases mem_putKey hc with rfl | hc
    · show addr + size ≠ addr
      omega
    · exact habove c hc
  · rcases mem_putKey hc with rfl | hc
    · exact hbelow b hb
    · exact h.untouched b (haddress.subset hb) c (haddress.subset hc)

theorem Tidy.push (h : l.Tidy) (hsize : 0 < size)
    (hfresh : ∀ cell, HasCell (addr, size) cell → ¬ l.Has cell) :
    (l.push addr size).Tidy ∧
      ∀ cell, (l.push addr size).Has cell ↔ l.Has cell ∨ HasCell (addr, size) cell := by
  obtain ⟨rest, top, ht⟩ : ∃ rest top, Tiles ((addr, size) :: l.byAddress ++ rest) top := by
    refine exists_tiles (forall_mem_cons.2 ⟨hsize, h.positive⟩)
      (.cons (fun b hb cell hcell => ?_) h.apart)
    exact fun hcell' => hfresh cell hcell ⟨b, hb, hcell'⟩
  obtain ⟨hindexed, hpush⟩ := tiles_push h.indexed ht
  obtain ⟨haddress, hsizes, hbelow⟩ := of_joinBelow h rfl
  have huntouched : ∀ b ∈ (l.joinBelow addr size).1.byAddress,
      ∀ c ∈ (l.joinBelow addr size).1.byAddress, b.1 + b.2 ≠ c.1 :=
    fun b hb c hc => h.untouched b (haddress.subset hb) c (haddress.subset hc)
  obtain ⟨haddress', hsizes', habove⟩ := of_joinAbove huntouched
    (rfl : FreeList.joinAbove _ (l.joinBelow addr size).2.1 (l.joinBelow addr size).2.2 = _)
  have hjoined := (tiles_joinAbove rfl (tiles_joinBelow rfl h.indexed ht).1
    (tiles_joinBelow rfl h.indexed ht).2).2
  refine ⟨h.insert (haddress'.trans haddress) (hsizes'.trans hsizes) ?_ ?_ habove hindexed hpush, ?_⟩
  · exact hjoined.positive _ (.head _)
  · exact fun b hb => hbelow b (haddress'.subset hb)
  · intro cell
    rw [Has, hpush.exists_hasCell_iff, ← ht.exists_hasCell_iff, Has]
    simp only [mem_cons, exists_eq_or_imp]
    exact or_comm

theorem Tidy.pop (h : l.Tidy) (hsize : 0 < size) (hpop : l.pop? size = some (addr, l')) :
    l'.Tidy ∧ ∀ cell, l'.Has cell ↔ l.Has cell ∧ ¬ HasCell (addr, size) cell := by
  obtain ⟨rest, top, ht⟩ := exists_tiles h.positive h.apart
  obtain ⟨hindexed, htaken⟩ := tiles_of_pop hpop hsize h.indexed ht
  have htaken' : Tiles (l'.byAddress ++ (addr, size) :: rest) top := htaken.perm perm_middle.symm
  refine ⟨?_, fun cell => ?_⟩
  · unfold pop? at hpop
    split at hpop
    · cases hpop
    · rename_i found a hfind
      have hfound : size ≤ found := by simpa using find?_some hfind
      have hmem : (a, found) ∈ l.byAddress := (h.indexed a found).1 (mem_of_find?_eq_some hfind)
      cases hpop
      by_cases hlt : size < found
      · rw [if_pos hlt] at hindexed htaken' ⊢
        refine h.insert filter_sublist filter_sublist (Nat.sub_pos_of_lt hlt) ?_ ?_ hindexed htaken'
        · -- a block that ends inside of the one that is cut would share a cell with it
          intro b hb hend
          obtain ⟨hb, hne⟩ := mem_filter.1 hb
          have hne : b ≠ (addr, found) := fun heq => by simp [heq] at hne
          have hpos := h.positive b hb
          have happart : Apart b (addr, found) := h.apart.forall hb hmem hne
          rw [apart_iff hpos (h.positive _ hmem)] at happart
          simp only at happart
          omega
        · intro b hb
          have := h.untouched _ hmem b (mem_of_mem_filter hb)
          simp only at this
          omega
      · rw [if_neg hlt] at hindexed ⊢
        exact ⟨h.starts.sublist filter_sublist, h.sizes.sublist filter_sublist, hindexed,
          fun b hb => h.positive b (mem_of_mem_filter hb), h.apart.sublist filter_sublist,
          fun b hb c hc => h.untouched b (mem_of_mem_filter hb) c (mem_of_mem_filter hc)⟩
  · rw [Has, htaken'.exists_hasCell_iff, Has, ht.exists_hasCell_iff, forall_mem_cons]
    tauto

/-- The blocks of a tidy list are the maximal runs of its cells. -/
theorem Tidy.mem_iff_isRun (h : l.Tidy) : b ∈ l.byAddress ↔ IsRun l.Has b := by
  have hrun {b : Nat × Nat} (hb : b ∈ l.byAddress) : IsRun l.Has b := by
    have hpos := h.positive b hb
    -- a cell next to the block is in another one, which touches it
    have hother {c : Nat × Nat} (hc : c ∈ l.byAddress) (hne : c ≠ b) :
        c.1 + c.2 < b.1 ∨ b.1 + b.2 < c.1 := by
      have happart : Apart c b := h.apart.forall hc hb hne
      rw [apart_iff (h.positive c hc) hpos] at happart
      have h₁ := h.untouched b hb c hc
      have h₂ := h.untouched c hc b hb
      omega
    refine ⟨hpos, fun cell hcell => ⟨b, hb, hcell⟩, ?_, ?_⟩
    · rintro ⟨c, hc, hcell⟩
      unfold HasCell at hcell
      by_cases hne : c = b
      · rw [hne] at hcell
        omega
      · have := hother hc hne
        omega
    · rintro cell hnext ⟨c, hc, hcell⟩
      unfold HasCell at hcell
      by_cases hne : c = b
      · rw [hne] at hcell
        omega
      · have := hother hc hne
        omega
  refine ⟨hrun, fun hb => ?_⟩
  have hfirst : HasCell b b.1 := ⟨le_rfl, Nat.lt_add_of_pos_right hb.positive⟩
  obtain ⟨c, hc, hcell⟩ := hb.inside b.1 hfirst
  rwa [hb.eq_of_hasCell (hrun hc) hfirst hcell]

theorem Tidy.eq_of_has (h : l.Tidy) (h' : l'.Tidy) (hcells : ∀ cell, l'.Has cell ↔ l.Has cell) :
    l' = l := by
  have hhas : l'.Has = l.Has := funext fun cell => propext (hcells cell)
  have hmem (b : Nat × Nat) : b ∈ l'.byAddress ↔ b ∈ l.byAddress := by
    rw [h'.mem_iff_isRun, h.mem_iff_isRun, hhas]
  have hsizes (b : Nat × Nat) : b ∈ l'.bySize ↔ b ∈ l.bySize :=
    (h'.indexed b.2 b.1).trans ((hmem _).trans (h.indexed b.2 b.1).symm)
  have hirrefl : Std.Irrefl fun b c : Nat × Nat => pairBefore b c = true :=
    ⟨fun b => by simp [pairBefore]⟩
  have hantisymm : Std.Antisymm fun b c : Nat × Nat => pairBefore b c = true := by
    refine ⟨fun b c hbc hcb => ?_⟩
    rw [pairBefore_iff] at hbc hcb
    omega
  have haddress : l'.byAddress = l.byAddress := h'.starts.eq_of_mem_iff h.starts hmem
  have hsize : l'.bySize = l.bySize := h'.sizes.eq_of_mem_iff h.sizes hsizes
  cases l
  cases l'
  cases haddress
  cases hsize
  rfl

theorem Tidy.of_pop (h : l.Tidy) (hpop : l.pop? size = some (addr, l')) :
    ∃ found, size ≤ found ∧ IsRun l.Has (addr, found) ∧
      ∀ b, IsRun l.Has b → size ≤ b.2 → found < b.2 ∨ found = b.2 ∧ addr ≤ b.1 := by
  unfold pop? at hpop
  split at hpop
  · cases hpop
  · rename_i found a hfind
    cases hpop
    refine ⟨found, by simpa using find?_some hfind, ?_, fun b hb hle => ?_⟩
    · exact h.mem_iff_isRun.1 ((h.indexed addr found).1 (mem_of_find?_eq_some hfind))
    · obtain ⟨-, before, after, hsplit, hnone⟩ := find?_eq_some_iff_append.1 hfind
      have hmem : (b.2, b.1) ∈ l.bySize := (h.indexed b.1 b.2).2 (h.mem_iff_isRun.2 hb)
      rw [hsplit] at hmem
      rcases mem_append.1 hmem with hmem | hmem
      · simpa [hle] using hnone _ hmem
      · rcases mem_cons.1 hmem with heq | hmem
        · cases heq
          exact .inr ⟨rfl, le_rfl⟩
        · have hsorted := h.sizes
          rw [hsplit] at hsorted
          have hlt := (pairwise_cons.1 (pairwise_append.1 hsorted).2.1).1 _ hmem
          rw [pairBefore_iff] at hlt
          exact hlt.imp_right fun hlt => ⟨hlt.1, hlt.2.le⟩

theorem Tidy.pop?_eq_none_iff (h : l.Tidy) :
    l.pop? size = none ↔ ∀ b, IsRun l.Has b → b.2 < size := by
  have hnone : l.pop? size = none ↔ l.bySize.find? (size ≤ ·.1) = none := by
    unfold pop?
    cases l.bySize.find? (size ≤ ·.1) <;> simp
  rw [hnone, find?_eq_none]
  constructor
  · intro hall b hb
    simpa using hall (b.2, b.1) ((h.indexed b.1 b.2).2 (h.mem_iff_isRun.2 hb))
  · intro hall b hb
    simpa using hall (b.2, b.1) (h.mem_iff_isRun.1 ((h.indexed b.2 b.1).1 hb))

/-! ## Every sequence of steps -/

/-- The list is made by giving back blocks none of whose cells is free and by taking cells; with it
go the cells that are free. -/
inductive Reached : FreeList → (Nat → Prop) → Prop
  | empty : Reached empty fun _ => False
  | push {l : FreeList} {cells : Nat → Prop} {addr size : Nat} (h : Reached l cells)
      (hsize : 0 < size) (hfresh : ∀ cell, HasCell (addr, size) cell → ¬ cells cell) :
      Reached (l.push addr size) fun cell => cells cell ∨ HasCell (addr, size) cell
  | pop {l l' : FreeList} {cells : Nat → Prop} {addr size : Nat} (h : Reached l cells)
      (hsize : 0 < size) (hpop : l.pop? size = some (addr, l')) :
      Reached l' fun cell => cells cell ∧ ¬ HasCell (addr, size) cell

theorem Reached.tidy (h : Reached l cells) : l.Tidy ∧ l.Has = cells := by
  induction h with
  | empty => exact ⟨tidy_empty, funext fun _ => propext (iff_of_false nofun id)⟩
  | push _ hsize hfresh ih =>
    obtain ⟨htidy, rfl⟩ := ih
    obtain ⟨hpush, hhas⟩ := htidy.push hsize hfresh
    exact ⟨hpush, funext fun cell => propext (hhas cell)⟩
  | pop _ hsize hpop ih =>
    obtain ⟨htidy, rfl⟩ := ih
    obtain ⟨hpop', hhas⟩ := htidy.pop hsize hpop
    exact ⟨hpop', funext fun cell => propext (hhas cell)⟩

end FreeList

namespace Heap

open FreeList

variable {h h' : Heap} {cls : RegisterClass} {size addr : Nat} {pool : PoolId}

/-- All free lists of the heap are made by giving back blocks none of whose cells is free and by
taking cells. -/
def Listed (h : Heap) : Prop := ∀ cls, ∃ cells, Reached (h.free.get cls) cells

theorem Listed.set {l : FreeList} (hl : h.Listed) (hreached : ∃ cells, Reached l cells)
    (hfree : h'.free = h.free.set cls l) : h'.Listed := by
  intro c
  rw [hfree, PerClass.get_set]
  split
  · exact hreached
  · exact hl c

theorem Listed.release {p : PendingFree} {loose : List PendingFree} (hl : h.Listed)
    (ht : h.Tiled (p :: loose)) : (h.release p).Listed := by
  obtain ⟨cells, hcells⟩ := hl p.cls
  have htiles := ht.loose_tiles
  refine hl.set ⟨_, hcells.push (htiles.positive _ (.head _)) fun cell hcell hmem => ?_⟩ rfl
  obtain ⟨b, hb, hcell'⟩ : (h.free.get p.cls).Has cell := hcells.tidy.2 ▸ hmem
  refine (pairwise_cons.1 htiles.apart).1 b ?_ cell hcell hcell'
  exact mem_append_left _ (mem_append_left _ hb)

theorem Listed.releaseAll {loose : List PendingFree} (hl : h.Listed) (ht : h.Tiled loose) :
    (loose.foldl Heap.release h).Listed := by
  induction loose generalizing h with
  | nil => exact hl
  | cons p ps ih => exact ih (hl.release ht) ht.release

theorem Listed.act (hl : h.Listed) (hp : h.Partitioned) (call : HeapCall) :
    (call.act.run h).2.Listed := by
  cases call with
  | allocate cls size pool =>
    rcases hact : (HeapM.allocate cls size pool).run h with ⟨answer, h'⟩
    rw [HeapCall.act, Action.run_map, hact]
    obtain ⟨-, -, rfl⟩ | ⟨hpos, addr, free, hpop, -, rfl⟩ | ⟨-, -, -, rfl⟩ := allocate_cases hact
    · exact hl
    · obtain ⟨cells, hcells⟩ := hl cls
      exact hl.set ⟨_, hcells.pop hpos hpop⟩ rfl
    · exact hl
  | dealloc cls addr pool now =>
    rcases hact : (HeapM.dealloc cls addr pool now).run h with ⟨answer, h'⟩
    rw [HeapCall.act, Action.run_map, hact]
    obtain ⟨-, -, rfl⟩ | ⟨a, hfind, -, rfl⟩ := dealloc_cases hact
    · exact hl
    · cases now with
      | true => exact Listed.release hl (hp.forget hfind)
      | false => exact hl
  | flush => exact Listed.releaseAll hl hp.loosen

theorem Listed.after (hl : h.Listed) (hp : h.Partitioned) (hlimit : h.limit < lastEnd)
    (calls : List HeapCall) : (h.after calls).Listed := by
  induction calls generalizing h with
  | nil => exact hl
  | cons call calls ih =>
    obtain ⟨hstep, -⟩ := hp.act hlimit call rfl
    exact ih (hl.act hp call) hstep.partitioned (hstep.limit_eq.symm ▸ hlimit)

theorem pop?_eq_none_of_grown (hreuse : h.reuse = true)
    (halloc : (HeapM.allocate cls size pool).run h = (.ok addr, h'))
    (hgrown : h'.top.get cls ≠ h.top.get cls) : 0 < size ∧ (h.free.get cls).pop? size = none := by
  obtain ⟨_, hfault, -⟩ | ⟨-, _, _, -, -, rfl⟩ | ⟨hpos, -, -, -⟩ := allocate_cases halloc
  · cases hfault
  · exact absurd rfl hgrown
  · refine ⟨hpos, ?_⟩
    cases hpop : (h.free.get cls).pop? size with
    | none => rfl
    | some taken =>
      cases (run_allocate_of_pop hreuse hpos hpop).symm.trans halloc
      exact absurd rfl hgrown

/-- A free list that is made by giving back blocks none of whose cells is free and by taking cells
lists the maximal runs of free cells, by start and by size; so it depends on these cells only. A
request is refused if no run has enough cells, and is otherwise served from the front of the lowest
of the shortest runs that have. With reuse on, the top of a class rises only if no such number of
cells in a row is free; and a heap whose limit is below the last address has no other free lists. -/
theorem free_lists_canonical :
    (∀ l cells, Reached l cells →
      l.byAddress.Pairwise (·.1 < ·.1) ∧ (∀ b, b ∈ l.byAddress ↔ IsRun cells b) ∧
      l.bySize.Pairwise (pairBefore · ·) ∧
      (∀ addr size, (size, addr) ∈ l.bySize ↔ (addr, size) ∈ l.byAddress) ∧
      (∀ l' cells', Reached l' cells' → (∀ cell, cells' cell ↔ cells cell) → l' = l) ∧
      (∀ size, 0 < size →
        (l.pop? size = none ↔ ∀ b, IsRun cells b → b.2 < size) ∧
        ∀ addr l', l.pop? size = some (addr, l') →
          (∃ found, size ≤ found ∧ IsRun cells (addr, found) ∧
            ∀ b, IsRun cells b → size ≤ b.2 → found < b.2 ∨ found = b.2 ∧ addr ≤ b.1) ∧
          ∀ cell, l'.Has cell ↔ cells cell ∧ ¬ HasCell (addr, size) cell) ∧
      ∀ (h : Heap) cls size pool addr h', h.reuse = true → h.free.get cls = l →
        (HeapM.allocate cls size pool).run h = (.ok addr, h') → h'.top.get cls ≠ h.top.get cls →
        ∀ start, ∃ cell, HasCell (start, size) cell ∧ ¬ cells cell) ∧
    ∀ reuse limit calls, limit < lastEnd → (after { reuse := reuse, limit := limit } calls).Listed := by
  refine ⟨fun l cells hl => ?_, fun reuse limit calls hlimit => ?_⟩
  · obtain ⟨ht, rfl⟩ := hl.tidy
    refine ⟨ht.starts, fun _ => ht.mem_iff_isRun, ht.sizes, ht.indexed, ?_, ?_, ?_⟩
    · intro l' cells' hl' hcells
      obtain ⟨ht', rfl⟩ := hl'.tidy
      exact ht.eq_of_has ht' hcells
    · intro size hsize
      exact ⟨ht.pop?_eq_none_iff, fun addr l' hpop => ⟨ht.of_pop hpop, (ht.pop hsize hpop).2⟩⟩
    · rintro h cls size pool addr h' hreuse rfl halloc hgrown start
      by_contra! hfree
      obtain ⟨hpos, hnone⟩ := pop?_eq_none_of_grown hreuse halloc hgrown
      obtain ⟨b, hb, hcell⟩ := hfree start ⟨le_rfl, Nat.lt_add_of_pos_right hpos⟩
      have hrun := ht.mem_iff_isRun.1 hb
      have hshort := ht.pop?_eq_none_iff.1 hnone b hrun
      -- the cell behind the run is one of those in a row
      refine hrun.above (hfree _ ?_)
      unfold HasCell at hcell ⊢
      omega
  · exact Listed.after (fun cls => ⟨_, by simpa using Reached.empty⟩) (partitioned_new reuse limit)
      hlimit calls

/-- The order in which three neighbours are given back does not matter, and six cells are taken from
their front. -/
theorem free_lists_canonical_neighbours :
    ((FreeList.empty.push 0 2).push 4 3).push 2 2 = ((FreeList.empty.push 2 2).push 4 3).push 0 2 ∧
      (((FreeList.empty.push 0 2).push 4 3).push 2 2).pop? 8 = none ∧
      ∃ l' found, (((FreeList.empty.push 0 2).push 4 3).push 2 2).pop? 6 = some (0, l') ∧ 6 ≤ found ∧
        (0, found) ∈ (((FreeList.empty.push 0 2).push 4 3).push 2 2).byAddress := by
  have hl : Reached (((FreeList.empty.push 0 2).push 4 3).push 2 2) _ :=
    .push (.push (.push .empty (by decide) (by simp)) (by decide)
      (by simp only [HasCell, false_or]; omega))
      (by decide) (by simp only [HasCell, false_or]; omega)
  have hl' : Reached (((FreeList.empty.push 2 2).push 4 3).push 0 2) _ :=
    .push (.push (.push .empty (by decide) (by simp)) (by decide)
      (by simp only [HasCell, false_or]; omega))
      (by decide) (by simp only [HasCell, false_or]; omega)
  obtain ⟨-, hruns, -, -, hunique, hpop, -⟩ := free_lists_canonical.1 _ _ hl
  refine ⟨(hunique _ _ hl' fun cell => ?_).symm, by decide, ?_⟩
  · tauto
  · obtain ⟨⟨found, hle, hrun, -⟩, -⟩ := (hpop 6 (by decide)).2 0 _ rfl
    exact ⟨_, found, rfl, hle, (hruns _).2 hrun⟩

end Heap

end SecureTape
