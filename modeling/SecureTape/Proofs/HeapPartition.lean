import SecureTape.Heap.Basic
import SecureTape.Options
import SecureTape.Proofs.Actions
import SecureTape.Proofs.FreeLists

/-!
# The heap is always partitioned

For every class the blocks in use, the free blocks and the blocks that wait for a flush tile the
cells below the top of the class. Main statements:
1. `allocate_cases`, `dealloc_cases`: all that a call can do, its refusals included.
2. `Partitioned.act`: one call keeps the partition.
3. `after_partitioned`: the partition holds after every sequence of calls.
4. `allocate_within_limit`: the blocks of a heap whose limit is below the last address end within
   it.
5. `allocate_again`: a block that is given back at once serves the same request again.
-/

namespace SecureTape

open Action List PerClass

/-! ## Calls -/

variable {answer : Except HeapFault Nat} {p : PendingFree} {b : Nat × Nat} {a : Allocation}
  {free : FreeList}

/-- A call on a heap. -/
inductive HeapCall where
  | allocate (cls : RegisterClass) (size : Nat) (pool : PoolId)
  | dealloc (cls : RegisterClass) (addr : Nat) (pool : PoolId) (now : Bool)
  | flush
  deriving Repr, DecidableEq

/-- The action of a call; its answer is the address, if it asks for cells. -/
def HeapCall.act : HeapCall → HeapM (Option Nat)
  | .allocate cls size pool => some <$> HeapM.allocate cls size pool
  | .dealloc cls addr pool now => (fun _ => none) <$> HeapM.dealloc cls addr pool now
  | .flush => (fun _ => none) <$> (modify Heap.flush : HeapM PUnit)

namespace Heap

/-- The heap after some calls; a call that is refused does not stop the others. -/
def after (h : Heap) (calls : List HeapCall) : Heap :=
  calls.foldl (fun h call => (call.act.run h).2) h

variable {h h' : Heap} {cls : RegisterClass} {size addr : Nat} {pool : PoolId} {now : Bool}

theorem takeFree_cases {answer : Except HeapFault (Option Nat)}
    (hrun : (HeapM.takeFree cls size).run h = (answer, h')) :
    (answer = .ok none ∧ h' = h) ∨
    ∃ addr free, (h.free.get cls).pop? size = some (addr, free) ∧ answer = .ok (some addr) ∧
      h' = { h with free := h.free.set cls free, saved := h.saved + size } := by
  unfold HeapM.takeFree at hrun
  rw [run_get_bind] at hrun
  split at hrun
  · rename_i addr free htake
    cases hrun
    refine .inr ⟨addr, free, ?_, rfl, rfl⟩
    split at htake
    · exact htake
    · cases htake
  · cases hrun
    exact .inl ⟨rfl, rfl⟩

theorem grow_cases (hrun : (HeapM.grow cls size).run h = (answer, h')) :
    (∃ fault, answer = .error fault ∧ h' = h) ∨
    (min (h.top.get cls + size) lastEnd ≤ h.limit ∧ answer = .ok (h.top.get cls) ∧
      h' = { h with top := h.top.set cls (min (h.top.get cls + size) lastEnd) }) := by
  unfold HeapM.grow at hrun
  rw [run_get_bind] at hrun
  dsimp only at hrun
  split at hrun
  · cases hrun
    exact .inl ⟨_, rfl, rfl⟩
  · rename_i hfits
    cases hrun
    exact .inr ⟨Nat.le_of_not_lt hfits, rfl, rfl⟩

theorem allocate_cases (hrun : (HeapM.allocate cls size pool).run h = (answer, h')) :
    (∃ fault, answer = .error fault ∧ h' = h) ∨
    (0 < size ∧ ∃ addr free, (h.free.get cls).pop? size = some (addr, free) ∧ answer = .ok addr ∧
      h' = { h with free := h.free.set cls free, saved := h.saved + size }.record
        ⟨cls, addr, size, pool⟩) ∨
    (0 < size ∧ min (h.top.get cls + size) lastEnd ≤ h.limit ∧ answer = .ok (h.top.get cls) ∧
      h' = { h with top := h.top.set cls (min (h.top.get cls + size) lastEnd) }.record
        ⟨cls, h.top.get cls, size, pool⟩) := by
  unfold HeapM.allocate at hrun
  split at hrun
  · cases hrun
    exact .inl ⟨_, rfl, rfl⟩
  rename_i hsize
  dsimp only at hrun
  have hpos : 0 < size := Nat.pos_of_ne_zero hsize
  rcases htake : (HeapM.takeFree cls size).run h with ⟨taken, h₁⟩
  obtain ⟨rfl, rfl⟩ | ⟨addr, free, hpop, rfl, rfl⟩ := takeFree_cases htake
  · rcases hgrow : (HeapM.grow cls size).run h₁ with ⟨grown, h₂⟩
    obtain ⟨fault, rfl, rfl⟩ | ⟨hfits, rfl, rfl⟩ := grow_cases hgrow
    · rw [run_bind_ok htake, run_bind_error hgrow] at hrun
      cases hrun
      exact .inl ⟨_, rfl, rfl⟩
    · rw [run_bind_ok htake, run_bind_ok hgrow] at hrun
      cases hrun
      exact .inr (.inr ⟨hpos, hfits, rfl, rfl⟩)
  · rw [run_bind_ok htake] at hrun
    cases hrun
    exact .inr (.inl ⟨hpos, addr, free, hpop, rfl, rfl⟩)

theorem dealloc_cases {answer : Except HeapFault Unit}
    (hrun : (HeapM.dealloc cls addr pool now).run h = (answer, h')) :
    (∃ fault, answer = .error fault ∧ h' = h) ∨
    (∃ a, h.find? cls addr = some a ∧ answer = .ok () ∧
      h' = if now then (h.forget cls addr).release ⟨cls, addr, a.size⟩
        else { h.forget cls addr with pending := h.pending ++ [⟨cls, addr, a.size⟩] }) := by
  unfold HeapM.dealloc at hrun
  rw [run_get_bind] at hrun
  split at hrun
  · cases hrun
    exact .inl ⟨_, rfl, rfl⟩
  · rename_i a hfind
    by_cases hpool : a.pool = pool
    · refine .inr ⟨a, hfind, ?_⟩
      rw [if_neg (not_not.2 hpool)] at hrun
      cases now
      all_goals
        cases hrun
        exact ⟨rfl, rfl⟩
    · rw [if_pos hpool] at hrun
      cases hrun
      exact .inl ⟨_, rfl, rfl⟩

/-! ## The blocks of a class -/

/-- Start and size of the blocks of a class among some that are to be given back. -/
def blocksOf (ps : List PendingFree) (cls : RegisterClass) : List (Nat × Nat) :=
  (ps.filter (·.cls = cls)).map fun p => (p.addr, p.size)

/-- Start and size of the blocks of a class in use. -/
def liveBlocks (h : Heap) (cls : RegisterClass) : List (Nat × Nat) :=
  (h.live.filter (·.cls = cls)).map fun a => (a.addr, a.size)

/-- Start and size of the blocks of a class that wait for a flush. -/
def pendingBlocks (h : Heap) (cls : RegisterClass) : List (Nat × Nat) :=
  blocksOf h.pending cls

/-- Start and size of all blocks of a class: free, in use, and waiting. -/
def blocks (h : Heap) (cls : RegisterClass) : List (Nat × Nat) :=
  (h.free.get cls).byAddress ++ (h.liveBlocks cls ++ h.pendingBlocks cls)

@[simp] theorem blocksOf_nil : blocksOf [] cls = [] := rfl

theorem blocksOf_cons_self (p : PendingFree) (ps : List PendingFree) :
    blocksOf (p :: ps) p.cls = (p.addr, p.size) :: blocksOf ps p.cls := by
  simp [blocksOf]

theorem blocksOf_cons_of_ne (ps : List PendingFree) (hne : cls ≠ p.cls) :
    blocksOf (p :: ps) cls = blocksOf ps cls := by
  simp [blocksOf, hne.symm]

theorem blocksOf_append (ps qs : List PendingFree) :
    blocksOf (ps ++ qs) cls = blocksOf ps cls ++ blocksOf qs cls := by
  simp [blocksOf]

theorem mem_liveBlocks :
    b ∈ h.liveBlocks cls ↔ ∃ a ∈ h.live, a.cls = cls ∧ (a.addr, a.size) = b := by
  simp [liveBlocks, and_assoc]

/-- The partition in the middle of a call: the blocks of the heap, together with loose ones that
are in none of its lists, tile the cells below the top of each class. -/
structure Tiled (h : Heap) (loose : List PendingFree) : Prop where
  indexed : ∀ cls, (h.free.get cls).Indexed
  tiles : ∀ cls, Tiles (h.blocks cls ++ blocksOf loose cls) (h.top.get cls)
  top_le : ∀ cls, h.top.get cls ≤ h.limit

/-- All blocks of a class tile the cells below its top. -/
abbrev Partitioned (h : Heap) : Prop := h.Tiled []

namespace Tiled

variable {loose : List PendingFree}

theorem loose_tiles (ht : h.Tiled (p :: loose)) :
    Tiles ((p.addr, p.size) :: (h.blocks p.cls ++ blocksOf loose p.cls)) (h.top.get p.cls) := by
  have := ht.tiles p.cls
  rw [blocksOf_cons_self] at this
  exact this.perm perm_middle

theorem other_tiles (ht : h.Tiled (p :: loose)) (hne : cls ≠ p.cls) :
    Tiles (h.blocks cls ++ blocksOf loose cls) (h.top.get cls) := by
  have := ht.tiles cls
  rwa [blocksOf_cons_of_ne loose hne] at this

theorem loose_apart (ht : h.Tiled (p :: loose)) :
    ∀ b ∈ h.liveBlocks p.cls ++ h.pendingBlocks p.cls, Apart (p.addr, p.size) b := by
  intro b hb
  refine (pairwise_cons.1 ht.loose_tiles.apart).1 b ?_
  exact mem_append_left _ (mem_append_right _ hb)

theorem release (ht : h.Tiled (p :: loose)) : (h.release p).Tiled loose := by
  have hself := ht.loose_tiles
  rw [blocks, append_assoc] at hself
  obtain ⟨hindexed, htiles⟩ := FreeList.tiles_push (ht.indexed p.cls) hself
  refine ⟨fun cls => ?_, fun cls => ?_, ht.top_le⟩
  · by_cases hcls : cls = p.cls
    · subst hcls
      simpa [Heap.release] using hindexed
    · simpa [Heap.release, get_set_of_ne _ _ hcls] using ht.indexed cls
  · by_cases hcls : cls = p.cls
    · subst hcls
      rw [← append_assoc] at htiles
      simpa [Heap.release, blocks, liveBlocks, pendingBlocks] using htiles
    · have hother := ht.other_tiles hcls
      simpa [Heap.release, blocks, liveBlocks, pendingBlocks, get_set_of_ne _ _ hcls]
        using hother

theorem record (ht : h.Tiled [⟨a.cls, a.addr, a.size⟩]) : (h.record a).Partitioned := by
  have hself := ht.loose_tiles
  have hfresh : h.live.filter (fun b => ¬ (b.cls = a.cls ∧ b.addr = a.addr)) = h.live := by
    refine filter_eq_self.2 ?_
    rintro b hb
    simp only [decide_eq_true_eq]
    rintro ⟨hcls, haddr⟩
    have hmem : (b.addr, b.size) ∈ h.liveBlocks a.cls := mem_liveBlocks.2 ⟨b, hb, hcls, rfl⟩
    refine hself.start_ne (b := (b.addr, b.size)) ?_ haddr
    simp [blocks, hmem]
  have hlive : (h.record a).live = a :: h.live := congrArg (a :: ·) hfresh
  refine ⟨ht.indexed, fun cls => ?_, ht.top_le⟩
  rw [blocksOf_nil, append_nil]
  by_cases hcls : cls = a.cls
  · subst hcls
    have hblocks : (h.record a).liveBlocks a.cls = (a.addr, a.size) :: h.liveBlocks a.cls := by
      simp [liveBlocks, hlive]
    rw [blocksOf_nil, append_nil] at hself
    rw [blocks, hblocks]
    exact hself.perm perm_middle.symm
  · have hblocks : (h.record a).liveBlocks cls = h.liveBlocks cls := by
      simp [liveBlocks, hlive, Ne.symm hcls]
    have hother := ht.other_tiles hcls
    rw [blocksOf_nil, append_nil] at hother
    rw [blocks, hblocks]
    exact hother

theorem wait (ht : h.Tiled [p]) :
    Partitioned { h with pending := h.pending ++ [p] } := by
  refine ⟨ht.indexed, fun cls => ?_, ht.top_le⟩
  simpa [blocks, liveBlocks, pendingBlocks, blocksOf_append] using ht.tiles cls

theorem releaseAll (ht : h.Tiled loose) : (loose.foldl Heap.release h).Partitioned := by
  induction loose generalizing h with
  | nil => exact ht
  | cons p ps ih => exact ih ht.release

end Tiled

/-! ## One call -/

namespace Partitioned

theorem tiles_blocks (hp : h.Partitioned) (cls : RegisterClass) :
    Tiles (h.blocks cls) (h.top.get cls) := by
  simpa using hp.tiles cls

theorem mem_blocks_of_live (hb : b ∈ h.liveBlocks cls) : b ∈ h.blocks cls := by
  simp [blocks, hb]

theorem perm_forget (hp : h.Partitioned) (ha : a ∈ h.live) :
    (h.liveBlocks a.cls).Perm
      ((a.addr, a.size) :: (h.forget a.cls a.addr).liveBlocks a.cls) := by
  have htiles := hp.tiles_blocks a.cls
  have hown : (a.addr, a.size) ∈ h.liveBlocks a.cls := mem_liveBlocks.2 ⟨a, ha, rfl, rfl⟩
  have hnodup : (h.liveBlocks a.cls).Nodup := htiles.nodup.of_append_right.of_append_left
  have hsub : ((h.forget a.cls a.addr).liveBlocks a.cls).Sublist (h.liveBlocks a.cls) :=
    (filter_sublist.filter _).map _
  have hgone : (a.addr, a.size) ∉ (h.forget a.cls a.addr).liveBlocks a.cls := by
    rw [mem_liveBlocks]
    rintro ⟨b, hb, hcls, heq⟩
    have hne := (mem_filter.1 hb).2
    simp only [Prod.mk.injEq] at heq
    simp [hcls, heq.1] at hne
  refine (perm_ext_iff_of_nodup hnodup (nodup_cons.2 ⟨hgone, hnodup.sublist hsub⟩)).2 ?_
  intro b
  rw [mem_cons]
  constructor
  · intro hb
    by_cases haddr : b.1 = a.addr
    · exact .inl (htiles.eq_of_start (mem_blocks_of_live hb) (mem_blocks_of_live hown) haddr)
    · obtain ⟨c, hc, hcls, rfl⟩ := mem_liveBlocks.1 hb
      refine .inr (mem_liveBlocks.2 ⟨c, mem_filter.2 ⟨hc, ?_⟩, hcls, rfl⟩)
      simpa [hcls] using haddr
  · rintro (rfl | hb)
    · exact hown
    · exact hsub.subset hb

theorem forget (hp : h.Partitioned) (hfind : h.find? cls addr = some a) :
    (h.forget cls addr).Tiled [⟨cls, addr, a.size⟩] := by
  have ha : a ∈ h.live := mem_of_find?_eq_some hfind
  obtain ⟨rfl, rfl⟩ : a.cls = cls ∧ a.addr = addr := by simpa using find?_some hfind
  refine ⟨hp.indexed, fun cls => ?_, hp.top_le⟩
  have htiles := hp.tiles_blocks cls
  by_cases hcls : cls = a.cls
  · subst hcls
    rw [blocksOf_cons_self ⟨a.cls, a.addr, a.size⟩, blocksOf_nil]
    refine htiles.perm ?_
    rw [blocks, blocks, append_assoc]
    refine .append_left _ (((hp.perm_forget ha).append_right _).trans ?_)
    exact (perm_append_singleton _ _).symm
  · have hother : (h.forget a.cls a.addr).liveBlocks cls = h.liveBlocks cls := by
      unfold liveBlocks Heap.forget
      rw [filter_filter]
      refine congrArg _ (filter_congr fun b _ => ?_)
      by_cases hb : b.cls = cls
      · simp [hb, hcls]
      · simp [hb]
    rw [blocksOf_cons_of_ne (p := ⟨a.cls, a.addr, a.size⟩) _ hcls, blocks, hother, blocksOf_nil,
      append_nil]
    exact htiles

theorem take (hp : h.Partitioned) (saved : Nat) (hsize : 0 < size)
    (hpop : (h.free.get cls).pop? size = some (addr, free)) :
    ({ h with free := h.free.set cls free, saved } : Heap).Tiled [⟨cls, addr, size⟩] := by
  obtain ⟨hindexed, htiles⟩ :=
    FreeList.tiles_of_pop hpop hsize (hp.indexed cls) (hp.tiles_blocks cls)
  refine ⟨fun c => ?_, fun c => ?_, hp.top_le⟩
  · by_cases hc : c = cls
    · subst hc
      simpa using hindexed
    · simpa [get_set_of_ne _ _ hc] using hp.indexed c
  · by_cases hc : c = cls
    · subst hc
      rw [blocksOf_cons_self ⟨c, addr, size⟩, blocksOf_nil]
      refine Tiles.perm ?_ (perm_append_singleton _ _).symm
      simpa [blocks, liveBlocks, pendingBlocks] using htiles
    · rw [blocksOf_cons_of_ne (p := ⟨cls, addr, size⟩) _ hc]
      simpa [blocks, liveBlocks, pendingBlocks, get_set_of_ne _ _ hc] using hp.tiles c

theorem grow (hp : h.Partitioned) (hsize : 0 < size) (hfits : h.top.get cls + size ≤ h.limit) :
    ({ h with top := h.top.set cls (h.top.get cls + size) } : Heap).Tiled
      [⟨cls, h.top.get cls, size⟩] := by
  refine ⟨hp.indexed, fun c => ?_, fun c => ?_⟩
  · by_cases hc : c = cls
    · subst hc
      rw [blocksOf_cons_self ⟨c, h.top.get c, size⟩, blocksOf_nil, get_set_self]
      exact ((hp.tiles_blocks c).grow hsize).perm (perm_append_singleton _ _).symm
    · rw [blocksOf_cons_of_ne (p := ⟨cls, h.top.get cls, size⟩) _ hc, get_set_of_ne _ _ hc]
      exact hp.tiles c
  · rw [get_set]
    split
    · exact hfits
    · exact hp.top_le c

theorem loosen (hp : h.Partitioned) : ({ h with pending := [] } : Heap).Tiled h.pending := by
  refine ⟨hp.indexed, fun cls => ?_, hp.top_le⟩
  simpa [blocks, liveBlocks, pendingBlocks] using hp.tiles cls

theorem flush (hp : h.Partitioned) : h.flush.Partitioned := hp.loosen.releaseAll

end Partitioned

/-- The partition and the limit stay, and no top falls. -/
structure StepsTo (h h' : Heap) : Prop where
  partitioned : h'.Partitioned
  limit_eq : h'.limit = h.limit
  top_mono : ∀ cls, h.top.get cls ≤ h'.top.get cls

namespace Partitioned

theorem stays (hp : h.Partitioned) : h.StepsTo h :=
  ⟨hp, rfl, fun _ => Nat.le_refl _⟩

theorem allocate (hp : h.Partitioned) (hlimit : h.limit < lastEnd)
    (hrun : (HeapM.allocate cls size pool).run h = (answer, h')) :
    h.StepsTo h' ∧ ((∃ fault, answer = .error fault ∧ h' = h) ∨
      ∃ addr, answer = .ok addr ∧ ⟨cls, addr, size, pool⟩ ∈ h'.live ∧
        ∀ b ∈ h.liveBlocks cls ++ h.pendingBlocks cls, Apart (addr, size) b) := by
  obtain ⟨fault, rfl, rfl⟩ | ⟨hpos, addr, free, hpop, rfl, rfl⟩ | ⟨hpos, hfits, rfl, rfl⟩ :=
    allocate_cases hrun
  · exact ⟨hp.stays, .inl ⟨fault, rfl, rfl⟩⟩
  · have hloose := hp.take (h.saved + size) hpos hpop
    refine ⟨⟨hloose.record, rfl, fun _ => Nat.le_refl _⟩, .inr ⟨addr, rfl, .head _, ?_⟩⟩
    exact hloose.loose_apart
  · -- The limit is below the last address, so a block that fits has not been cut off there.
    have hstop : min (h.top.get cls + size) lastEnd = h.top.get cls + size := by omega
    rw [hstop] at hfits ⊢
    have hloose := hp.grow hpos hfits
    refine ⟨⟨hloose.record, rfl, fun c => ?_⟩, .inr ⟨_, rfl, .head _, ?_⟩⟩
    · show h.top.get c ≤ (h.top.set cls (h.top.get cls + size)).get c
      rw [get_set]
      split
      · subst c
        exact Nat.le_add_right _ _
      · exact Nat.le_refl _
    · exact hloose.loose_apart

theorem dealloc (hp : h.Partitioned) {answer : Except HeapFault Unit}
    (hrun : (HeapM.dealloc cls addr pool now).run h = (answer, h')) :
    h.StepsTo h' ∧ ∀ fault, answer = .error fault → h' = h := by
  obtain ⟨fault, rfl, rfl⟩ | ⟨a, hfind, rfl, rfl⟩ := dealloc_cases hrun
  · exact ⟨hp.stays, fun _ _ => rfl⟩
  · have hloose := hp.forget hfind
    refine ⟨?_, by rintro _ ⟨⟩⟩
    cases now with
    | true => exact ⟨hloose.release, rfl, fun _ => Nat.le_refl _⟩
    | false => exact ⟨hloose.wait, rfl, fun _ => Nat.le_refl _⟩

end Partitioned

theorem foldl_release_limit (ps : List PendingFree) (h : Heap) :
    (ps.foldl release h).limit = h.limit ∧ (ps.foldl release h).top = h.top := by
  induction ps generalizing h with
  | nil => exact ⟨rfl, rfl⟩
  | cons p ps ih => exact ih (h.release p)

theorem Partitioned.act (hp : h.Partitioned) (hlimit : h.limit < lastEnd) (call : HeapCall)
    {answer : Except HeapFault (Option Nat)} (hrun : call.act.run h = (answer, h')) :
    h.StepsTo h' ∧ ∀ fault, answer = .error fault → h' = h := by
  cases call with
  | allocate cls size pool =>
    rcases hact : (HeapM.allocate cls size pool).run h with ⟨r, h₁⟩
    rw [HeapCall.act, run_map, hact] at hrun
    cases hrun
    obtain ⟨hstep, ⟨fault, rfl, rfl⟩ | ⟨addr, rfl, -⟩⟩ := hp.allocate hlimit hact
    · exact ⟨hstep, fun _ _ => rfl⟩
    · exact ⟨hstep, by rintro _ ⟨⟩⟩
  | dealloc cls addr pool now =>
    rcases hact : (HeapM.dealloc cls addr pool now).run h with ⟨r, h₁⟩
    rw [HeapCall.act, run_map, hact] at hrun
    cases hrun
    obtain ⟨hstep, hsame⟩ := hp.dealloc hact
    refine ⟨hstep, ?_⟩
    cases r with
    | error fault => exact fun _ _ => hsame fault rfl
    | ok _ => rintro _ ⟨⟩
  | flush =>
    cases hrun
    obtain ⟨hlimit', htop⟩ := foldl_release_limit h.pending { h with pending := [] }
    refine ⟨⟨hp.flush, hlimit', fun cls => ?_⟩, by rintro _ ⟨⟩⟩
    exact Nat.le_of_eq (congrArg (get · cls) htop).symm

/-! ## Every sequence of calls -/

theorem partitioned_new (reuse : Bool) (limit : Nat) :
    Partitioned { reuse := reuse, limit := limit } := by
  refine ⟨fun cls => ?_, fun cls => ?_, fun cls => ?_⟩
  · simpa using FreeList.indexed_empty
  · simpa [blocks, liveBlocks, pendingBlocks, FreeList.empty] using Tiles.nil
  · simp

theorem Partitioned.after (hp : h.Partitioned) (hlimit : h.limit < lastEnd) (calls : List HeapCall) :
    h.StepsTo (h.after calls) := by
  induction calls generalizing h with
  | nil => exact hp.stays
  | cons call calls ih =>
    have hrun : call.act.run h = ((call.act.run h).1, (call.act.run h).2) := rfl
    obtain ⟨hstep, -⟩ := hp.act hlimit call hrun
    have hrest := ih hstep.partitioned (by rw [hstep.limit_eq]; exact hlimit)
    exact ⟨hrest.partitioned, hrest.limit_eq.trans hstep.limit_eq,
      fun cls => Nat.le_trans (hstep.top_mono cls) (hrest.top_mono cls)⟩

/-- After every sequence of calls on a heap whose limit is below the last address, and for every
class: the free blocks, the blocks in use and those that wait are disjoint and cover exactly the
cells below the top, which is at most the limit. A further call never lowers the top, and if it is
refused it changes nothing; if it hands out cells, no block in use and none that waits had one of
them. -/
theorem after_partitioned (reuse : Bool) (limit : Nat) (hlimit : limit < lastEnd)
    (calls : List HeapCall) (h : Heap)
    (hcalls : after { reuse := reuse, limit := limit } calls = h) :
    (∀ cls, Tiles (h.blocks cls) (h.top.get cls) ∧ h.top.get cls ≤ limit) ∧
    (∀ (call : HeapCall) answer h', call.act.run h = (answer, h') →
      (∀ cls, h.top.get cls ≤ h'.top.get cls) ∧ ∀ fault, answer = .error fault → h' = h) ∧
    ∀ cls size pool addr h', (HeapM.allocate cls size pool).run h = (.ok addr, h') →
      ⟨cls, addr, size, pool⟩ ∈ h'.live ∧
      ∀ b ∈ h.liveBlocks cls ++ h.pendingBlocks cls, Apart (addr, size) b := by
  have hstart : Partitioned { reuse := reuse, limit := limit } := partitioned_new reuse limit
  have hrun := hstart.after hlimit calls
  rw [hcalls] at hrun
  have hp := hrun.partitioned
  have heq : h.limit = limit := hrun.limit_eq
  have hbound : h.limit < lastEnd := by rw [heq]; exact hlimit
  refine ⟨fun cls => ⟨hp.tiles_blocks cls, heq ▸ hp.top_le cls⟩, ?_, ?_⟩
  · intro call answer h' hact
    obtain ⟨hstep, hsame⟩ := hp.act hbound call hact
    exact ⟨hstep.top_mono, hsame⟩
  · intro cls size pool addr h' hact
    obtain ⟨-, ⟨fault, hfault, -⟩ | ⟨addr', haddr, hlive, hapart⟩⟩ := hp.allocate hbound hact
    · cases hfault
    · cases haddr
      exact ⟨hlive, hapart⟩

/-- Of ten cells, four are given back at once and four wait; three are taken again, and a request
for two more is refused. -/
theorem after_partitioned_ten : ∃ h : Heap,
    after { reuse := true, limit := 10 }
      [.allocate .clear 4 ⟨0, 0⟩, .allocate .clear 4 ⟨0, 0⟩, .allocate .clear 2 ⟨0, 1⟩,
        .dealloc .clear 0 ⟨0, 0⟩ true, .dealloc .clear 4 ⟨0, 0⟩ false,
        .allocate .clear 3 ⟨0, 0⟩, .allocate .clear 2 ⟨0, 0⟩] = h ∧
    10 < lastEnd ∧ h.blocks .clear = [(3, 1), (0, 3), (8, 2), (4, 4)] ∧
    Tiles (h.blocks .clear) 10 := by
  refine ⟨_, rfl, by decide, by decide, ?_⟩
  exact ((after_partitioned true 10 (by decide) _ _ rfl).1 .clear).1

/-- After every sequence of calls on a heap whose limit is below the last address, a block that is
handed out ends within the limit and has no cell of a block in use. -/
theorem allocate_within_limit (reuse : Bool) (limit : Nat) (hlimit : limit < lastEnd)
    (calls : List HeapCall) (h : Heap) (hcalls : after { reuse := reuse, limit := limit } calls = h)
    (halloc : (HeapM.allocate cls size pool).run h = (.ok addr, h')) :
    addr + size ≤ limit ∧ ∀ b ∈ h.liveBlocks cls, Apart (addr, size) b := by
  have hrun := (partitioned_new reuse limit).after hlimit calls
  rw [hcalls] at hrun
  have heq : h.limit = limit := hrun.limit_eq
  obtain ⟨hstep, ⟨_, hfault, -⟩ | ⟨_, ⟨⟩, hlive, hapart⟩⟩ :=
    hrun.partitioned.allocate (heq ▸ hlimit) halloc
  · cases hfault
  · have hmem : (addr, size) ∈ h'.blocks cls :=
      Partitioned.mem_blocks_of_live (mem_liveBlocks.2 ⟨_, hlive, rfl, rfl⟩)
    refine ⟨?_, fun b hb => hapart b (mem_append_left _ hb)⟩
    calc addr + size ≤ h'.top.get cls := (hstep.partitioned.tiles_blocks cls).end_le hmem
      _ ≤ h'.limit := hstep.partitioned.top_le cls
      _ = limit := hstep.limit_eq.trans heq

/-- One below the last address, a block ends at the limit. -/
theorem allocate_within_limit_below :
    let h := after { reuse := true, limit := lastEnd - 1 } [.allocate .secret (lastEnd - 3) ⟨0, 0⟩]
    lastEnd - 1 < lastEnd ∧
      ((HeapM.allocate .secret 2 ⟨0, 0⟩).run h).1 = .ok (lastEnd - 3) ∧
      Apart (lastEnd - 3, 2) (0, lastEnd - 3) := by
  intro h
  have halloc : ((HeapM.allocate .secret 2 ⟨0, 0⟩).run h).1 = .ok (lastEnd - 3) := by decide +kernel
  refine ⟨by decide, halloc, ?_⟩
  rcases hrun : (HeapM.allocate .secret 2 ⟨0, 0⟩).run h with ⟨_, h'⟩
  rw [hrun] at halloc
  subst halloc
  exact (allocate_within_limit true (lastEnd - 1) (by decide) _ h rfl hrun).2 _ (by decide +kernel)

/-- The last address is a limit that options may have, and a heap with this limit refuses nothing: a
block that would end after it is taken to end there. Five cells are handed out where one is left,
and five more that start with the last of them. -/
theorem allocate_past_limit :
    let h := after { reuse := false, limit := lastEnd } [.allocate .secret (lastEnd - 1) ⟨0, 0⟩]
    let first := (HeapM.allocate .secret 5 ⟨0, 0⟩).run h
    let second := (HeapM.allocate .secret 5 ⟨0, 0⟩).run first.2
    ({ memoryLimit := lastEnd } : Options).fault? = none ∧
      first.1 = .ok (lastEnd - 1) ∧ lastEnd < lastEnd - 1 + 5 ∧
      second.1 = .ok lastEnd ∧ ¬ Apart (lastEnd, 5) (lastEnd - 1, 5) := by
  refine ⟨by decide, by decide +kernel, by decide, by decide +kernel,
    fun hapart => hapart lastEnd ?_ ?_⟩
  · exact ⟨Nat.le_refl _, by decide⟩
  · exact ⟨by decide, by decide⟩

/-! ## The same request twice -/

theorem run_allocate_of_pop (hreuse : h.reuse) (hsize : 0 < size)
    (hpop : (h.free.get cls).pop? size = some (addr, free)) :
    (HeapM.allocate cls size pool).run h =
      (.ok addr, { h with free := h.free.set cls free, saved := h.saved + size }.record
        ⟨cls, addr, size, pool⟩) := by
  have htake : (HeapM.takeFree cls size).run h =
      (.ok (some addr), { h with free := h.free.set cls free, saved := h.saved + size }) := by
    rw [HeapM.takeFree, run_get_bind, hreuse, if_pos rfl, hpop]
    rfl
  rw [HeapM.allocate, if_neg (Nat.ne_of_gt hsize)]
  dsimp only
  rw [run_bind_ok htake]
  rfl

/-- If reuse is on, a block that was handed out can be given back at once; the same request then
succeeds again, and without raising the top. -/
theorem allocate_again (hreuse : h.reuse = true)
    (halloc : (HeapM.allocate cls size pool).run h = (.ok addr, h')) :
    ∃ freed addr' last, (HeapM.dealloc cls addr pool true).run h' = (.ok ⟨⟩, freed) ∧
      (HeapM.allocate cls size pool).run freed = (.ok addr', last) ∧ last.top = h'.top := by
  obtain ⟨hpos, start, rfl, hstart⟩ : 0 < size ∧ ∃ start : Heap,
      h' = start.record ⟨cls, addr, size, pool⟩ ∧ start.reuse = true := by
    obtain ⟨fault, h, -⟩ | ⟨hpos, _, free, -, h, rfl⟩ | ⟨hpos, -, h, rfl⟩ :=
      allocate_cases halloc <;> cases h
    · exact ⟨hpos, _, rfl, hreuse⟩
    · exact ⟨hpos, _, rfl, hreuse⟩
  have hfind : (start.record ⟨cls, addr, size, pool⟩).find? cls addr =
      some ⟨cls, addr, size, pool⟩ := by
    simp [record, find?]
  obtain ⟨addr', free, hpop⟩ : ∃ addr' free, ((((start.record ⟨cls, addr, size, pool⟩).forget cls
      addr).release ⟨cls, addr, size⟩).free.get cls).pop? size = some (addr', free) := by
    simpa [release, record, forget] using (start.free.get cls).exists_pop?_push addr size
  have hdealloc : (HeapM.dealloc cls addr pool true).run (start.record ⟨cls, addr, size, pool⟩) =
      (.ok ⟨⟩, ((start.record ⟨cls, addr, size, pool⟩).forget cls addr).release
        ⟨cls, addr, size⟩) := by
    rw [HeapM.dealloc, run_get_bind, hfind]
    dsimp only
    rw [if_neg (not_not.2 rfl)]
    rfl
  exact ⟨_, addr', _, hdealloc, run_allocate_of_pop hstart hpos hpop, rfl⟩

/-- Two cells are handed out again, the first block that fits. -/
theorem allocate_again_two : ∃ freed last : Heap,
    (HeapM.dealloc .secret 0 ⟨0, 0⟩ true).run
      ((HeapM.allocate .secret 2 ⟨0, 0⟩).run { reuse := true, limit := 9 }).2 = (.ok ⟨⟩, freed) ∧
    (HeapM.allocate .secret 2 ⟨0, 0⟩).run freed = (.ok 0, last) ∧ last.top.get .secret = 2 := by
  obtain ⟨freed, addr, last, hfreed, hlast, htop⟩ := allocate_again
    (h := { reuse := true, limit := 9 }) rfl
    (show (HeapM.allocate .secret 2 ⟨0, 0⟩).run _ = (.ok 0, _) from rfl)
  cases hfreed
  cases hlast
  exact ⟨_, _, rfl, rfl, rfl⟩

/-- The second answer need not be the first one. Cell 0 is free and the top is 1 when two cells are
asked for: they are 1 and 2. Given back, they join cell 0, and the same request is served from 0. -/
theorem allocate_again_lower :
    let h := after { reuse := true, limit := 9 }
      [.allocate .secret 1 ⟨0, 0⟩, .dealloc .secret 0 ⟨0, 0⟩ true]
    let first := (HeapM.allocate .secret 2 ⟨0, 0⟩).run h
    let freed := (HeapM.dealloc .secret 1 ⟨0, 0⟩ true).run first.2
    let again := (HeapM.allocate .secret 2 ⟨0, 0⟩).run freed.2
    first.1 = .ok 1 ∧ freed.1 = .ok () ∧ again.1 = .ok 0 := by
  exact ⟨rfl, rfl, rfl⟩

end Heap

end SecureTape
