import Mathlib.Data.List.Nodup
import Mathlib.Data.List.Pairwise
import Mathlib.Data.List.Perm.Basic
import SecureTape.Heap.FreeList

/-!
# Tilings by blocks, and free lists

Blocks of cells tile the range below `top` if they are disjoint and cover exactly that range. A
tiling survives reordering, cutting a block in two, joining two neighbours and a new block at the
top. The free list does nothing else. Main statements:
1. `tiles_push`: a block that is given back keeps its cells covered, whichever neighbours it joins.
2. `tiles_of_pop`: the cells of a request are cut out of one free block.
3. `exists_pop?_push`: cells that are given back can be taken again.
-/

namespace SecureTape

open List

/-! ## Tilings -/

variable {b c : Nat × Nat} {bs : List (Nat × Nat)} {a s size' top : Nat}

/-- The block `b`, a start and a size, has the cell. -/
def HasCell (b : Nat × Nat) (cell : Nat) : Prop :=
  b.1 ≤ cell ∧ cell < b.1 + b.2

instance (b : Nat × Nat) (cell : Nat) : Decidable (HasCell b cell) :=
  inferInstanceAs (Decidable (_ ∧ _))

/-- The blocks share no cell. -/
def Apart (b c : Nat × Nat) : Prop :=
  ∀ cell, HasCell b cell → ¬ HasCell c cell

theorem Apart.symm (h : Apart b c) : Apart c b :=
  fun cell hc hb => h cell hb hc

instance : Std.Symm Apart :=
  ⟨fun _ _ => Apart.symm⟩

theorem apart_iff (hb : 0 < b.2) (hc : 0 < c.2) :
    Apart b c ↔ b.1 + b.2 ≤ c.1 ∨ c.1 + c.2 ≤ b.1 := by
  constructor
  · intro h
    have hfirst := h (max b.1 c.1)
    simp only [HasCell] at hfirst
    omega
  · intro h cell
    simp only [HasCell]
    omega

/-- The blocks are not empty, share no cell, and cover exactly the cells below `top`. -/
structure Tiles (bs : List (Nat × Nat)) (top : Nat) : Prop where
  positive : ∀ b ∈ bs, 0 < b.2
  apart : bs.Pairwise Apart
  covered : ∀ cell, cell < top ↔ ∃ b ∈ bs, HasCell b cell

namespace Tiles

variable {bs cs : List (Nat × Nat)} {top a s t : Nat}

theorem nil : Tiles [] 0 :=
  ⟨by simp, .nil, by simp⟩

theorem perm (h : Tiles bs top) (hperm : bs.Perm cs) : Tiles cs top where
  positive b hb := h.positive b (hperm.mem_iff.2 hb)
  apart := (hperm.pairwise_iff Apart.symm).1 h.apart
  covered cell := by
    rw [h.covered cell]
    simp only [hperm.mem_iff]

theorem eq_of_start (h : Tiles bs top) (hb : b ∈ bs) (hc : c ∈ bs) (hstart : b.1 = c.1) :
    b = c := by
  by_contra hne
  have hapart : Apart b c := h.apart.forall hb hc hne
  have hb' := h.positive b hb
  have hc' := h.positive c hc
  rw [apart_iff hb' hc'] at hapart
  omega

theorem start_ne (h : Tiles ((a, s) :: bs) top) (hb : b ∈ bs) : b.1 ≠ a := by
  have hapart := (pairwise_cons.1 h.apart).1 b hb
  have hpos := h.positive b (.tail _ hb)
  have hs : 0 < s := h.positive (a, s) (.head _)
  rw [apart_iff hs hpos] at hapart
  simp only at hapart
  omega

theorem nodup (h : Tiles bs top) : bs.Nodup := by
  refine h.apart.imp_of_mem ?_
  rintro b c hb - hapart rfl
  have hpos := h.positive b hb
  rw [apart_iff hpos hpos] at hapart
  omega

theorem end_le (h : Tiles bs top) (hb : b ∈ bs) : b.1 + b.2 ≤ top := by
  have hpos := h.positive b hb
  have hlast := (h.covered (b.1 + b.2 - 1)).2 ⟨b, hb, by simp only [HasCell]; omega⟩
  omega

theorem grow (h : Tiles bs top) (hs : 0 < s) : Tiles ((top, s) :: bs) (top + s) where
  positive := by
    rintro b (_ | ⟨_, hb⟩)
    · exact hs
    · exact h.positive b hb
  apart := by
    refine .cons ?_ h.apart
    intro b hb
    rw [apart_iff hs (h.positive b hb)]
    exact .inr (h.end_le hb)
  covered cell := by
    simp only [mem_cons, exists_eq_or_imp, ← h.covered cell]
    simp only [HasCell]
    omega

theorem split (h : Tiles ((a, s + t) :: bs) top) (hs : 0 < s) (ht : 0 < t) :
    Tiles ((a, s) :: (a + s, t) :: bs) top := by
  have hpos : ∀ b ∈ bs, 0 < b.2 := fun b hb => h.positive b (.tail _ hb)
  obtain ⟨hfirst, hrest⟩ := pairwise_cons.1 h.apart
  have hwhole : ∀ b ∈ bs, a + (s + t) ≤ b.1 ∨ b.1 + b.2 ≤ a :=
    fun b hb => (apart_iff (by simp only; omega) (hpos b hb)).1 (hfirst b hb)
  constructor
  · simpa [hs, ht] using hpos
  · refine .cons ?_ (.cons ?_ hrest)
    · simp only [mem_cons, forall_eq_or_imp]
      refine ⟨(apart_iff hs ht).2 (.inl (Nat.le_refl _)), ?_⟩
      intro b hb
      rw [apart_iff hs (hpos b hb)]
      have := hwhole b hb
      omega
    · intro b hb
      rw [apart_iff ht (hpos b hb)]
      have := hwhole b hb
      omega
  · intro cell
    rw [h.covered cell]
    simp only [mem_cons, exists_eq_or_imp]
    rw [← or_assoc]
    refine or_congr_left ?_
    simp only [HasCell]
    omega

theorem join (h : Tiles ((a, s) :: (a + s, t) :: bs) top) : Tiles ((a, s + t) :: bs) top := by
  have hs : 0 < s := h.positive (a, s) (by simp)
  have ht : 0 < t := h.positive (a + s, t) (by simp)
  have hpos : ∀ b ∈ bs, 0 < b.2 := fun b hb => h.positive b (by simp [hb])
  obtain ⟨hfirst, hrest⟩ := pairwise_cons.1 h.apart
  obtain ⟨hsecond, hrest⟩ := pairwise_cons.1 hrest
  constructor
  · simpa [Nat.add_pos_left hs] using hpos
  · refine .cons ?_ hrest
    intro b hb
    rw [apart_iff (by simp only; omega) (hpos b hb)]
    have h₁ := (apart_iff hs (hpos b hb)).1 (hfirst b (.tail _ hb))
    have h₂ := (apart_iff ht (hpos b hb)).1 (hsecond b hb)
    have := hpos b hb
    simp only at h₁ h₂ ⊢
    omega
  · intro cell
    rw [h.covered cell]
    simp only [mem_cons, exists_eq_or_imp]
    rw [← or_assoc]
    refine or_congr_left ?_
    simp only [HasCell]
    omega

end Tiles

/-! ## The two indexes of a free list -/

namespace FreeList

variable {l : FreeList} {rest : List (Nat × Nat)} {addr size top : Nat}

theorem putKey_perm {k v : Nat} (hfresh : ∀ b ∈ bs, b.1 ≠ k) :
    (putKey k v bs).Perm ((k, v) :: bs) := by
  induction bs with
  | nil => exact .rfl
  | cons b bs ih =>
    have hb : b.1 ≠ k := hfresh b (mem_cons_self ..)
    unfold putKey
    split
    · exact .rfl
    · rw [if_neg (Ne.symm hb)]
      have hbs := ih fun c hc => hfresh c (.tail _ hc)
      exact (hbs.cons b).trans (.swap ..)

theorem mem_putPair {p q : Nat × Nat} : q ∈ putPair p bs ↔ q = p ∨ q ∈ bs := by
  induction bs with
  | nil => simp [putPair]
  | cons b bs ih =>
    unfold putPair
    split
    · simp
    · split
      · subst p
        simp
      · simp only [mem_cons, ih]
        tauto

def Indexed (l : FreeList) : Prop :=
  ∀ a s, (s, a) ∈ l.bySize ↔ (a, s) ∈ l.byAddress

theorem indexed_empty : empty.Indexed := by
  intro a s
  exact iff_of_false not_mem_nil not_mem_nil

theorem eq_of_start (ht : Tiles (l.byAddress ++ rest) top) {s' : Nat} (h : (a, s) ∈ l.byAddress)
    (h' : (a, s') ∈ l.byAddress) : s = s' := by
  have := ht.eq_of_start (mem_append_left _ h) (mem_append_left _ h') rfl
  exact congrArg Prod.snd this

theorem perm_remove (ht : Tiles (l.byAddress ++ rest) top) (hmem : (addr, size) ∈ l.byAddress) :
    l.byAddress.Perm ((addr, size) :: (l.remove addr size).byAddress) := by
  have hnodup : l.byAddress.Nodup := ht.nodup.of_append_left
  refine (perm_ext_iff_of_nodup hnodup ?_).2 ?_
  · exact nodup_cons.2 ⟨by simp [remove], hnodup.filter _⟩
  · rintro ⟨a, s⟩
    simp only [remove, mem_cons, mem_filter, Prod.mk.injEq, decide_eq_true_eq]
    constructor
    · intro h
      by_cases ha : a = addr
      · subst a
        exact .inl ⟨rfl, eq_of_start ht h hmem⟩
      · exact .inr ⟨h, ha⟩
    · rintro (⟨rfl, rfl⟩ | ⟨h, -⟩)
      · exact hmem
      · exact h

theorem indexed_remove (hl : l.Indexed) (ht : Tiles (l.byAddress ++ rest) top)
    (hmem : (addr, size) ∈ l.byAddress) : (l.remove addr size).Indexed := by
  intro a s
  simp only [remove, mem_filter, ne_eq, decide_not, Bool.not_eq_true', decide_eq_false_iff_not,
    Prod.mk.injEq, hl a s]
  refine and_congr_right fun h => not_congr ⟨And.right, ?_⟩
  rintro rfl
  exact ⟨eq_of_start ht h hmem, rfl⟩

theorem tiles_insert (hl : l.Indexed) (ht : Tiles ((addr, size) :: (l.byAddress ++ rest)) top) :
    (l.insert addr size).Indexed ∧ Tiles ((l.insert addr size).byAddress ++ rest) top := by
  have hfresh : ∀ b ∈ l.byAddress, b.1 ≠ addr :=
    fun b hb => ht.start_ne (mem_append_left _ hb)
  have hperm : (l.insert addr size).byAddress.Perm ((addr, size) :: l.byAddress) :=
    putKey_perm hfresh
  constructor
  · intro a s
    rw [hperm.mem_iff, mem_cons, ← hl a s]
    simp only [insert, mem_putPair, Prod.mk.injEq]
    tauto
  · exact ht.perm (hperm.symm.append_right rest)

/-! ## Giving back and taking -/

variable {l' : FreeList}

theorem tiles_joinBelow {addr' : Nat} (hjoin : l.joinBelow addr size = (l', addr', size'))
    (hl : l.Indexed) (ht : Tiles ((addr, size) :: (l.byAddress ++ rest)) top) :
    l'.Indexed ∧ Tiles ((addr', size') :: (l'.byAddress ++ rest)) top := by
  have hown : Tiles (l.byAddress ++ (addr, size) :: rest) top :=
    ht.perm perm_middle.symm
  unfold joinBelow at hjoin
  split at hjoin
  · rename_i a s hbelow
    have hmem : (a, s) ∈ l.byAddress := (mem_filter.1 (mem_of_getLast? hbelow)).1
    split at hjoin
    · rename_i hend
      subst addr
      cases hjoin
      refine ⟨indexed_remove hl hown hmem, ?_⟩
      have hperm := (perm_remove hown hmem).append_right rest
      rw [Nat.add_comm size s]
      exact (ht.perm ((hperm.cons _).trans (.swap ..))).join
    · cases hjoin
      exact ⟨hl, ht⟩
  · cases hjoin
    exact ⟨hl, ht⟩

theorem tiles_joinAbove (hjoin : l.joinAbove addr size = (l', size')) (hl : l.Indexed)
    (ht : Tiles ((addr, size) :: (l.byAddress ++ rest)) top) :
    l'.Indexed ∧ Tiles ((addr, size') :: (l'.byAddress ++ rest)) top := by
  have hown : Tiles (l.byAddress ++ (addr, size) :: rest) top :=
    ht.perm perm_middle.symm
  unfold joinAbove at hjoin
  split at hjoin
  · rename_i s habove
    have hmem : (addr + size, s) ∈ l.byAddress := by
      obtain ⟨l₁, l₂, heq, -⟩ := lookup_eq_some_iff.1 habove
      simp [heq]
    cases hjoin
    refine ⟨indexed_remove hl hown hmem, ?_⟩
    have hperm := (perm_remove hown hmem).append_right rest
    exact (ht.perm (hperm.cons _)).join
  · cases hjoin
    exact ⟨hl, ht⟩

theorem tiles_push (hl : l.Indexed) (ht : Tiles ((addr, size) :: (l.byAddress ++ rest)) top) :
    (l.push addr size).Indexed ∧ Tiles ((l.push addr size).byAddress ++ rest) top := by
  obtain ⟨hl₁, ht₁⟩ := tiles_joinBelow rfl hl ht
  obtain ⟨hl₂, ht₂⟩ := tiles_joinAbove rfl hl₁ ht₁
  exact tiles_insert hl₂ ht₂

theorem tiles_of_pop (hpop : l.pop? size = some (addr, l')) (hsize : 0 < size) (hl : l.Indexed)
    (ht : Tiles (l.byAddress ++ rest) top) :
    l'.Indexed ∧ Tiles ((addr, size) :: (l'.byAddress ++ rest)) top := by
  unfold pop? at hpop
  split at hpop
  · cases hpop
  · rename_i found a hfind
    have hfound : size ≤ found := by simpa using find?_some hfind
    have hmem : (a, found) ∈ l.byAddress := (hl a found).1 (mem_of_find?_eq_some hfind)
    have hl' := indexed_remove hl ht hmem
    have ht' := ht.perm ((perm_remove ht hmem).append_right rest)
    cases hpop
    split
    · -- The rest of the block goes back into the list.
      rename_i hlt
      obtain ⟨extra, rfl⟩ := Nat.exists_eq_add_of_lt hlt
      rw [Nat.add_assoc] at ht' hl' ⊢
      rw [Nat.add_sub_cancel_left]
      have hcut := (ht'.split hsize (Nat.succ_pos extra)).perm (.swap ..)
      have hrest := hcut.perm (.cons _ perm_middle.symm)
      obtain ⟨hl'', ht''⟩ := tiles_insert hl' hrest
      exact ⟨hl'', ht''.perm perm_middle⟩
    · obtain rfl : size = found := by omega
      exact ⟨hl', ht'⟩

theorem exists_pop?_push (l : FreeList) (addr size : Nat) :
    ∃ addr' l', (l.push addr size).pop? size = some (addr', l') := by
  have hbelow : size ≤ (l.joinBelow addr size).2.2 := by
    unfold joinBelow
    split
    · split <;> simp
    · simp
  have habove (l : FreeList) (addr size : Nat) : size ≤ (l.joinAbove addr size).2 := by
    unfold joinAbove
    split <;> simp
  have hfind : ((l.push addr size).bySize.find? (size ≤ ·.1)).isSome :=
    find?_isSome.2 ⟨_, mem_putPair.2 (.inl rfl),
      decide_eq_true (Nat.le_trans hbelow (habove _ _ _))⟩
  obtain ⟨⟨found, addr'⟩, hfound⟩ := Option.isSome_iff_exists.1 hfind
  exact ⟨addr', _, by rw [pop?, hfound]⟩

end FreeList

end SecureTape
