import Mathlib.Data.List.Perm.Basic
import Mathlib.Data.List.Nodup
import Mathlib.Data.List.Sort
import SecureTape.Program.Thread

/-!
# The numbers of threads

A thread takes the least number that is free and gives it back when it is joined. Main statements:
1. `ThreadTable.Valid.acquireAll`: threads that start together get different numbers, none of which
   is in use.
2. `ThreadTable.Valid.release`: a joined thread gives back its number, and no other.
3. `ThreadTable.Valid.next_acquireAll`: a number is used for the first time only if all others run.
-/

namespace SecureTape

variable {ns : List Nat}

namespace ThreadTable

variable {t : ThreadTable} {n : Nat}

def numbers (t : ThreadTable) : List Nat := t.running.map (·.1)

def runningOn (t : ThreadTable) (id : TapeId) : List (Nat × TapeId) := t.running.filter (·.2 = id)

theorem isRunning_iff : t.isRunning n ↔ n ∈ t.numbers := by
  simp [isRunning, numbers]

/-- Every number that was ever used is free or runs, and no number is listed twice. -/
structure Valid (t : ThreadTable) : Prop where
  next_pos : 0 < t.next
  sorted : t.free.Pairwise (· < ·)
  nodup : t.numbers.Nodup
  disjoint : ∀ n ∈ t.free, n ∉ t.numbers
  used : ∀ n, n ∈ t.free ∨ n ∈ t.numbers ↔ 0 < n ∧ n < t.next

theorem valid_new : Valid {} := by
  refine ⟨Nat.one_pos, .nil, .nil, nofun, fun n => ?_⟩
  have hnone : ¬ (0 < n ∧ n < 1) := by omega
  simpa only [numbers, List.map_nil, List.not_mem_nil, or_self, false_iff] using hnone

/-! ## Taking numbers -/

theorem running_acquire (t : ThreadTable) (id : TapeId) :
    (t.acquire id).2.running = ((t.acquire id).1, id) :: t.running := by
  unfold acquire
  split <;> rfl

theorem next_acquire_le (t : ThreadTable) (id : TapeId) : (t.acquire id).2.next ≤ t.next + 1 := by
  unfold acquire
  split
  · exact Nat.le_succ _
  · exact le_rfl

theorem Valid.acquire (h : t.Valid) (id : TapeId) : (t.acquire id).2.Valid := by
  unfold ThreadTable.acquire
  split
  · rename_i n free hfree
    have hsorted := h.sorted
    have hdisjoint := h.disjoint
    have hused := h.used
    rw [hfree] at hsorted hdisjoint hused
    obtain ⟨hleast, hrest⟩ := List.pairwise_cons.1 hsorted
    refine ⟨h.next_pos, hrest, List.nodup_cons.2 ⟨hdisjoint n List.mem_cons_self, h.nodup⟩,
      ?_, fun m => ?_⟩
    · intro m hm hmem
      rcases List.mem_cons.1 hmem with rfl | hmem
      · exact lt_irrefl _ (hleast _ hm)
      · exact hdisjoint m (List.mem_cons_of_mem _ hm) hmem
    · rw [← hused m]
      simp only [numbers, List.map_cons, List.mem_cons]
      tauto
  · rename_i hfree
    have hused := h.used
    rw [hfree] at hused
    have hfresh : t.next ∉ t.numbers := fun hmem =>
      lt_irrefl _ ((hused t.next).1 (.inr hmem)).2
    refine ⟨Nat.succ_pos _, h.sorted, List.nodup_cons.2 ⟨hfresh, h.nodup⟩, by simp [hfree],
      fun m => ?_⟩
    have hm := hused m
    have hpos := h.next_pos
    simp only [hfree, numbers, List.map_cons, List.mem_cons, List.not_mem_nil, false_or] at hm ⊢
    rw [hm]
    omega

def acquireAll : ThreadTable → List TapeId → List Nat × ThreadTable
  | t, [] => ([], t)
  | t, id :: ids =>
    let (n, t) := t.acquire id
    let (ns, t) := t.acquireAll ids
    (n :: ns, t)

theorem acquireAll_cons (t : ThreadTable) (id : TapeId) (ids : List TapeId) :
    t.acquireAll (id :: ids) = ((t.acquire id).1 :: ((t.acquire id).2.acquireAll ids).1,
      ((t.acquire id).2.acquireAll ids).2) := rfl

theorem length_acquireAll (t : ThreadTable) (ids : List TapeId) :
    (t.acquireAll ids).1.length = ids.length := by
  induction ids generalizing t with
  | nil => rfl
  | cons id ids ih => exact congrArg (· + 1) (ih _)

theorem next_acquireAll_le (t : ThreadTable) (ids : List TapeId) :
    (t.acquireAll ids).2.next ≤ t.next + ids.length := by
  induction ids generalizing t with
  | nil => exact le_rfl
  | cons id ids ih =>
    have hfirst := next_acquire_le t id
    have hrest := ih (t.acquire id).2
    simp only [acquireAll_cons, List.length_cons]
    omega

theorem Valid.acquireAll (h : t.Valid) (ids : List TapeId) : (t.acquireAll ids).2.Valid := by
  induction ids generalizing t with
  | nil => exact h
  | cons id ids ih => exact ih (h.acquire id)

theorem perm_numbers_acquireAll (t : ThreadTable) (ids : List TapeId) :
    ((t.acquireAll ids).2.numbers).Perm ((t.acquireAll ids).1 ++ t.numbers) := by
  induction ids generalizing t with
  | nil => exact .refl _
  | cons id ids ih =>
    rw [acquireAll_cons]
    refine (ih _).trans ?_
    rw [numbers, running_acquire, List.map_cons]
    exact List.perm_middle

theorem Valid.length (h : t.Valid) : t.running.length + t.free.length + 1 = t.next := by
  have hperm : (t.free ++ t.numbers).Perm (List.range' 1 (t.next - 1)) := by
    have hfree : t.free.Nodup := h.sorted.imp ne_of_lt
    refine (List.perm_ext_iff_of_nodup (List.nodup_append.2 ⟨hfree, h.nodup, ?_⟩)
      List.nodup_range').2 fun n => ?_
    · rintro n hn _ hm rfl
      exact h.disjoint n hn hm
    · rw [List.mem_append, h.used, List.mem_range'_1]
      omega
  have hlength := hperm.length_eq
  rw [List.length_append, numbers, List.length_map, List.length_range'] at hlength
  have hpos := h.next_pos
  omega

theorem Valid.next_acquire (h : t.Valid) (id : TapeId) :
    (t.acquire id).2.next = max t.next ((t.acquire id).2.running.length + 1) := by
  have hlength := h.length
  unfold ThreadTable.acquire
  split <;> rename_i hfree <;> simp only [hfree, List.length_cons, List.length_nil] at hlength ⊢ <;>
    omega

theorem Valid.next_acquireAll (h : t.Valid) (ids : List TapeId) :
    (t.acquireAll ids).2.next = max t.next ((t.acquireAll ids).2.running.length + 1) := by
  induction ids generalizing t with
  | nil =>
    have hlength := h.length
    show t.next = max t.next (t.running.length + 1)
    omega
  | cons id ids ih =>
    have hfirst := h.next_acquire id
    have hgrows := (perm_numbers_acquireAll (t.acquire id).2 ids).length_eq
    simp only [numbers, List.length_append, List.length_map] at hgrows
    have hrest := ih (h.acquire id)
    simp only [acquireAll_cons]
    omega

theorem length_runningOn_acquireAll (t : ThreadTable) (ids : List TapeId) (id : TapeId) :
    ((t.acquireAll ids).2.runningOn id).length = (t.runningOn id).length + ids.count id := by
  induction ids generalizing t with
  | nil => rfl
  | cons first ids ih =>
    rw [acquireAll_cons, ih, runningOn, running_acquire, List.filter_cons, List.count_cons, runningOn]
    by_cases hfirst : first = id
    · simp [hfirst]
      omega
    · simp [hfirst]

/-! ## Giving numbers back -/

theorem mem_insertNumber {m : Nat} : m ∈ insertNumber n ns ↔ m = n ∨ m ∈ ns := by
  induction ns with
  | nil => simp [insertNumber]
  | cons k ns ih =>
    unfold insertNumber
    split
    · exact List.mem_cons
    · split
      · rename_i hk
        simp [hk]
      · simp only [List.mem_cons, ih]
        tauto

theorem pairwise_insertNumber (h : ns.Pairwise (· < ·)) : (insertNumber n ns).Pairwise (· < ·) := by
  induction ns with
  | nil => exact List.pairwise_singleton ..
  | cons k ns ih =>
    obtain ⟨hleast, hrest⟩ := List.pairwise_cons.1 h
    unfold insertNumber
    split
    · rename_i hlt
      refine List.pairwise_cons.2 ⟨?_, h⟩
      intro m hm
      rcases List.mem_cons.1 hm with rfl | hm
      · exact hlt
      · exact hlt.trans (hleast m hm)
    · split
      · exact h
      · refine List.pairwise_cons.2 ⟨?_, ih hrest⟩
        intro m hm
        rcases mem_insertNumber.1 hm with rfl | hm
        · omega
        · exact hleast m hm

theorem numbers_release (t : ThreadTable) (n : Nat) :
    (t.release n).numbers = t.numbers.filter (· ≠ n) := by
  simp only [numbers, release, List.filter_map]
  rfl

theorem Valid.release (h : t.Valid) (hn : n ∈ t.numbers) : (t.release n).Valid := by
  refine ⟨h.next_pos, pairwise_insertNumber h.sorted, ?_, ?_, fun m => ?_⟩
  · rw [numbers_release]
    exact h.nodup.filter _
  · intro m hm
    rw [numbers_release]
    rcases mem_insertNumber.1 hm with rfl | hm
    · simp
    · exact fun hmem => h.disjoint m hm (List.mem_of_mem_filter hmem)
  · rw [numbers_release, ← show t.next = (t.release n).next from rfl, ← h.used m]
    show m ∈ insertNumber n t.free ∨ _ ↔ _
    rw [mem_insertNumber]
    by_cases hm : m = n
    · simp [hm, hn]
    · simp [hm]

theorem Valid.perm_numbers_release (h : t.Valid) (hn : n ∈ t.numbers) :
    t.numbers.Perm (n :: (t.release n).numbers) := by
  have herase : t.numbers.erase n = t.numbers.filter (· ≠ n) := by
    rw [h.nodup.erase_eq_filter n]
    exact List.filter_congr fun m _ => by simp [bne, beq_eq_decide]
  rw [numbers_release, ← herase]
  exact List.perm_cons_erase hn

theorem length_runningOn_release_le (t : ThreadTable) (n : Nat) (id : TapeId) :
    ((t.release n).runningOn id).length ≤ (t.runningOn id).length :=
  (List.filter_sublist.filter _).length_le

end ThreadTable

end SecureTape
