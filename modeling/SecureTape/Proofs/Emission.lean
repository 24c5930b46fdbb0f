import Mathlib.Data.List.Nodup
import SecureTape.Proofs.Dependencies

/-!
# The order of emission

Merging emits units of operations. Nothing is lost, members of a unit are alike and independent,
and operations that conflict keep their order.

Main statement: `emission_emitted`.

1. `le_depths`: an operation is deeper than what it depends on, by the rounds of the latter.
2. `Partition`: the units share out the operations. It holds after every operation placed.
3. `rank`: dependencies between units lead from a lower rank to a higher one, so the search for a
   unit whose dependencies are done never fails (`order_spec`).
4. Conflicting operations reach each other, so they are in different units, in their order.
-/

namespace SecureTape

open List

namespace MergeUnit

/-! ## Depths -/

section Depths

variable {weights : Array Nat}

def roundsAfter (weights depths : Array Nat) (ps : List Nat) : Nat :=
  (ps.map fun p => depths.getD p 0 + weights.getD p 0).foldl max 0

theorem le_foldl_max {x start : Nat} {xs : List Nat} (h : x ∈ xs ∨ x ≤ start) :
    x ≤ xs.foldl max start := by
  induction xs generalizing start with
  | nil => simpa using h
  | cons y ys ih =>
    refine ih ?_
    rcases h with h | h
    · rcases mem_cons.1 h with rfl | h
      · exact .inr (Nat.le_max_right _ _)
      · exact .inl h
    · exact .inr (Nat.le_trans h (Nat.le_max_left _ _))

theorem depths_concat (deps : List (List Nat)) (ps : List Nat) :
    depths weights (deps ++ [ps]) =
      (depths weights deps).push (roundsAfter weights (depths weights deps) ps) := by
  simp [depths, roundsAfter]

@[simp] theorem size_depths (deps : List (List Nat)) : (depths weights deps).size = deps.length := by
  induction deps using reverseRecOn with
  | nil => rfl
  | append_singleton deps ps ih => simp [depths_concat, ih]

variable {deps : List (List Nat)}

theorem getD_depths_append {more : List (List Nat)} {k : Nat} (hk : k < deps.length) :
    (depths weights (deps ++ more)).getD k 0 = (depths weights deps).getD k 0 := by
  induction more using reverseRecOn with
  | nil => simp
  | append_singleton more ps ih =>
    have hne : k ≠ deps.length + more.length := by omega
    rw [← ih, ← append_assoc, depths_concat]
    simp [Array.getD_eq_getD_getElem?, Array.getElem?_push, hne]

theorem getD_depths (hlt : ∀ j, ∀ p ∈ deps.getD j [], p < j) {j : Nat} (hj : j < deps.length) :
    (depths weights deps).getD j 0 =
      roundsAfter weights (depths weights deps) (deps.getD j []) := by
  obtain ⟨ps, hps⟩ : ∃ ps, deps[j]? = some ps := ⟨_, getElem?_eq_getElem hj⟩
  have hsplit : deps = deps.take j ++ [ps] ++ deps.drop (j + 1) := by
    rw [List.append_assoc, List.singleton_append, ← (List.getElem?_eq_some_iff.1 hps).2,
      ← drop_eq_getElem_cons hj, take_append_drop]
  have hlen : (deps.take j).length = j := by simp; omega
  have hget : deps.getD j [] = ps := by rw [getD_eq_getElem?_getD, hps]; rfl
  have hold : ∀ p ∈ ps, (depths weights (deps.take j)).getD p 0 = (depths weights deps).getD p 0 := by
    intro p hp
    have hpj : p < (deps.take j).length := by
      rw [hlen]
      exact hlt j p (hget ▸ hp)
    conv_rhs => rw [hsplit, append_assoc]
    exact (getD_depths_append hpj).symm
  have hnew : (depths weights deps).getD j 0 =
      roundsAfter weights (depths weights (deps.take j)) ps := by
    conv_lhs => rw [hsplit]
    rw [getD_depths_append (by simp; omega), depths_concat]
    have hsize : (depths weights (deps.take j)).size = j := by rw [size_depths, hlen]
    rw [Array.getD_eq_getD_getElem?, Array.getElem?_push, if_pos hsize.symm]
    rfl
  rw [hnew, hget, roundsAfter, roundsAfter]
  congr 1
  exact map_congr_left fun p hp => by rw [hold p hp]

theorem le_depths (hlt : ∀ j, ∀ p ∈ deps.getD j [], p < j) {p j : Nat} (hp : p ∈ deps.getD j []) :
    (depths weights deps).getD p 0 + weights.getD p 0 ≤ (depths weights deps).getD j 0 := by
  have hj : j < deps.length := by
    by_contra hj
    simp [getD_eq_getElem?_getD, getElem?_eq_none (Nat.le_of_not_lt hj)] at hp
  rw [getD_depths hlt hj]
  exact le_foldl_max (.inl (mem_map_of_mem hp))

end Depths

/-! ## Units share out the operations -/

def keyOf (ops : List Op) (depths : Array Nat) (i : Nat) : Option (Nat × Batch) :=
  (ops[i]?.bind Op.batch?).map (depths.getD i 0, ·)

variable {i k : Nat} {u : MergeUnit}

theorem depth_of_keyOf {ops : List Op} {depths : Array Nat} {key : Nat × Batch}
    (h : keyOf ops depths i = some key) : depths.getD i 0 = key.1 := by
  obtain ⟨b, -, hb⟩ := Option.map_eq_some_iff.1 h
  exact congrArg Prod.fst hb

/-- The units hold the first `n` operations, each once, by depth and kind. -/
structure Partition (ops : List Op) (depths : Array Nat) (n : Nat) (units : List MergeUnit) :
    Prop where
  perm : (units.flatMap (·.members)).Perm (List.range n)
  sorted : ∀ u ∈ units, u.members.Pairwise (· < ·)
  nonempty : ∀ u ∈ units, u.members ≠ []
  key : ∀ u ∈ units, ∀ i ∈ u.members, u.key = keyOf ops depths i
  single : ∀ u ∈ units, u.key = none → ∃ i, u.members = [i]
  distinct : units.Pairwise fun u v => u.key.isSome → u.key ≠ v.key
  first : units.Pairwise fun u v => u.members.headD 0 < v.members.headD 0

variable {ops : List Op} {depths : Array Nat} {n : Nat} {units : List MergeUnit}

theorem Partition.lt (h : Partition ops depths n units) (hu : u ∈ units) (hi : i ∈ u.members) :
    i < n :=
  mem_range.1 (h.perm.mem_iff.1 (mem_flatMap.2 ⟨u, hu, hi⟩))

theorem Partition.empty : Partition ops depths 0 [] :=
  ⟨.refl _, by simp, by simp, by simp, by simp, by simp, by simp⟩

theorem place_of_mem {key : Option (Nat × Batch)} {pre post : List MergeUnit}
    (hdistinct : (pre ++ u :: post).Pairwise fun u v => u.key.isSome → u.key ≠ v.key)
    (hu : u.key = key) (hkey : key.isSome) (i : Nat) :
    place (pre ++ u :: post) key i = pre ++ { u with members := u.members ++ [i] } :: post := by
  obtain ⟨-, hcons, hcross⟩ := pairwise_append.1 hdistinct
  have hpre : ∀ v ∈ pre, v.key ≠ key := by
    intro v hv hvk
    exact hcross v hv u (by simp) (by rw [hvk]; exact hkey) (hvk.trans hu.symm)
  have hpost : ∀ v ∈ post, v.key ≠ key := by
    intro v hv hvk
    exact (pairwise_cons.1 hcons).1 v hv (by rw [hu]; exact hkey) (hu.trans hvk.symm)
  have hsame {vs : List MergeUnit} (hvs : ∀ v ∈ vs, v.key ≠ key) :
      vs.map (fun v => if v.key = key then { v with members := v.members ++ [i] } else v) = vs := by
    conv_rhs => rw [← map_id vs]
    exact map_congr_left fun v hv => if_neg (hvs v hv)
  have hany : (pre ++ u :: post).any (·.key = key) = true := by simp [hu]
  rw [place, if_pos ⟨hkey, hany⟩, map_append, map_cons, hsame hpre, hsame hpost,
    if_pos hu]

theorem Partition.join {pre post : List MergeUnit} (h : Partition ops depths n (pre ++ u :: post))
    (hu : u.key = keyOf ops depths n) (hkey : u.key.isSome) :
    Partition ops depths (n + 1) (pre ++ { u with members := u.members ++ [n] } :: post) := by
  have hmem : u ∈ pre ++ u :: post := by simp
  -- every other unit is one of the old ones
  have hcases {P : MergeUnit → Prop} (hold : ∀ v ∈ pre ++ u :: post, P v)
      (hnew : P { u with members := u.members ++ [n] }) :
      ∀ v ∈ pre ++ { u with members := u.members ++ [n] } :: post, P v := by
    intro v hv
    simp only [mem_append, mem_cons] at hv
    rcases hv with hv | rfl | hv
    · exact hold v (by simp [hv])
    · exact hnew
    · exact hold v (by simp [hv])
  constructor
  · have hperm := h.perm
    rw [range_succ]
    simp only [flatMap_append, flatMap_cons] at hperm ⊢
    have hmove : (pre.flatMap (·.members) ++ (u.members ++ [n] ++ post.flatMap (·.members))).Perm
        (pre.flatMap (·.members) ++ (u.members ++ post.flatMap (·.members)) ++ [n]) := by
      simp only [append_assoc]
      exact (perm_append_comm.append_left _).append_left _
    exact hmove.trans (hperm.append_right [n])
  · refine hcases h.sorted ?_
    rw [pairwise_append]
    refine ⟨h.sorted u hmem, by simp, ?_⟩
    intro i hi j hj
    rw [mem_singleton.1 hj]
    exact h.lt hmem hi
  · exact hcases h.nonempty (by simp)
  · refine hcases h.key ?_
    intro i hi
    rcases mem_append.1 hi with hi | hi
    · exact h.key u hmem i hi
    · rw [mem_singleton.1 hi]
      exact hu
  · refine hcases h.single ?_
    intro hnone
    rw [show u.key = none from hnone] at hkey
    cases hkey
  · have hd := h.distinct
    simp only [pairwise_append, pairwise_cons, mem_cons] at hd ⊢
    obtain ⟨hpre, ⟨hpost, hposts⟩, hcross⟩ := hd
    refine ⟨hpre, ⟨hpost, hposts⟩, ?_⟩
    rintro v hv w (rfl | hw)
    · exact hcross v hv u (.inl rfl)
    · exact hcross v hv w (.inr hw)
  · have hhead : (u.members ++ [n]).headD 0 = u.members.headD 0 := by
      obtain ⟨i, rest, hmembers⟩ := exists_cons_of_ne_nil (h.nonempty u hmem)
      rw [hmembers]
      rfl
    have hf := h.first
    simp only [pairwise_append, pairwise_cons, mem_cons] at hf ⊢
    obtain ⟨hpre, ⟨hpost, hposts⟩, hcross⟩ := hf
    rw [hhead]
    refine ⟨hpre, ⟨hpost, hposts⟩, ?_⟩
    rintro v hv w (rfl | hw)
    · rw [hhead]
      exact hcross v hv u (.inl rfl)
    · exact hcross v hv w (.inr hw)

theorem Partition.append (h : Partition ops depths n units)
    (hnew : (keyOf ops depths n).isSome → ∀ u ∈ units, u.key ≠ keyOf ops depths n) :
    Partition ops depths (n + 1) (units ++ [⟨keyOf ops depths n, [n]⟩]) := by
  have hcases {P : MergeUnit → Prop} (hold : ∀ v ∈ units, P v)
      (hlast : P ⟨keyOf ops depths n, [n]⟩) :
      ∀ v ∈ units ++ [⟨keyOf ops depths n, [n]⟩], P v := by
    intro v hv
    rcases mem_append.1 hv with hv | hv
    · exact hold v hv
    · exact mem_singleton.1 hv ▸ hlast
  constructor
  · simpa [range_succ] using h.perm.append_right [n]
  · exact hcases h.sorted (by simp)
  · exact hcases h.nonempty (by simp)
  · exact hcases h.key (by simp)
  · exact hcases h.single (by simp)
  · rw [pairwise_append]
    refine ⟨h.distinct, by simp, ?_⟩
    intro u hu v hv hsome heq
    rw [mem_singleton.1 hv] at heq
    exact hnew (by rw [← show u.key = keyOf ops depths n from heq]; exact hsome) u hu heq
  · rw [pairwise_append]
    refine ⟨h.first, by simp, ?_⟩
    intro u hu v hv
    obtain ⟨i, rest, hmembers⟩ := exists_cons_of_ne_nil (h.nonempty u hu)
    have hi : i ∈ u.members := by simp [hmembers]
    rw [mem_singleton.1 hv, hmembers]
    exact h.lt hu hi

theorem Partition.place (h : Partition ops depths n units) :
    Partition ops depths (n + 1) (place units (keyOf ops depths n) n) := by
  by_cases hknown : (keyOf ops depths n).isSome ∧ ∃ u ∈ units, u.key = keyOf ops depths n
  · obtain ⟨hsome, u, hu, hkey⟩ := hknown
    obtain ⟨pre, post, rfl⟩ := append_of_mem hu
    rw [place_of_mem h.distinct hkey hsome]
    exact h.join hkey (by rw [hkey]; exact hsome)
  · have hneg : ¬((keyOf ops depths n).isSome ∧ units.any (·.key = keyOf ops depths n) = true) := by
      simpa using hknown
    rw [MergeUnit.place, if_neg hneg]
    refine h.append ?_
    intro hsome u hu hkey
    exact hknown ⟨hsome, u, hu, hkey⟩

/-- What holds of no units, and still holds when the next operation is placed, holds of all. -/
theorem ofOps_induction {ops : List Op} {depths : Array Nat} {Q : Nat → List MergeUnit → Prop}
    (hnil : Q 0 []) (hplace : ∀ n units, n < ops.length → Q n units →
      Q (n + 1) (place units (keyOf ops depths n) n)) : Q ops.length (ofOps ops depths) := by
  have hfirst : ∀ done later : List Op, ops = done ++ later →
      Q done.length (done.zipIdx.foldl (fun units e =>
        MergeUnit.place units (e.1.batch?.map (depths.getD e.2 0, ·)) e.2) []) := by
    intro done
    induction done using reverseRecOn with
    | nil => exact fun _ _ => hnil
    | append_singleton done op ih =>
      intro later hops
      have hkey : op.batch?.map (depths.getD done.length 0, ·) = keyOf ops depths done.length := by
        simp [keyOf, hops]
      have hstep := hplace _ _ (by simp [hops]) (ih (op :: later) (by simpa using hops))
      rw [← hkey] at hstep
      simpa [zipIdx_append, foldl_append] using hstep
  exact hfirst ops [] (by simp)

theorem partition_ofOps (ops : List Op) (depths : Array Nat) :
    Partition ops depths ops.length (ofOps ops depths) :=
  ofOps_induction .empty fun _ _ _ h => h.place

/-! ## The unit of an operation -/

theorem getD_foldl_setIfInBounds {members : List Nat} {table : Array Nat} :
    (members.foldl (fun table i => table.setIfInBounds i k) table).getD i 0 =
      if i ∈ members ∧ i < table.size then k else table.getD i 0 := by
  induction members generalizing table with
  | nil => simp
  | cons m members ih =>
    rw [foldl_cons, ih, Array.size_setIfInBounds]
    by_cases hmem : i ∈ members ∧ i < table.size
    · rw [if_pos hmem, if_pos ⟨by simp [hmem.1], hmem.2⟩]
    · rw [if_neg hmem, Array.getD_eq_getD_getElem?, Array.getElem?_setIfInBounds]
      by_cases hm : m = i
      · subst hm
        by_cases hlt : m < table.size
        · simp [hlt]
        · simp [hlt]
      · have : ¬(i ∈ m :: members ∧ i < table.size) := by
          rintro ⟨h, hlt⟩
          rcases mem_cons.1 h with h | h
          · exact hm h.symm
          · exact hmem ⟨h, hlt⟩
        rw [if_neg hm, if_neg this, Array.getD_eq_getD_getElem?]

theorem size_foldl_setIfInBounds (members : List Nat) (table : Array Nat) (k : Nat) :
    (members.foldl (fun table i => table.setIfInBounds i k) table).size = table.size := by
  induction members generalizing table with
  | nil => rfl
  | cons m members ih => rw [foldl_cons, ih, Array.size_setIfInBounds]

theorem assignment_concat (units : List MergeUnit) (u : MergeUnit) (n : Nat) :
    assignment (units ++ [u]) n =
      u.members.foldl (fun table i => table.setIfInBounds i units.length) (assignment units n) := by
  simp [assignment, zipIdx_append]

@[simp] theorem size_assignment (units : List MergeUnit) (n : Nat) :
    (assignment units n).size = n := by
  induction units using reverseRecOn with
  | nil => simp [assignment]
  | append_singleton units u ih => rw [assignment_concat, size_foldl_setIfInBounds, ih]

theorem getD_assignment (hi : i < n) (hu : units[k]? = some u) (hmem : i ∈ u.members)
    (honly : ∀ l v, units[l]? = some v → i ∈ v.members → l = k) :
    (assignment units n).getD i 0 = k := by
  induction units using reverseRecOn with
  | nil => simp at hu
  | append_singleton units v ih =>
    rw [assignment_concat, getD_foldl_setIfInBounds, size_assignment]
    by_cases hv : i ∈ v.members
    · rw [if_pos ⟨hv, hi⟩]
      exact honly units.length v (by simp) hv
    · rw [if_neg (by simp [hv])]
      have hk : k < units.length := by
        have hlt := (List.getElem?_eq_some_iff.1 hu).1
        rw [length_append, length_singleton] at hlt
        by_contra hge
        obtain rfl : k = units.length := by omega
        rw [getElem?_concat_length] at hu
        exact hv (Option.some.inj hu ▸ hmem)
      rw [getElem?_append_left hk] at hu
      refine ih hu ?_
      intro l w hw hiw
      have hl := (List.getElem?_eq_some_iff.1 hw).1
      exact honly l w (by rw [getElem?_append_left hl]; exact hw) hiw

theorem Partition.unique (h : Partition ops depths n units) {l : Nat} {v : MergeUnit}
    (hu : units[k]? = some u) (hv : units[l]? = some v) (hi : i ∈ u.members) (hj : i ∈ v.members) :
    l = k := by
  have hnodup : (units.flatMap (·.members)).Nodup := h.perm.nodup_iff.2 nodup_range
  have hdisjoint := (nodup_flatMap.1 hnodup).2
  by_contra hne
  obtain ⟨hk, rfl⟩ := List.getElem?_eq_some_iff.1 hu
  obtain ⟨hl, rfl⟩ := List.getElem?_eq_some_iff.1 hv
  rcases Nat.lt_or_gt_of_ne hne with hlt | hlt
  · exact pairwise_iff_getElem.1 hdisjoint l k hl hk hlt hj hi
  · exact pairwise_iff_getElem.1 hdisjoint k l hk hl hlt hi hj

theorem Partition.assignment_eq (h : Partition ops depths n units) (hu : units[k]? = some u)
    (hi : i ∈ u.members) : (assignment units n).getD i 0 = k :=
  getD_assignment (h.lt (mem_of_getElem? hu) hi) hu hi fun _ _ hv hiv => h.unique hu hv hi hiv

theorem Partition.exists_unit (h : Partition ops depths n units) (hi : i < n) :
    ∃ (k : Nat) (u : MergeUnit), units[k]? = some u ∧ i ∈ u.members := by
  obtain ⟨u, hu, hiu⟩ := mem_flatMap.1 (h.perm.mem_iff.2 (mem_range.2 hi))
  obtain ⟨k, hk⟩ := mem_iff_getElem?.mp hu
  exact ⟨k, u, hk, hiu⟩

/-! ## The search for the next unit -/

theorem done_iff_notMem_erase {done : Array Bool} {waiting : List Nat} {m : Nat} (k : Nat)
    (hnodup : waiting.Nodup) (hsize : done.size = m)
    (hdone : ∀ l < m, done.getD l false = true ↔ l ∉ waiting) (l : Nat) (hl : l < m) :
    (done.setIfInBounds k true).getD l false ↔ l ∉ waiting.erase k := by
  rw [hnodup.mem_erase_iff, Array.getD_eq_getD_getElem?, Array.getElem?_setIfInBounds]
  by_cases hlk : k = l
  · subst hlk
    simp [hsize, hl]
  · rw [if_neg hlk, ← Array.getD_eq_getD_getElem?, hdone l hl]
    simp [Ne.symm hlk]

/-- If dependencies lead up in rank, then all that waits is emitted, and nothing before what it
depends on. -/
theorem order_spec {deps : Array (List Nat)} {rank : Nat → Nat} {m : Nat}
    (hrank : ∀ k < m, ∀ d ∈ deps.getD k [], d < m ∧ rank d < rank k) :
    ∀ {fuel : Nat} {done : Array Bool} {waiting : List Nat}, waiting.length ≤ fuel →
      waiting.Nodup → (∀ k ∈ waiting, k < m) → done.size = m →
      (∀ k < m, done.getD k false = true ↔ k ∉ waiting) →
      (order deps fuel done waiting).Perm waiting ∧
        (order deps fuel done waiting).Pairwise fun k l => l ∉ deps.getD k []
  | 0, done, waiting, hfuel, _, _, _, _ => by
    obtain rfl : waiting = [] := eq_nil_of_length_eq_zero (Nat.le_zero.1 hfuel)
    exact ⟨.refl _, .nil⟩
  | fuel + 1, done, waiting, hfuel, hnodup, hbound, hsize, hdone => by
    rw [order]
    split
    · rename_i hnone
      -- the waiting unit of least rank would be ready
      have hnil : waiting = [] := by
        by_contra hne
        obtain ⟨k, hk, hmin⟩ : ∃ k ∈ waiting, ∀ l ∈ waiting, rank k ≤ rank l := by
          obtain ⟨k, hk⟩ := exists_mem_of_ne_nil _ hne
          induction hr : rank k using Nat.strongRecOn generalizing k with
          | _ r ih =>
            by_cases hlower : ∃ l ∈ waiting, rank l < rank k
            · obtain ⟨l, hl, hlt⟩ := hlower
              exact ih (rank l) (hr ▸ hlt) l hl rfl
            · refine ⟨k, hk, ?_⟩
              intro l hl
              exact Nat.le_of_not_lt fun hlt => hlower ⟨l, hl, hlt⟩
        have hready := find?_eq_none.1 hnone k hk
        apply hready
        rw [all_eq_true]
        intro d hd
        obtain ⟨hdm, hlt⟩ := hrank k (hbound k hk) d hd
        exact (hdone d hdm).2 fun hw => absurd (hmin d hw) (by omega)
      subst hnil
      exact ⟨.refl _, .nil⟩
    · rename_i k hfind
      have hk : k ∈ waiting := mem_of_find?_eq_some hfind
      have hready := find?_some hfind
      rw [all_eq_true] at hready
      have herase {l : Nat} : l ∈ waiting.erase k ↔ l ≠ k ∧ l ∈ waiting := hnodup.mem_erase_iff
      obtain ⟨hperm, hpair⟩ := @order_spec deps rank m hrank fuel (done.setIfInBounds k true)
        (waiting.erase k) (by rw [length_erase_of_mem hk]; omega) (hnodup.erase k)
        (fun l hl => hbound l (herase.1 hl).2) (by simpa using hsize)
        (done_iff_notMem_erase k hnodup hsize hdone)
      refine ⟨(hperm.cons k).trans (perm_cons_erase hk).symm, ?_⟩
      rw [pairwise_cons]
      refine ⟨?_, hpair⟩
      intro l hl hdep
      have hwait := (herase.1 (hperm.mem_iff.1 hl)).2
      exact (hdone l (hbound l hwait)).1 (hready l hdep) hwait

/-! ## Ranks -/

/-- Units of lower depth first; at equal depth, operations that do not communicate in their order,
and then the units that do. -/
def rank (depths : Array Nat) (n : Nat) (u : MergeUnit) : Nat :=
  depths.getD (u.members.headD 0) 0 * (n + 1) + if u.key.isSome then n else u.members.headD 0

theorem Partition.rank_eq (h : Partition ops depths n units) (hu : u ∈ units) (hi : i ∈ u.members) :
    u.rank depths n = depths.getD i 0 * (n + 1) + if u.key.isSome then n else i := by
  obtain ⟨first, rest, hmembers⟩ := exists_cons_of_ne_nil (h.nonempty u hu)
  have hfirst : first ∈ u.members := by simp [hmembers]
  rw [rank, hmembers, headD_cons]
  cases hkey : u.key with
  | none =>
    obtain ⟨j, hj⟩ := h.single u hu hkey
    rw [hj, mem_singleton] at hi hfirst
    rw [hi, hfirst]
  | some key =>
    rw [depth_of_keyOf ((h.key u hu i hi).symm.trans hkey),
      depth_of_keyOf ((h.key u hu first hfirst).symm.trans hkey)]
    rfl

theorem Partition.rank_lt (h : Partition ops depths n units) {v : MergeUnit} (hu : u ∈ units)
    (hv : v ∈ units) {p rounds : Nat} (hp : p ∈ u.members) (hi : i ∈ v.members) (hlt : p < i)
    (hdepth : depths.getD p 0 + rounds ≤ depths.getD i 0) (hrounds : u.key.isSome → 0 < rounds) :
    u.rank depths n < v.rank depths n := by
  have hin : i < n := h.lt hv hi
  rw [h.rank_eq hu hp, h.rank_eq hv hi]
  by_cases hdeeper : depths.getD p 0 < depths.getD i 0
  · have hmul : (depths.getD p 0 + 1) * (n + 1) ≤ depths.getD i 0 * (n + 1) :=
      Nat.mul_le_mul_right _ hdeeper
    rw [Nat.add_mul] at hmul
    split <;> split <;> omega
  · have heq : depths.getD p 0 = depths.getD i 0 := by omega
    have hnone : ¬ u.key.isSome := by
      intro hsome
      have := hrounds hsome
      omega
    rw [heq, if_neg hnone]
    split <;> omega

end MergeUnit

/-! ## Emission -/

section Emission

open MergeUnit

variable (regs : RegisterFile) (ops : List Op) {i j : Nat}

/-- What merging guarantees of the units in the order in which it emits them. -/
structure Emission (us : List MergeUnit) : Prop where
  perm : (us.flatMap (·.members)).Perm (List.range ops.length)
  sorted : ∀ u ∈ us, u.members.Pairwise (· < ·)
  nonempty : ∀ u ∈ us, u.members ≠ []
  alike : ∀ u ∈ us, (∃ i, u.members = [i]) ∨
    ∃ b, ∀ i ∈ u.members, ops[i]?.bind Op.batch? = some b
  independent : ∀ u ∈ us, u.members.Pairwise fun i j => ¬ Conflict regs ops i j
  ordered : us.Pairwise fun u v =>
    ∀ i ∈ u.members, ∀ j ∈ v.members, Conflict regs ops i j → i < j

def opWeights : Array Nat := (ops.map Op.weight).toArray

def opDepths : Array Nat :=
  depths (opWeights ops) (dependencies regs ops)

def opUnits : List MergeUnit :=
  ofOps ops (opDepths regs ops)

theorem partition_opUnits :
    Partition ops (opDepths regs ops) ops.length (opUnits regs ops) :=
  partition_ofOps ops _

variable {regs ops}

theorem depth_add_weight_le (h : Reaches regs ops i j) :
    (opDepths regs ops).getD i 0 + (opWeights ops).getD i 0 ≤ (opDepths regs ops).getD j 0 := by
  have hstep {p k : Nat} (hp : p ∈ (dependencies regs ops).getD k []) :=
    @le_depths (opWeights ops) _ (fun _ _ => lt_of_mem_dependencies) _ _ hp
  induction h with
  | single hij => exact hstep hij
  | tail _ hjk ih => exact Nat.le_trans ih (Nat.le_trans (Nat.le_add_right _ _) (hstep hjk))

theorem Op.weight_pos_of_batch? {op : Op} (h : op.batch?.isSome) : 0 < op.weight := by
  cases op with
  | inst i =>
    simp only [Op.batch?] at h
    simp only [Op.weight]
    split at h
    · rename_i hc
      simp [hc]
    · cases h
  | call c => exact Nat.lt_of_lt_of_le Nat.one_pos (Nat.le_max_right _ _)

theorem weight_pos_of_keyOf {ds : Array Nat} (h : (keyOf ops ds i).isSome) :
    0 < (opWeights ops).getD i 0 := by
  obtain ⟨key, hkey⟩ := Option.isSome_iff_exists.1 h
  obtain ⟨b, hb, -⟩ := Option.map_eq_some_iff.1 hkey
  obtain ⟨op, hop, hbatch⟩ := Option.bind_eq_some_iff.1 hb
  have hw : (opWeights ops).getD i 0 = op.weight := by simp [opWeights, hop]
  rw [hw]
  exact Op.weight_pos_of_batch? (by rw [hbatch]; rfl)

theorem pairwise_not_conflict {u : MergeUnit} (hu : u ∈ opUnits regs ops) :
    u.members.Pairwise fun i j => ¬ Conflict regs ops i j := by
  have hpart := partition_opUnits regs ops
  cases hkey : u.key with
  | none =>
    obtain ⟨i, hi⟩ := hpart.single u hu hkey
    simp [hi]
  | some key =>
    refine (List.Pairwise.and_mem.1 (hpart.sorted u hu)).imp ?_
    rintro i j ⟨hi, hj, hlt⟩ hconflict
    have hdeeper := depth_add_weight_le (reaches_of_conflict hlt hconflict)
    have hki := hkey.symm.trans (hpart.key u hu i hi)
    have hkj := hkey.symm.trans (hpart.key u hu j hj)
    have hpos := weight_pos_of_keyOf (by rw [← hki]; rfl)
    rw [depth_of_keyOf hki.symm, depth_of_keyOf hkj.symm] at hdeeper
    omega

/-! ### Dependencies between units -/

variable (regs ops)

def unitDependencies : Array (List Nat) :=
  ((opUnits regs ops).zipIdx.map fun (u, k) =>
    u.dependsOn (dependencies regs ops).toArray (assignment (opUnits regs ops) ops.length) k).toArray

def unitOrder : List Nat :=
  order (unitDependencies regs ops) (opUnits regs ops).length
    (Array.replicate (opUnits regs ops).length false) (List.range (opUnits regs ops).length)

theorem mergeRounds_fst :
    (mergeRounds regs ops).1 = (unitOrder regs ops).filterMap fun k =>
      (opUnits regs ops).toArray[k]?.bind (·.merged? ops.toArray) := rfl

variable {regs ops} {k : Nat}

theorem mem_unitDependencies_iff {d : Nat} {v : MergeUnit} (hv : (opUnits regs ops)[k]? = some v) :
    d ∈ (unitDependencies regs ops).getD k [] ↔
      d ≠ k ∧ ∃ i ∈ v.members, ∃ p ∈ (dependencies regs ops).getD i [],
        (assignment (opUnits regs ops) ops.length).getD p 0 = d := by
  have hget : (unitDependencies regs ops).getD k [] =
      v.dependsOn (dependencies regs ops).toArray (assignment (opUnits regs ops) ops.length) k := by
    simp [unitDependencies, hv]
  have hdeps (i : Nat) : (dependencies regs ops).toArray.getD i [] =
      (dependencies regs ops).getD i [] := by simp
  rw [hget, MergeUnit.dependsOn]
  simp only [mem_filter, mem_map, mem_flatMap, decide_eq_true_eq, hdeps]
  constructor
  · rintro ⟨⟨p, ⟨i, hi, hp⟩, rfl⟩, hne⟩
    exact ⟨hne, i, hi, p, hp, rfl⟩
  · rintro ⟨hne, i, hi, p, hp, rfl⟩
    exact ⟨⟨p, ⟨i, hi, hp⟩, rfl⟩, hne⟩

theorem rank_lt_of_mem_unitDependencies {d : Nat} (hk : k < (opUnits regs ops).length)
    (hd : d ∈ (unitDependencies regs ops).getD k []) :
    ∃ u v, (opUnits regs ops)[d]? = some u ∧ (opUnits regs ops)[k]? = some v ∧
      u.rank (opDepths regs ops) ops.length < v.rank (opDepths regs ops) ops.length := by
  have hpart := partition_opUnits regs ops
  have hv := getElem?_eq_getElem hk
  obtain ⟨-, i, hi, p, hp, rfl⟩ := (mem_unitDependencies_iff hv).1 hd
  have hplt : p < i := lt_of_mem_dependencies hp
  have hvmem := mem_of_getElem? hv
  have hilt := hpart.lt hvmem hi
  obtain ⟨l, u, hu, hpu⟩ := hpart.exists_unit (Nat.lt_trans hplt hilt)
  have humem := mem_of_getElem? hu
  refine ⟨u, _, by rw [hpart.assignment_eq hu hpu]; exact hu, hv, ?_⟩
  refine hpart.rank_lt humem hvmem hpu hi hplt (depth_add_weight_le (.single hp)) ?_
  intro hsome
  rw [hpart.key u humem p hpu] at hsome
  exact weight_pos_of_keyOf hsome

variable (regs ops) in
theorem rank_getD_lt :
    ∀ k < (opUnits regs ops).length, ∀ d ∈ (unitDependencies regs ops).getD k [],
      d < (opUnits regs ops).length ∧
        ((opUnits regs ops).getD d default).rank (opDepths regs ops) ops.length <
          ((opUnits regs ops).getD k default).rank (opDepths regs ops) ops.length := by
  intro k hk d hd
  obtain ⟨u, v, hu, hv, hlt⟩ := rank_lt_of_mem_unitDependencies hk hd
  refine ⟨(List.getElem?_eq_some_iff.1 hu).1, ?_⟩
  simpa [getD_eq_getElem?_getD, hu, hv] using hlt

variable (regs ops) in
theorem unitOrder_spec :
    (unitOrder regs ops).Perm (range (opUnits regs ops).length) ∧
      (unitOrder regs ops).Pairwise fun k l => l ∉ (unitDependencies regs ops).getD k [] := by
  refine order_spec (rank_getD_lt regs ops) (by simp) nodup_range (by simp) (by simp) ?_
  intro k hk
  simp [hk]

/-! ### Conflicts keep their order -/

theorem idxOf_le_of_reaches (h : Reaches regs ops i j) {l : Nat} {u v : MergeUnit}
    (hu : (opUnits regs ops)[k]? = some u) (hv : (opUnits regs ops)[l]? = some v)
    (hi : i ∈ u.members) (hj : j ∈ v.members) :
    (unitOrder regs ops).idxOf k ≤ (unitOrder regs ops).idxOf l := by
  have hpart := partition_opUnits regs ops
  obtain ⟨hperm, hpair⟩ := unitOrder_spec regs ops
  have hmem {m : Nat} {w : MergeUnit} (hw : (opUnits regs ops)[m]? = some w) :
      m ∈ unitOrder regs ops :=
    hperm.mem_iff.2 (List.mem_range.2 (List.getElem?_eq_some_iff.1 hw).1)
  -- one dependency: the unit of `p` is a dependency of that of `q`, or the two are one
  have hstep {p q m m' : Nat} {w w' : MergeUnit} (hw : (opUnits regs ops)[m]? = some w)
      (hw' : (opUnits regs ops)[m']? = some w') (hp : p ∈ w.members) (hq : q ∈ w'.members)
      (hpq : p ∈ (dependencies regs ops).getD q []) :
      (unitOrder regs ops).idxOf m ≤ (unitOrder regs ops).idxOf m' := by
    by_cases hmm : m = m'
    · exact Nat.le_of_eq (by rw [hmm])
    · have hdep : m ∈ (unitDependencies regs ops).getD m' [] :=
        (mem_unitDependencies_iff hw').2 ⟨hmm, q, hq, p, hpq, hpart.assignment_eq hw hp⟩
      by_contra hlt
      have hm := idxOf_lt_length_iff.2 (hmem hw)
      have hm' := idxOf_lt_length_iff.2 (hmem hw')
      have hnot := pairwise_iff_getElem.1 hpair _ _ hm' hm (Nat.lt_of_not_le hlt)
      rw [getElem_idxOf hm, getElem_idxOf hm'] at hnot
      exact hnot hdep
  induction h generalizing l v with
  | single hij => exact hstep hu hv hi hj hij
  | tail hip hpq ih =>
    rename_i p q
    have hplt : p < ops.length :=
      Nat.lt_trans (lt_of_mem_dependencies hpq) (hpart.lt (mem_of_getElem? hv) hj)
    obtain ⟨m, w, hw, hpw⟩ := hpart.exists_unit hplt
    exact Nat.le_trans (ih hw hpw) (hstep hw hv hpw hj hpq)

theorem lt_of_mem_unitOrder (h : k ∈ unitOrder regs ops) :
    k < (opUnits regs ops).length :=
  mem_range.1 ((unitOrder_spec regs ops).1.mem_iff.1 h)

variable (regs ops)

def emitted : List MergeUnit :=
  (unitOrder regs ops).map fun k => (opUnits regs ops).getD k default

theorem perm_emitted :
    (emitted regs ops).Perm (opUnits regs ops) := by
  have hall : (range (opUnits regs ops).length).map
      (fun k => (opUnits regs ops).getD k default) = opUnits regs ops := by
    apply ext_getElem
    · simp
    · intro k _ hk
      simp [hk]
  have hperm := (unitOrder_spec regs ops).1.map fun k => (opUnits regs ops).getD k default
  rwa [hall] at hperm

theorem mergeRounds_eq_emitted :
    (mergeRounds regs ops).1 = (emitted regs ops).filterMap (·.merged? ops.toArray) := by
  rw [mergeRounds_fst, emitted, filterMap_map]
  refine filterMap_congr fun k hk => ?_
  simp [lt_of_mem_unitOrder hk]

theorem pairwise_emitted :
    (emitted regs ops).Pairwise fun u v =>
      ∀ i ∈ u.members, ∀ j ∈ v.members, Conflict regs ops i j → i < j := by
  have hpart := partition_opUnits regs ops
  have hnodup : (unitOrder regs ops).Nodup :=
    (unitOrder_spec regs ops).1.nodup_iff.2 nodup_range
  rw [emitted, pairwise_map, pairwise_iff_getElem]
  intro a b ha hb hab i hi j hj hconflict
  have hk := lt_of_mem_unitOrder (getElem_mem ha)
  have hl := lt_of_mem_unitOrder (getElem_mem hb)
  have hunit {m : Nat} (hm : m < (opUnits regs ops).length) :
      (opUnits regs ops)[m]? = some ((opUnits regs ops).getD m default) := by simp [hm]
  rcases Nat.lt_trichotomy i j with hlt | rfl | hgt
  · exact hlt
  · have := hpart.unique (hunit hk) (hunit hl) hi hj
    exact absurd ((hnodup.getElem_inj_iff).1 this) (by omega)
  · -- the later one would reach the earlier one, whose unit stands in front
    have hle := idxOf_le_of_reaches (reaches_of_conflict hgt hconflict.symm) (hunit hl) (hunit hk)
      hj hi
    rw [hnodup.idxOf_getElem, hnodup.idxOf_getElem] at hle
    omega

theorem emission_emitted :
    Emission regs ops (emitted regs ops) := by
  have hpart := partition_opUnits regs ops
  have hmem {u : MergeUnit} : u ∈ emitted regs ops ↔ u ∈ opUnits regs ops :=
    (perm_emitted regs ops).mem_iff
  refine ⟨?_, ?_, ?_, ?_, ?_, pairwise_emitted regs ops⟩
  · exact ((perm_emitted regs ops).flatMap_right _).trans hpart.perm
  · exact fun u hu => hpart.sorted u (hmem.1 hu)
  · exact fun u hu => hpart.nonempty u (hmem.1 hu)
  · intro u hu
    cases hkey : u.key with
    | none => exact .inl (hpart.single u (hmem.1 hu) hkey)
    | some key =>
      refine .inr ⟨key.2, ?_⟩
      intro i hi
      have hki := (hpart.key u (hmem.1 hu) i hi).symm.trans hkey
      obtain ⟨b, hb, rfl⟩ := Option.map_eq_some_iff.1 hki
      exact hb
  · exact fun u hu => pairwise_not_conflict (hmem.1 hu)

variable {regs ops} in
theorem Emission.pairwise_members {us : List MergeUnit} (h : Emission regs ops us) :
    (us.flatMap (·.members)).Pairwise fun i j => Conflict regs ops i j → i < j := by
  rw [pairwise_flatMap]
  refine ⟨?_, h.ordered⟩
  intro u hu
  exact (h.independent u hu).imp fun hnot hconflict => absurd hconflict hnot

end Emission

end SecureTape
