import Mathlib
import SecureTape.Proofs.RequirementCalls

/-!
# Least requirements

What a node needs when recursion is followed to any finite depth. The answer for a node counts
nothing for the nodes on the way down, so it is compared with what is needed when some nodes are cut
off. Main statements:
1. `own_add_groupsValue_least`: a node needs what it has itself and what its groups need.
2. `scheme_atLeast`: a settled node counts what is needed to any depth, except below its open hits.
3. `least_le_value_aggregate`: no answer is below what is needed to any depth.
-/

namespace SecureTape

open List

namespace RequirementTree

variable {t t' : RequirementTree} {key : Resource} {cut cut' : List NodeId} {id x : NodeId}

theorem groupsValue_mono {v w : NodeId → ℕ∞} (h : ∀ b, t.Child id b → v b ≤ w b) :
    t.groupsValue v id ≤ t.groupsValue w id := by
  unfold groupsValue
  refine Combinator.sum_mono (forall₂_map_left_iff.2 (forall₂_map_right_iff.2 ?_))
  refine forall₂_same.2 fun g hg => g.combinator.value_mono ?_
  refine forall₂_map_left_iff.2 (forall₂_map_right_iff.2 ?_)
  exact forall₂_same.2 fun b hb => h b (child_iff.2 ⟨g, hg, hb⟩)

/-! ## Approximations -/

/-- What a node needs if the nodes `cut` and all paths of length `depth` need nothing. -/
noncomputable def approx (t : RequirementTree) (key : Resource) (cut : List NodeId) :
    Nat → NodeId → ℕ∞
  | 0, _ => 0
  | depth + 1, id =>
    if id ∈ cut then 0
    else ((t.node id).own.get key).value + t.groupsValue (t.approx key cut depth) id

theorem approx_of_mem (h : id ∈ cut) (depth : Nat) : t.approx key cut depth id = 0 := by
  cases depth with
  | zero => rfl
  | succ depth => exact if_pos h

theorem approx_succ (h : id ∉ cut) (depth : Nat) : t.approx key cut (depth + 1) id =
    ((t.node id).own.get key).value + t.groupsValue (t.approx key cut depth) id :=
  if_neg h

theorem approx_mono (id : NodeId) : Monotone fun depth => t.approx key cut depth id := by
  refine monotone_nat_of_le_succ fun depth => ?_
  induction depth generalizing id with
  | zero => exact zero_le
  | succ depth ih =>
    by_cases h : id ∈ cut
    · rw [approx_of_mem h]
      exact zero_le
    · rw [approx_succ h, approx_succ h]
      exact add_le_add le_rfl (groupsValue_mono fun b _ => ih b)

theorem approx_anti (hsub : cut ⊆ cut') (depth : Nat) (id : NodeId) :
    t.approx key cut' depth id ≤ t.approx key cut depth id := by
  induction depth generalizing id with
  | zero => exact le_rfl
  | succ depth ih =>
    by_cases h : id ∈ cut'
    · rw [approx_of_mem h]
      exact zero_le
    · rw [approx_succ h, approx_succ fun hmem => h (hsub hmem)]
      exact add_le_add le_rfl (groupsValue_mono fun b _ => ih b)

theorem approx_cons {n : Nat} (hzero : ∀ depth ≤ n, t.approx key cut depth x = 0) (id : NodeId) :
    t.approx key cut n id = t.approx key (x :: cut) n id := by
  induction n generalizing id with
  | zero => rfl
  | succ n ih =>
    by_cases hid : id = x
    · rw [hid, hzero (n + 1) le_rfl, approx_of_mem (.head _)]
    by_cases h : id ∈ cut
    · rw [approx_of_mem h, approx_of_mem (mem_cons_of_mem x h)]
    · rw [approx_succ h, approx_succ (by simp [hid, h])]
      refine congrArg _ (groupsValue_congr fun b _ => ih (fun depth hdepth => ?_) b)
      exact hzero depth (Nat.le_succ_of_le hdepth)

theorem approx_congr (h : ∀ m, t.Reaches id m →
      (t'.node m).own = (t.node m).own ∧ (t'.node m).groups = (t.node m).groups) (depth : Nat) :
    t'.approx key cut depth id = t.approx key cut depth id := by
  induction depth generalizing id with
  | zero => rfl
  | succ depth ih =>
    obtain ⟨hown, hgroups⟩ := h id .refl
    by_cases hid : id ∈ cut
    · rw [approx_of_mem hid, approx_of_mem hid]
    · have hsame : t'.groupsValue (t'.approx key cut depth) id =
          t.groupsValue (t'.approx key cut depth) id := by
        rw [groupsValue, hgroups, groupsValue]
      rw [approx_succ hid, approx_succ hid, hown, hsame]
      exact congrArg _ (groupsValue_congr fun b hb => ih fun m hm => h m (.head hb hm))

/-! ## Answers -/

/-- The tally counts all that is needed to any depth. -/
def AtLeast (t : RequirementTree) (id : NodeId) (k : Tally) : Prop :=
  ∀ key depth, t.approx key [] depth id ≤ (k.get key).value

theorem local_atLeast : Local AtLeast := by
  intro t t' id k h hk key depth
  rw [approx_congr h]
  exact hk key depth

theorem approx_le_value_settle (ht : t.WellFormed) {active : List NodeId}
    {parts : List (Tally × List NodeId)}
    (hparts : Forall₂ (Gathered fun m r hits => (t.Child id m ∧
        t.Answer (id :: active) m r hits ∧
          ∀ key depth, t.approx key hits depth m ≤ (r.get key).value) ∧
            hits ⊆ parts.flatMap (·.2))
      (t.node id).groups parts) (key : Resource) (depth : Nat) :
    t.approx key (settle id (t.node id).own parts).2 depth id ≤
      ((settle id (t.node id).own parts).1.get key).value := by
  have htotal := valid_total ht (fun m r hits hm => hm.1.2.1.valid) hparts
  have hle : _ ≤ ((settle id (t.node id).own parts).1.get key).value := (settle_spec htotal key).1
  have hunbounded : id ∈ parts.flatMap (·.2) →
      (settle id (t.node id).own parts).1.get key ≠ .zero →
        (settle id (t.node id).own parts).1.get key = .unbounded := (settle_spec htotal key).2
  -- what the node needs if all hits are cut off, to any depth
  have hcount (depth : Nat) : ((t.node id).own.get key).value +
      t.groupsValue (t.approx key (parts.flatMap (·.2)) depth) id ≤
        ((settle id (t.node id).own parts).1.get key).value := by
    refine (le_value_total ht (fun m r hits hm => hm.1.2.1.valid) ?_ hparts).trans hle
    intro m r hits hm
    exact (approx_anti hm.2 depth m).trans (hm.1.2.2 key depth)
  have hpending : id ∉ (settle id (t.node id).own parts).2 := by simp [settle]
  have hsub : (parts.flatMap (·.2)) ⊆ id :: (settle id (t.node id).own parts).2 := by
    intro b hb
    by_cases hid : b = id
    · exact mem_cons.2 (.inl hid)
    · exact mem_cons_of_mem _ (mem_filter.2 ⟨hb, by simpa using hid⟩)
  by_cases hhit : id ∈ parts.flatMap (·.2)
  · by_cases hzero : (settle id (t.node id).own parts).1.get key = .zero
    · -- nothing is counted, so nothing is needed either: no path back to the node adds anything
      refine le_of_eq_of_le ?_ zero_le
      induction depth using Nat.strong_induction_on with
      | _ depth ih =>
        cases depth with
        | zero => rfl
        | succ depth =>
          have hnone := hcount depth
          rw [hzero] at hnone
          rw [approx_succ hpending]
          refine le_antisymm (le_trans (add_le_add le_rfl (groupsValue_mono ?_)) hnone) zero_le
          intro b _
          rw [approx_cons (fun n hn => ih n (Nat.lt_succ_of_le hn)) b]
          exact approx_anti hsub depth b
    · rw [hunbounded hhit hzero]
      exact le_top
  · cases depth with
    | zero => exact zero_le
    | succ depth =>
      rw [approx_succ hpending]
      refine le_trans (add_le_add le_rfl (groupsValue_mono fun b _ => approx_anti ?_ depth b))
        (hcount depth)
      intro b hb
      exact ((mem_cons.1 (hsub hb)).resolve_left fun h => hhit (h ▸ hb))

theorem scheme_atLeast (ht : t.WellFormed) : t.Scheme (t.AtLeast) fun _ id r hits =>
    ∀ key depth, t.approx key hits depth id ≤ (r.get key).value where
  kept _ hk := hk
  hit _ _ key depth := by
    rw [approx_of_mem (.head _)]
    exact zero_le
  settle _ _ hparts := by
    have hsettle := approx_le_value_settle ht (gathered_hits hparts)
    refine ⟨hsettle, fun hnone key depth => ?_⟩
    have hle := hsettle key depth
    rwa [hnone] at hle

/-! ## Any depth -/

/-- What a node needs to any depth. -/
noncomputable def least (t : RequirementTree) (key : Resource) (id : NodeId) : ℕ∞ :=
  ⨆ depth, t.approx key [] depth id

theorem least_le_value {k : Tally} (h : t.AtLeast id k) : t.least key id ≤ (k.get key).value :=
  iSup_le (h key)

theorem least_le_value_aggregate (ht : t.WellFormed) (hkept : KeptSatisfy AtLeast t)
    (hid : id < t.size) : t.least key id ≤ ((t.aggregate id).1.get key).value :=
  least_le_value (aggregate_spec ht (scheme_atLeast ht) hkept hid).2

theorem sum_iSup_le {β : Type} (f : Nat → β → ℕ∞) (hf : ∀ b, Monotone fun n => f n b) (bs : List β) :
    (bs.map fun b => ⨆ n, f n b).sum ≤ ⨆ n, (bs.map (f n)).sum := by
  induction bs with
  | nil => exact zero_le
  | cons b bs ih =>
    rw [map_cons, sum_cons]
    refine (add_le_add le_rfl ih).trans (ENat.iSup_add_iSup_le fun i j => ?_)
    refine le_trans ?_ (le_iSup _ (max i j))
    rw [map_cons, sum_cons]
    refine add_le_add (hf b (le_max_left i j)) (Combinator.sum_mono ?_)
    refine forall₂_map_left_iff.2 (forall₂_map_right_iff.2 ?_)
    exact forall₂_same.2 fun c _ => hf c (le_max_right i j)

theorem value_iSup_le (c : Combinator) {β : Type} (f : Nat → β → ℕ∞)
    (hf : ∀ b, Monotone fun n => f n b) (bs : List β) :
    c.value (bs.map fun b => ⨆ n, f n b) ≤ ⨆ n, c.value (bs.map (f n)) := by
  cases c with
  | sum => exact sum_iSup_le f hf bs
  | max =>
    induction bs with
    | nil => exact zero_le
    | cons b bs ih =>
      refine max_le (iSup_mono fun n => le_max_left _ _) (ih.trans (iSup_mono fun n => ?_))
      exact le_max_right _ _
  | times n =>
    refine (mul_le_mul_right (sum_iSup_le f hf bs) _).trans ?_
    rw [ENat.mul_iSup]
    exact le_rfl

theorem own_add_groupsValue_least (t : RequirementTree) (key : Resource) (id : NodeId) :
    ((t.node id).own.get key).value + t.groupsValue (t.least key) id ≤ t.least key id := by
  have hgroups : t.groupsValue (t.least key) id ≤
      ⨆ depth, t.groupsValue (t.approx key [] depth) id := by
    have hvalue (g : RequirementGroup) :=
      value_iSup_le g.combinator (t.approx key []) approx_mono g.members
    refine (Combinator.sum_mono (forall₂_map_left_iff.2 (forall₂_map_right_iff.2
      (forall₂_same.2 fun g _ => hvalue g)))).trans (sum_iSup_le _ ?_ _)
    intro g m n hmn
    refine g.combinator.value_mono (forall₂_map_left_iff.2 (forall₂_map_right_iff.2 ?_))
    exact forall₂_same.2 fun b _ => approx_mono b hmn
  calc ((t.node id).own.get key).value + t.groupsValue (t.least key) id
    _ ≤ _ := add_le_add le_rfl hgroups
    _ = ⨆ depth, t.approx key [] (depth + 1) id := ENat.add_iSup _
    _ ≤ t.least key id := iSup_le fun depth => le_iSup (fun n => t.approx key [] n id) (depth + 1)

end RequirementTree

end SecureTape
