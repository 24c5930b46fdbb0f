import Mathlib
import SecureTape.Proofs.RequirementCalls

/-!
# Aggregates of acyclic requirement trees are exact

On an acyclic tree the need of a node is what was charged to it plus the needs of its groups, in the
extended natural numbers. Main statements:
1. `existsUnique_exact`: these equations have exactly one solution.
2. `own_after`: the own counts of a node are what was charged to it, saturated.
3. `aggregate_exact`: every answer is the solution, saturated, whatever was asked before and however
   groups and members are ordered.
-/

namespace SecureTape

open List

variable {a b id parent : NodeId} {members : List NodeId} {w : ℕ∞} {calls : List TreeCall}
  {t t' : RequirementTree} {v : NodeId → ℕ∞}

namespace RequirementTree

variable {w : NodeId → ℕ∞}

/-! ## The equations -/

/-- No node lies below itself. -/
def Acyclic (t : RequirementTree) : Prop :=
  ∀ id, ¬ t.Below id id

theorem acyclic_of_lt (h : ∀ a < t.size, ∀ b ∈ t.children a, a < b) : t.Acyclic := by
  have hbelow : ∀ a b, t.Below a b → a < b := by
    intro a b hab
    induction hab with
    | single hedge => exact h _ (lt_size_of_child hedge) _ hedge
    | tail _ hedge ih => exact ih.trans (h _ (lt_size_of_child hedge) _ hedge)
  exact fun id hid => lt_irrefl id (hbelow id id hid)

/-- Every node needs what was charged to it plus what its groups need. -/
def Exact (t : RequirementTree) (own v : NodeId → ℕ∞) : Prop :=
  ∀ id, v id = own id + t.groupsValue v id

open Classical in
/-- The number of nodes below a node. -/
noncomputable def height (t : RequirementTree) (id : NodeId) : Nat :=
  ((Finset.range t.size).filter (t.Below id)).card

theorem height_le_size (t : RequirementTree) (id : NodeId) : t.height id ≤ t.size := by
  classical
  have h := Finset.card_filter_le (Finset.range t.size) (t.Below id)
  rwa [Finset.card_range] at h

theorem height_lt_of_child (ht : t.WellFormed) (hacyclic : t.Acyclic) (h : t.Child a b) :
    t.height b < t.height a := by
  classical
  refine Finset.card_lt_card (Finset.ssubset_iff.2 ⟨b, ?_, ?_⟩)
  · simpa using fun _ => hacyclic b
  · intro c hc
    rcases Finset.mem_insert.1 hc with rfl | hc
    · exact Finset.mem_filter.2 ⟨Finset.mem_range.2 (ht.child_lt h), .single h⟩
    · obtain ⟨hlt, hbelow⟩ := Finset.mem_filter.1 hc
      exact Finset.mem_filter.2 ⟨hlt, .head h hbelow⟩

/-- The equations, unrolled a number of times. -/
noncomputable def unrolled (t : RequirementTree) (own : NodeId → ℕ∞) : Nat → NodeId → ℕ∞
  | 0, _ => 0
  | n + 1, id => own id + t.groupsValue (t.unrolled own n) id

theorem unrolled_stable (ht : t.WellFormed) (hacyclic : t.Acyclic) (own : NodeId → ℕ∞) (n : Nat)
    (id : NodeId) (hn : t.height id < n) : t.unrolled own (n + 1) id = t.unrolled own n id := by
  induction n generalizing id with
  | zero => omega
  | succ n ih =>
    refine congrArg (own id + ·) (groupsValue_congr fun b hb => ih b ?_)
    have := height_lt_of_child ht hacyclic hb
    omega

theorem existsUnique_exact (ht : t.WellFormed) (hacyclic : t.Acyclic) (own : NodeId → ℕ∞) :
    ∃! v, t.Exact own v := by
  refine ⟨t.unrolled own (t.size + 1), fun id => ?_, fun v hv => funext fun id => ?_⟩
  · have hheight := t.height_le_size id
    exact (unrolled_stable ht hacyclic own (t.size + 1) id (by omega)).symm
  · -- Two solutions agree below every node, and so at it.
    have hu : t.Exact own (t.unrolled own (t.size + 1)) := by
      intro id
      have hheight := t.height_le_size id
      exact (unrolled_stable ht hacyclic own (t.size + 1) id (by omega)).symm
    induction hh : t.height id using Nat.strong_induction_on generalizing id with
    | _ n ih =>
      subst hh
      rw [hv id, hu id]
      refine congrArg (own id + ·) (groupsValue_congr fun b hb => ?_)
      exact ih _ (height_lt_of_child ht hacyclic hb) b rfl

/-! ## Answers solve the equations -/

/-- On all that `id` reaches, `v` solves the equations with charges that the own counts stand
for. -/
def Solves (t : RequirementTree) (key : Resource) (own v : NodeId → ℕ∞) (id : NodeId) : Prop :=
  ∀ m, t.Reaches id m →
    (t.node m).own.get key = Count.saturate (own m) ∧ v m = own m + t.groupsValue v m

/-- The aggregate stands for the solution of the equations. -/
def StandsForExact (t : RequirementTree) (id : NodeId) (k : Tally) : Prop :=
  ∀ key own v, t.Solves key own v id → k.get key = Count.saturate (v id)

theorem local_standsForExact : Local StandsForExact := by
  intro t t' id k hagree hk key own v hv
  refine hk key own v fun m hm => ?_
  obtain ⟨hown, hval⟩ := hv m (reaches_of_agree (fun c hc => (hagree c hc).2) hm)
  obtain ⟨hown', hgroups⟩ := hagree m hm
  refine ⟨by rw [← hown']; exact hown, hval.trans ?_⟩
  rw [groupsValue, groupsValue, hgroups]

theorem scheme_standsForExact (ht : t.WellFormed) (hacyclic : t.Acyclic) :
    t.Scheme t.StandsForExact fun _ id r hits => t.StandsForExact id r ∧ hits = [] where
  kept _ hk := ⟨hk, rfl⟩
  hit hchain hmem := absurd (hchain.below _ hmem) (hacyclic _)
  settle := by
    intro active id parts hchain hid hparts
    have hhits : parts.flatMap (·.2) = [] := by
      refine eq_nil_iff_forall_not_mem.2 fun b hb => ?_
      obtain ⟨m, r, hits, ⟨-, -, -, rfl⟩, hb⟩ := exists_of_mem_hits hparts hb
      exact absurd hb not_mem_nil
    have hsettle : settle id (t.node id).own parts =
        ((parts.map (·.1)).foldl Tally.sum (t.node id).own, []) := by
      rw [← foldl_parts, settle, hhits]
      rfl
    rw [hsettle]
    have hresult : t.StandsForExact id ((parts.map (·.1)).foldl Tally.sum (t.node id).own) := by
      intro key own v hv
      obtain ⟨hown, hval⟩ := hv id .refl
      rw [hval]
      refine get_total ht (fun m r hits hm => hm.2.1.valid) ?_ hown hparts
      intro m r hits hm
      exact hm.2.2.1 key own v fun b hb => hv b (.head hm.1 hb)
    exact ⟨⟨hresult, rfl⟩, fun _ => hresult⟩

end RequirementTree

/-! ## What calls charge -/

def TreeCall.charge (id : NodeId) (key : Resource) : TreeCall → ℕ∞
  | .increment i r n => if id = i ∧ key = r then n.value else 0
  | .addUsage i usage => if id = i then (usage.get key).value else 0
  | _ => 0

namespace RequirementTree

variable {w : NodeId → ℕ∞} {key : Resource}

def charged (calls : List TreeCall) (key : Resource) (id : NodeId) : ℕ∞ :=
  (calls.map (TreeCall.charge id key)).sum

theorem own_modifyGroups (hmembers : ∀ m ∈ members, m < t.size)
    (f : List RequirementGroup → List RequirementGroup) :
    ((((t.addParents members parent).modifyNode parent fun n =>
      { n with groups := f n.groups }).invalidate parent).node id).own = (t.node id).own := by
  obtain ⟨hsize, hnode⟩ := addParents_spec members t parent hmembers
  rw [(alike_invalidate _ parent).own_eq]
  by_cases hid : id = parent
  · by_cases hlt : parent < (t.addParents members parent).size
    · rw [hid, node_modifyNode_self _ hlt]
      exact (hnode parent).1
    · rw [node_of_size_le (t := t), node_of_size_le]
      · rw [size_modifyNode, hid]
        exact not_lt.1 hlt
      · rw [hid, ← hsize]
        exact not_lt.1 hlt
  · rw [node_modifyNode_of_ne _ hid]
    exact (hnode id).1

theorem own_addGroup {combinator : Combinator} (hmembers : ∀ m ∈ members, m < t.size) :
    ((t.addGroup parent combinator members).2.node id).own = (t.node id).own := by
  unfold addGroup
  exact own_modifyGroups hmembers fun gs => gs ++ [⟨combinator, members⟩]

theorem own_modifyOwn {i : NodeId} (hi : i < t.size) (f : Tally → Tally) :
    (((t.modifyNode i fun n => { n with own := f n.own }).invalidate i).node id).own =
      if id = i then f (t.node id).own else (t.node id).own := by
  rw [(alike_invalidate _ i).own_eq]
  split
  · rename_i heq
    rw [heq, node_modifyNode_self _ hi]
  · rename_i hne
    rw [node_modifyNode_of_ne _ hne]

theorem get_of_isEmpty {usage : Tally} (h : usage.isEmpty) (key : Resource) :
    usage.get key = .zero := by
  unfold Tally.get
  cases hlookup : usage.entries.lookup key with
  | none => rfl
  | some n =>
    obtain ⟨l₁, l₂, heq, -⟩ := lookup_eq_some_iff.1 hlookup
    have hzero := all_eq_true.1 h (key, n) (by simp [heq])
    exact Count.isZero_eq_true_iff.1 hzero

theorem own_run {call : TreeCall} (ht : t.WellFormed) (hkept : KeptSatisfy (fun _ _ _ => True) t)
    (hfit : call.Fits t) {w : ℕ∞} (hown : (t.node id).own.get key = Count.saturate w) :
    ((call.run t).node id).own.get key = Count.saturate (w + call.charge id key) := by
  have hsame : ((call.run t).node id).own = (t.node id).own → call.charge id key = 0 →
      ((call.run t).node id).own.get key = Count.saturate (w + call.charge id key) := by
    intro heq hzero
    rw [heq, hzero, add_zero, hown]
  cases call with
  | addNode name => exact hsame (node_addNode name id).1 rfl
  | addScope parent name combinator =>
    have hmembers : ∀ m ∈ [t.size], m < (t.addNode name).2.size := by simp [size_addNode]
    refine hsame ?_ rfl
    show (((t.addNode name).2.addGroup parent combinator [t.size]).2.node id).own = _
    rw [own_addGroup hmembers, (node_addNode name id).1]
  | addGroup parent combinator members => exact hsame (own_addGroup hfit.2.2) rfl
  | extendGroup parent group member =>
    have hmembers : ∀ m ∈ [member], m < t.size := by simpa using hfit.2.2
    refine hsame ?_ rfl
    show ((t.extendGroup parent group member).node id).own = _
    unfold extendGroup
    exact own_modifyGroups hmembers
      fun gs => gs.modify group fun g => { g with members := g.members ++ [member] }
  | increment i r n =>
    show ((t.increment i r n).node id).own.get key = _
    rw [increment, own_modifyOwn hfit.1 (fun own => own.increment r n), TreeCall.charge]
    by_cases hid : id = i
    · rw [if_pos hid, Tally.get_increment (ht.own_valid id)]
      by_cases hkey : key = r
      · rw [if_pos hkey, if_pos ⟨hid, hkey⟩, hown, Count.saturate_add, Count.saturate_value hfit.2]
      · rw [if_neg hkey, if_neg fun h => hkey h.2, add_zero, hown]
    · rw [if_neg hid, if_neg fun h => hid h.1, add_zero, hown]
  | addUsage i usage =>
    show ((t.addUsage i usage).node id).own.get key = _
    rw [addUsage, TreeCall.charge]
    split
    · rename_i hempty
      rw [get_of_isEmpty hempty key, hown]
      simp [Count.value, Count.zero]
    · rw [own_modifyOwn hfit.1 (fun own => own.sum usage)]
      by_cases hid : id = i
      · rw [if_pos hid, if_pos hid, Tally.get_sum (ht.own_valid id) hfit.2, hown,
          Count.saturate_add, Count.saturate_value (Tally.valid_get hfit.2 key)]
      · rw [if_neg hid, if_neg hid, add_zero, hown]
  | aggregate i =>
    obtain ⟨hkeeps, -⟩ := aggregate_spec ht scheme_true hkept hfit
    exact hsame (hkeeps.alike.own_eq id) rfl

theorem own_after {calls : List TreeCall} (ht : t.WellFormed)
    (hkept : KeptSatisfy (fun _ _ _ => True) t) (hfit : t.FitAll calls) {w : ℕ∞}
    (hown : (t.node id).own.get key = Count.saturate w) :
    ((t.after calls).node id).own.get key = Count.saturate (w + charged calls key id) := by
  induction calls generalizing t w with
  | nil => simpa [after, charged] using hown
  | cons call calls ih =>
    have hstep := stepsTo_run hfit.1 ht scheme_true (fun _ _ _ _ _ _ => trivial) hkept
    have hrest := ih hstep.wellFormed hstep.keptSatisfy hfit.2 (own_run ht hkept hfit.1 hown)
    rwa [add_assoc] at hrest

/-! ## Exact answers -/

theorem Acyclic.of_grows (hgrows : t.Grows t') (h : t'.Acyclic) : t.Acyclic := by
  intro id hid
  have hmono : t.Below ≤ t'.Below := Relation.TransGen.mono fun _ _ => hgrows.child
  exact h id (hmono id id hid)

theorem get_aggregate (hfit : empty.FitAll calls) (hcalls : empty.after calls = t)
    (hacyclic : t.Acyclic) (hv : t.Exact (charged calls key) v) (hid : id < t.size) :
    (t.aggregate id).1.get key = Count.saturate (v id) := by
  have hanswer : t.StandsForExact id (t.aggregate id).1 :=
    aggregate_satisfies local_standsForExact
      (fun t ht hC => ⟨_, scheme_standsForExact ht hC⟩) (fun t t' => Acyclic.of_grows)
      hfit hcalls hacyclic hid
  refine hanswer key (charged calls key) v fun m _ => ⟨?_, hv m⟩
  subst hcalls
  have hempty : (empty.node m).own.get key = Count.saturate 0 := by
    rw [node_of_size_le m.zero_le, Count.saturate_zero]
    rfl
  have hown := own_after wellFormed_empty keptSatisfy_empty hfit hempty
  rwa [zero_add] at hown

/-- The trees have the same groups up to the order of groups and of members. -/
structure Rearranged (t t' : RequirementTree) : Prop where
  size_eq : t'.size = t.size
  groups : ∀ id, ∃ gs, List.Forall₂ (fun g g' : RequirementGroup =>
      g.combinator = g'.combinator ∧ g.members.Perm g'.members) (t.node id).groups gs ∧
    gs.Perm (t'.node id).groups

theorem Rearranged.groupsValue_eq (h : t.Rearranged t') (v : NodeId → ℕ∞) (id : NodeId) :
    t'.groupsValue v id = t.groupsValue v id := by
  obtain ⟨gs, hgs, hperm⟩ := h.groups id
  unfold groupsValue
  rw [← (hperm.map _).sum_eq]
  refine congrArg List.sum (forall₂_eq_eq_eq ▸ ?_)
  rw [forall₂_map_left_iff, forall₂_map_right_iff]
  refine hgs.flip.imp fun g' g hg => ?_
  rw [← hg.1]
  exact g.combinator.value_perm (hg.2.symm.map v)

theorem Rearranged.child (h : t.Rearranged t') (hedge : t'.Child a b) : t.Child a b := by
  obtain ⟨gs, hgs, hperm⟩ := h.groups a
  obtain ⟨g', hg', hb⟩ := child_iff.1 hedge
  obtain ⟨g, hg, -, hmembers⟩ := exists_left_of_forall₂ hgs (hperm.mem_iff.2 hg')
  exact child_iff.2 ⟨g, hg, hmembers.mem_iff.2 hb⟩

/-- After calls that made an acyclic tree, the equations for what its nodes need have exactly one
solution, and every answer is that solution, saturated. In particular other calls that charge the
same and make the same groups in another order, with other questions between them, get the same
answers. -/
theorem aggregate_exact (calls : List TreeCall) (t : RequirementTree) (hfit : empty.FitAll calls)
    (hcalls : empty.after calls = t) (hacyclic : t.Acyclic) (key : Resource) :
    (∃! v, t.Exact (charged calls key) v) ∧
    (∀ v, t.Exact (charged calls key) v → ∀ id < t.size,
      (t.aggregate id).1.get key = Count.saturate (v id)) ∧
    ∀ calls' t', empty.FitAll calls' → empty.after calls' = t' → t.Rearranged t' →
      (∀ id, charged calls' key id = charged calls key id) → ∀ id < t.size,
        (t'.aggregate id).1.get key = (t.aggregate id).1.get key := by
  have hwf : t.WellFormed := by
    rw [← hcalls]
    exact (wellFormed_after wellFormed_empty keptSatisfy_empty hfit).1
  have hunique := existsUnique_exact hwf hacyclic (charged calls key)
  refine ⟨hunique, fun v hv id hid => get_aggregate hfit hcalls hacyclic hv hid, ?_⟩
  intro calls' t' hfit' hcalls' hsame hcharged id hid
  obtain ⟨v, hv, -⟩ := hunique
  have hacyclic' : t'.Acyclic := by
    have hmono : t'.Below ≤ t.Below := Relation.TransGen.mono fun _ _ => hsame.child
    exact fun m hm => hacyclic m (hmono m m hm)
  have hv' : t'.Exact (charged calls' key) v := by
    intro m
    rw [hcharged, hsame.groupsValue_eq]
    exact hv m
  rw [get_aggregate hfit hcalls hacyclic hv hid,
    get_aggregate hfit' hcalls' hacyclic' hv' (by rw [hsame.size_eq]; exact hid)]

/-- A node that is needed three times by one parent and once by another, with a question before it
is charged again. -/
theorem aggregate_exact_shared :
    ∃ calls t v, empty.FitAll calls ∧ empty.after calls = t ∧ t.Acyclic ∧
      t.Exact (charged calls .rounds) v ∧
      (t.aggregate 0).1.get .rounds = Count.saturate (v 0) ∧ Count.saturate (v 0) = .finite 42 := by
  let calls : List TreeCall := [.addNode "root", .addNode "loop", .addNode "leaf",
    .addGroup 0 .sum [1], .addGroup 0 .max [1, 2], .addGroup 1 (.times (.finite 3)) [2],
    .increment 2 .rounds (.finite 5), .aggregate 0, .increment 2 .rounds (.finite 2)]
  have hfit : empty.FitAll calls := by decide
  have hacyclic : (empty.after calls).Acyclic := acyclic_of_lt (by decide)
  obtain ⟨⟨v, hv, -⟩, hget, -⟩ := aggregate_exact calls _ hfit rfl hacyclic .rounds
  have hroot := hget v hv 0 (by decide)
  refine ⟨calls, _, v, hfit, rfl, hacyclic, hv, hroot, hroot.symm.trans ?_⟩
  decide

end RequirementTree

end SecureTape
