import Mathlib
import SecureTape.Proofs.CertifiedTrees
import SecureTape.Proofs.RecursionUnbounded

/-!
# Queries do not influence each other

An answer is kept, and the answers for other nodes count what is kept. A recursion may be entered at
any of its nodes, and the nodes on the way down count nothing then, so it might matter which node is
asked for first. Main statements:
1. `NoIdleCycles`: no group that is repeated zero times leads back to its node.
2. `exists_meant`: what is meant by the answers satisfies one equation for each node.
3. `scheme_definite`: without idle cycles every answer without open hits is what is meant.
4. `aggregate_after_queries`: an answer is the same whatever was asked for before.
5. `query_changes_answer`: with an idle cycle it need not be.
-/

namespace SecureTape

open List

variable {calls : List TreeCall}

namespace RequirementTree

variable {t t' : RequirementTree} {a b id m : NodeId} {g : Nat} {c : Combinator} {key : Resource}
  {v : NodeId → ℕ∞}

/-! ## Idle groups -/

/-- No group that is repeated zero times leads back to its node. -/
def NoIdleCycles (t : RequirementTree) : Prop :=
  ∀ {a g b}, t.HasMember a g (.times .zero) b → ¬ t.Reaches b a

theorem exists_hasMember (h : t.Child a b) : ∃ g c, t.HasMember a g c b := by
  obtain ⟨group, hgroup, hb⟩ := child_iff.1 h
  obtain ⟨g, hg⟩ := mem_iff_getElem?.1 hgroup
  exact ⟨g, _, group, hg, rfl, hb⟩

theorem HasMember.child (h : t.HasMember a g c b) : t.Child a b := by
  obtain ⟨group, hg, -, hb⟩ := h
  exact child_iff.2 ⟨group, mem_of_getElem? hg, hb⟩

theorem NoIdleCycles.of_grows (hgrows : t.Grows t') (h : t'.NoIdleCycles) : t.NoIdleCycles := by
  rintro a g b ⟨group, hgroup, hzero, hb⟩ hreach
  obtain ⟨group', hgroup', hc, hsub⟩ := hgrows a group (mem_of_getElem? hgroup)
  obtain ⟨g', hg'⟩ := mem_iff_getElem?.1 hgroup'
  refine h ⟨group', hg', hc.trans hzero, hsub hb⟩ ?_
  have hmono : t.Reaches ≤ t'.Reaches := Relation.ReflTransGen.mono fun _ _ => hgrows.child
  exact hmono b a hreach

theorem noIdleCycles_of_leaves (h : ∀ a < t.size, ∀ g ∈ (t.node a).groups,
    g.combinator = .times .zero → ∀ b ∈ g.members, t.children b = [] ∧ b ≠ a) : t.NoIdleCycles := by
  rintro a g b ⟨group, hgroup, hzero, hb⟩ hreach
  have ha : a < t.size := lt_size_of_child (child_iff.2 ⟨group, mem_of_getElem? hgroup, hb⟩)
  obtain ⟨hnone, hne⟩ := h a ha group (mem_of_getElem? hgroup) hzero b hb
  rcases Relation.ReflTransGen.cases_head hreach with rfl | ⟨x, hedge, -⟩
  · exact hne rfl
  · rw [Child, hnone] at hedge
    exact absurd hedge not_mem_nil

/-! ## Demands along edges -/

theorem demands_of_own (h : (t.node id).own.get key ≠ .zero) : t.Demands key id := by
  refine ⟨1, fun hzero => h (Count.value_injective ?_)⟩
  rw [approx_succ not_mem_nil] at hzero
  exact (add_eq_zero.1 hzero).1

theorem Demands.of_member (h : t.Demands key m) (hm : t.HasMember id g c m) (hc : c ≠ .times .zero) :
    t.Demands key id := by
  obtain ⟨depth, hdepth⟩ := h
  refine ⟨depth + 1, fun hzero => ?_⟩
  rw [approx_succ not_mem_nil] at hzero
  exact groupsValue_ne_zero_iff.2 ⟨g, c, m, hm, hc, hdepth⟩ (add_eq_zero.1 hzero).2

theorem Demands.around (hidle : t.NoIdleCycles) (hab : t.Reaches a b) (hba : t.Reaches b a)
    (h : t.Demands key b) : t.Demands key a := by
  induction hab using Relation.ReflTransGen.head_induction_on with
  | refl => exact h
  | @head a x hedge hxb ih =>
    obtain ⟨g, c, hmember⟩ := exists_hasMember hedge
    refine (ih (hba.tail hedge)).of_member hmember ?_
    rintro rfl
    exact hidle hmember (hxb.trans hba)

theorem demands_congr (h : ∀ m, t.Reaches id m →
    (t'.node m).own = (t.node m).own ∧ (t'.node m).groups = (t.node m).groups) :
    t'.Demands key id ↔ t.Demands key id := by
  unfold Demands
  simp only [approx_congr h]

theorem below_congr (h : ∀ m, t.Reaches id m → (t'.node m).groups = (t.node m).groups) :
    t'.Below id b ↔ t.Below id b := by
  have hchild (y : NodeId) : t'.Child id y ↔ t.Child id y := by
    rw [Child, Child, children, children, h id .refl]
  rw [below_iff, below_iff]
  refine exists_congr fun y => ?_
  rw [hchild]
  refine and_congr_right fun hy => reaches_iff_of_agree fun m hm => h m (.head hy hm)

/-! ## What is meant -/

open Classical in
/-- What is meant by the answer for a node if `v` is meant by those for its children: on a cycle
everything that is demanded is needed without bound. -/
noncomputable def meaning (t : RequirementTree) (key : Resource) (v : NodeId → ℕ∞) (id : NodeId) : ℕ∞ :=
  if t.Below id id then if t.Demands key id then ⊤ else 0
  else ((t.node id).own.get key).value + t.groupsValue v id

/-- On all that `id` reaches, `v` is what is meant. -/
def Meant (t : RequirementTree) (key : Resource) (v : NodeId → ℕ∞) (id : NodeId) : Prop :=
  ∀ m, t.Reaches id m → v m = t.meaning key v m

theorem meaning_of_cycle (h : t.Below id id) (hdemands : t.Demands key id) :
    t.meaning key v id = ⊤ := by
  rw [meaning, if_pos h, if_pos hdemands]

theorem meaning_of_not_demands (h : t.Below id id) (hdemands : ¬ t.Demands key id) :
    t.meaning key v id = 0 := by
  rw [meaning, if_pos h, if_neg hdemands]

theorem meaning_of_not_cycle (h : ¬ t.Below id id) :
    t.meaning key v id = ((t.node id).own.get key).value + t.groupsValue v id :=
  if_neg h

theorem meaning_congr (h : ∀ m, t.Reaches id m →
    (t'.node m).own = (t.node m).own ∧ (t'.node m).groups = (t.node m).groups) :
    t'.meaning key v id = t.meaning key v id := by
  have hbelow : t'.Below id id ↔ t.Below id id := below_congr fun m hm => (h m hm).2
  have hdemands : t'.Demands key id ↔ t.Demands key id := demands_congr h
  by_cases hid : t.Below id id
  · by_cases hkey : t.Demands key id
    · rw [meaning_of_cycle hid hkey, meaning_of_cycle (hbelow.2 hid) (hdemands.2 hkey)]
    · rw [meaning_of_not_demands hid hkey,
        meaning_of_not_demands (hbelow.2 hid) fun hkey' => hkey (hdemands.1 hkey')]
  · rw [meaning_of_not_cycle hid, meaning_of_not_cycle fun hid' => hid (hbelow.1 hid'),
      (h id .refl).1, groupsValue, groupsValue, (h id .refl).2]

theorem Meant.child (h : t.Meant key v id) (hedge : t.Child id b) : t.Meant key v b :=
  fun m hm => h m (.head hedge hm)

open Classical in
/-- The number of steps from a node to a cycle or to the end. -/
noncomputable def rank (t : RequirementTree) (id : NodeId) : Nat :=
  if t.Below id id then 0 else t.height id + 1

theorem rank_lt_of_child (ht : t.WellFormed) (hid : ¬ t.Below id id) (hedge : t.Child id b) :
    t.rank b < t.rank id := by
  classical
  rw [rank, rank, if_neg hid]
  split
  · exact Nat.succ_pos _
  · rename_i hb
    refine Nat.succ_lt_succ (Finset.card_lt_card (Finset.ssubset_iff.2 ⟨b, ?_, ?_⟩))
    · simpa using fun _ => hb
    · intro x hx
      rcases Finset.mem_insert.1 hx with rfl | hx
      · exact Finset.mem_filter.2 ⟨Finset.mem_range.2 (ht.child_lt hedge), .single hedge⟩
      · obtain ⟨hlt, hbelow⟩ := Finset.mem_filter.1 hx
        exact Finset.mem_filter.2 ⟨hlt, .head hedge hbelow⟩

/-- The equations, unrolled a number of times. -/
noncomputable def meaningTo (t : RequirementTree) (key : Resource) : Nat → NodeId → ℕ∞
  | 0 => fun _ => 0
  | n + 1 => t.meaning key (t.meaningTo key n)

theorem meaningTo_stable (ht : t.WellFormed) {n : Nat} (hn : t.rank id < n) :
    t.meaningTo key (n + 1) id = t.meaningTo key n id := by
  induction n generalizing id with
  | zero => omega
  | succ n ih =>
    show t.meaning key (t.meaningTo key (n + 1)) id = t.meaning key (t.meaningTo key n) id
    by_cases hid : t.Below id id
    · simp only [meaning, if_pos hid]
    · rw [meaning_of_not_cycle hid, meaning_of_not_cycle hid]
      refine congrArg _ (groupsValue_congr fun b hb => ih ?_)
      have hlt := rank_lt_of_child ht hid hb
      omega

theorem exists_meant (ht : t.WellFormed) (key : Resource) : ∃ v, ∀ id, t.Meant key v id := by
  refine ⟨t.meaningTo key (t.size + 2), fun _ m _ => ?_⟩
  have hrank : t.rank m < t.size + 2 := by
    have hheight := t.height_le_size m
    unfold rank
    split <;> omega
  exact (meaningTo_stable ht hrank).symm

theorem Meant.demands (ht : t.WellFormed) (h : t.Meant key v id) (hne : v id ≠ 0) :
    t.Demands key id := by
  induction hrank : t.rank id using Nat.strong_induction_on generalizing id with
  | _ n ih =>
    subst hrank
    rw [h id .refl] at hne
    by_cases hid : t.Below id id
    · by_contra hdemands
      exact hne (meaning_of_not_demands hid hdemands)
    · rw [meaning_of_not_cycle hid] at hne
      by_cases hown : (t.node id).own.get key = .zero
      · rw [hown] at hne
        have hgroups : t.groupsValue v id ≠ 0 := fun hzero => hne (by rw [hzero]; rfl)
        obtain ⟨g, c, m, hm, hc, hv⟩ := groupsValue_ne_zero_iff.1 hgroups
        exact (ih _ (rank_lt_of_child ht hid hm.child) (h.child hm.child) hv rfl).of_member hm hc
      · exact demands_of_own hown

/-- Without idle cycles what is meant is what the node has itself and what its groups need, also on
a cycle. -/
theorem Meant.eq_own_add (ht : t.WellFormed) (hidle : t.NoIdleCycles) (h : t.Meant key v id) :
    v id = ((t.node id).own.get key).value + t.groupsValue v id := by
  rw [h id .refl]
  by_cases hid : t.Below id id
  · by_cases hdemands : t.Demands key id
    · -- the next node of the cycle is not bounded either
      obtain ⟨x, hedge, hback⟩ := below_iff.1 hid
      obtain ⟨g, c, hmember⟩ := exists_hasMember hedge
      have hc : c ≠ .times .zero := by
        rintro rfl
        exact hidle hmember hback
      have hx : v x = ⊤ := by
        rw [h x (.single hedge)]
        refine meaning_of_cycle (below_iff.2 ?_) (hdemands.around hidle hback (.single hedge))
        obtain ⟨y, hy, hyx⟩ := Relation.TransGen.head'_iff.1
          (Relation.TransGen.tail' hback hedge)
        exact ⟨y, hy, hyx⟩
      obtain ⟨group, hgroup, rfl, hmem⟩ := hmember
      have hvalue : v x ≤ t.groupsValue v id := by
        refine (Combinator.le_value hc (mem_map_of_mem hmem)).trans ?_
        exact le_sum_of_mem (mem_map_of_mem (f := fun g : RequirementGroup =>
          g.combinator.value (g.members.map v)) (mem_of_getElem? hgroup))
      rw [hx, top_le_iff] at hvalue
      rw [meaning_of_cycle hid hdemands, hvalue, add_top]
    · rw [meaning_of_not_demands hid hdemands]
      have hown : (t.node id).own.get key = .zero := by
        by_contra hne
        exact hdemands (demands_of_own hne)
      have hgroups : t.groupsValue v id = 0 := by
        by_contra hne
        obtain ⟨g, c, m, hm, hc, hv⟩ := groupsValue_ne_zero_iff.1 hne
        exact hdemands (((h.child hm.child).demands ht hv).of_member hm hc)
      rw [hown, hgroups]
      rfl
  · exact meaning_of_not_cycle hid

/-! ## Answers -/

/-- The tally is what is meant. -/
def Definite (t : RequirementTree) (id : NodeId) (k : Tally) : Prop :=
  ∀ key v, t.Meant key v id → k.get key = Count.saturate (v id)

theorem local_definite : Local Definite := by
  intro t t' id k hagree hk key v hv
  refine hk key v fun m hm => ?_
  rw [hv m (reaches_of_agree (fun x hx => (hagree x hx).2) hm)]
  exact meaning_congr fun x hx => hagree x (hm.trans hx)

theorem definite_of_hit {k : Tally} (hcycle : t.Below id id) (hcounts : t.Counts id k)
    (hunbounded : ∀ key, k.get key ≠ .zero → k.get key = .unbounded) : t.Definite id k := by
  intro key v hv
  rw [hv id .refl]
  by_cases hdemands : t.Demands key id
  · rw [meaning_of_cycle hcycle hdemands, Count.saturate_top]
    exact hunbounded key (hcounts.get_ne_zero_iff.2 hdemands)
  · rw [meaning_of_not_demands hcycle hdemands, Count.saturate_zero]
    by_contra hne
    exact hdemands (hcounts.get_ne_zero_iff.1 hne)

theorem definite_of_members (ht : t.WellFormed) (hidle : t.NoIdleCycles)
    {parts : List (Tally × List NodeId)}
    (h : Forall₂ (Gathered fun m r _ => t.Child id m ∧ r.Valid ∧ t.Definite m r)
      (t.node id).groups parts) :
    t.Definite id ((parts.map (·.1)).foldl Tally.sum (t.node id).own) := by
  intro key v hv
  have hvalues : Forall₂ (Gathered fun m r _ => r.Valid ∧ r.get key = Count.saturate (v m))
      (t.node id).groups parts :=
    h.imp fun _ _ => Gathered.imp fun m r hits hm => ⟨hm.2.1, hm.2.2 key v (hv.child hm.1)⟩
  rw [hv.eq_own_add ht hidle]
  refine get_total ht (fun m r hits hm => hm.1) (fun m r hits hm => hm.2) ?_ hvalues
  exact (Count.saturate_value (Tally.valid_get (ht.own_valid id) key)).symm

/-- What the answers for a node count: what is meant unless there are open hits, what is needed to
any depth except below the hits, and nothing that is never needed. -/
structure Sums (t : RequirementTree) (id : NodeId) (r : Tally) (hits : List NodeId) : Prop where
  definite : hits = [] → t.Definite id r
  atLeast : ∀ key depth, t.approx key hits depth id ≤ (r.get key).value
  grounded : t.Grounded id r

theorem scheme_definite (ht : t.WellFormed) (hidle : t.NoIdleCycles) :
    t.Scheme (fun id k => t.Definite id k ∧ t.Counts id k) fun _ => t.Sums where
  kept _ hk := ⟨fun _ => hk.1, hk.2.1, hk.2.2⟩
  hit hchain hid := by
    refine ⟨?_, (scheme_atLeast ht).hit hchain hid, fun _ _ => rfl⟩
    intro h
    cases h
  settle {active id parts} hchain hid hparts := by
    have hleast := (scheme_atLeast ht).settle hchain hid (hparts.imp fun _ _ =>
      Gathered.imp fun m r hits hm => ⟨hm.1, hm.2.1, hm.2.2.atLeast⟩)
    have hgrounded := (scheme_grounded ht).settle hchain hid (hparts.imp fun _ _ =>
      Gathered.imp fun m r hits hm => ⟨hm.1, hm.2.1, hm.2.2.grounded⟩)
    have htotal := valid_total ht (fun m r hits hm => hm.2.1.valid) hparts
    have hdefinite (hnone : (settle id (t.node id).own parts).2 = []) :
        t.Definite id (settle id (t.node id).own parts).1 := by
      by_cases hhit : id ∈ parts.flatMap (·.2)
      · obtain ⟨m, r, hits, hm, hmem⟩ := exists_of_mem_hits hparts hhit
        have hcycle : t.Below id id := below_iff.2 ⟨m, hm.1, hm.2.1.hit_reaches id hmem⟩
        refine definite_of_hit hcycle ⟨hleast.2 hnone, hgrounded.1⟩ fun key => ?_
        exact (settle_spec htotal key).2 hhit
      · have hclosed : ∀ b, b ∉ parts.flatMap (·.2) := by
          intro b hb
          have hopen : b ∈ (settle id (t.node id).own parts).2 := by
            refine mem_filter.2 ⟨hb, decide_eq_true ?_⟩
            rintro rfl
            exact hhit hb
          rw [hnone] at hopen
          exact absurd hopen not_mem_nil
        have hsum : (settle id (t.node id).own parts).1 =
            (parts.map (·.1)).foldl Tally.sum (t.node id).own := by
          rw [← foldl_parts]
          exact if_neg hhit
        rw [hsum]
        refine definite_of_members ht hidle ((gathered_hits hparts).imp fun _ _ =>
          Gathered.imp fun m r hits hm => ?_)
        have hnohits : hits = [] :=
          eq_nil_iff_forall_not_mem.2 fun b hb => hclosed b (hm.2 hb)
        exact ⟨hm.1.1, hm.1.2.1.valid, hm.1.2.2.definite hnohits⟩
    exact ⟨⟨hdefinite, hleast.1, hgrounded.1⟩,
      fun hnone => ⟨hdefinite hnone, hleast.2 hnone, hgrounded.1⟩⟩

/-! ## Queries -/

theorem Certified.run (ht : t.Certified) {call : TreeCall} (hfit : call.Fits t) :
    (call.run t).Certified := by
  cases call with
  | addNode name => exact (accrues_addNode ht name).certified
  | addScope parent name combinator =>
    exact (accrues_addNode_addGroup ht name hfit.1 hfit.2).certified
  | addGroup parent combinator members =>
    exact (accrues_addGroup ht hfit.1 hfit.2.1 hfit.2.2).certified
  | extendGroup parent group member =>
    exact (accrues_extendGroup ht hfit.1 hfit.2.1 hfit.2.2).certified
  | increment id r n => exact (accrues_increment ht hfit.1 r n).certified
  | addUsage id usage => exact (accrues_addUsage ht hfit.1 hfit.2).certified
  | aggregate id => exact (accrues_aggregate ht hfit).certified

theorem Certified.after (ht : t.Certified) (hfit : t.FitAll calls) : (t.after calls).Certified := by
  induction calls generalizing t with
  | nil => exact ht
  | cons call calls ih => exact ih (ht.run hfit.1) hfit.2

theorem fitAll_append {calls' : List TreeCall} (h : t.FitAll calls)
    (h' : (t.after calls).FitAll calls') : t.FitAll (calls ++ calls') := by
  induction calls generalizing t with
  | nil => exact h'
  | cons call calls ih => exact ⟨h.1, ih h.2 h'⟩

def asked (t : RequirementTree) (ids : List NodeId) : RequirementTree :=
  t.after (ids.map .aggregate)

theorem asked_spec (ht : t.Certified) {ids : List NodeId} (hids : ∀ id ∈ ids, id < t.size) :
    t.FitAll (ids.map .aggregate) ∧ Alike t (t.asked ids) := by
  induction ids generalizing t with
  | nil => exact ⟨trivial, .refl t⟩
  | cons id ids ih =>
    have hid := hids id (.head _)
    have halike := ht.faithful.alike_aggregate hid
    obtain ⟨hfit, hrest⟩ := ih (accrues_aggregate ht hid).certified fun m hm => by
      rw [halike.size_eq]
      exact hids m (.tail _ hm)
    exact ⟨⟨hid, hfit⟩, halike.trans hrest⟩

theorem Certified.positive_aggregate (ht : t.Certified) (hid : id < t.size) :
    (t.aggregate id).1.Positive ∧ (t.aggregate id).1.Valid := by
  refine ⟨(aggregate_spec ht.wellFormed (scheme_positive ht.own) ht.kept hid).2, ?_⟩
  exact ((ht.faithful.aggregate hid).kept id _ (ht.faithful.kept_aggregate_self hid)).2

/-- After every sequence of calls that made a tree in which no group that is repeated zero times
leads back to its node: the answer for a node is the same whether or not other nodes were asked for
before. -/
theorem aggregate_after_queries (calls : List TreeCall) (t : RequirementTree)
    (hfit : empty.FitAll calls) (hcalls : empty.after calls = t) (hidle : t.NoIdleCycles)
    (ids : List NodeId) (hids : ∀ m ∈ ids, m < t.size) (id : NodeId) (hid : id < t.size) :
    ((t.asked ids).aggregate id).1 = (t.aggregate id).1 := by
  have hcertified : t.Certified := hcalls ▸ Certified.empty.after hfit
  obtain ⟨hfit', halike⟩ := asked_spec hcertified hids
  have hasked : (t.asked ids).Certified := hcertified.after hfit'
  have hsize : (t.asked ids).size = t.size := halike.size_eq
  have hlocal : Local fun t id k => t.Definite id k ∧ t.Counts id k :=
    fun t t' id k h hk => ⟨local_definite t t' id k h hk.1, local_counts t t' id k h hk.2⟩
  have hsame : ∀ m, (t.asked ids).Reaches id m → (t.node m).own = ((t.asked ids).node m).own ∧
      (t.node m).groups = ((t.asked ids).node m).groups :=
    fun m _ => ⟨(halike.own_eq m).symm, (halike.groups_eq m).symm⟩
  have hfirst : t.Definite id (t.aggregate id).1 :=
    (aggregate_satisfies hlocal (fun t ht hC => ⟨_, scheme_definite ht hC⟩)
      (fun t t' => NoIdleCycles.of_grows) hfit hcalls hidle hid).1
  have hlater : t.Definite id ((t.asked ids).aggregate id).1 := by
    refine local_definite _ t id _ hsame (aggregate_satisfies hlocal
      (fun t ht hC => ⟨_, scheme_definite ht hC⟩) (fun t t' => NoIdleCycles.of_grows)
      (fitAll_append hfit (hcalls ▸ hfit')) ?_ ?_ (hsize ▸ hid)).1
    · rw [RequirementTree.after, foldl_append]
      exact congrArg (fun t => t.asked ids) hcalls
    · exact NoIdleCycles.of_grows (.of_groups_eq fun m => (halike.groups_eq m).symm) hidle
  obtain ⟨hpos, hvalid⟩ := hcertified.positive_aggregate hid
  obtain ⟨hpos', hvalid'⟩ := hasked.positive_aggregate (hsize ▸ hid)
  refine hpos'.ext hpos hvalid' hvalid fun key => ?_
  obtain ⟨v, hv⟩ := exists_meant hcertified.wellFormed key
  rw [hlater key v (hv id), hfirst key v (hv id)]

/-- Two nodes that need each other, one of them with a group that is never run: what is asked for
first does not matter. -/
theorem aggregate_after_queries_mutual :
    ∃ calls t, empty.FitAll calls ∧ empty.after calls = t ∧ t.NoIdleCycles ∧
      ((t.asked [1, 2]).aggregate 0).1 = (t.aggregate 0).1 ∧
      (t.aggregate 0).1.get .rounds = .unbounded := by
  let calls : List TreeCall := [.addNode "even", .addNode "odd", .addNode "leaf",
    .addGroup 0 .max [1, 2], .addGroup 1 (.times (.finite 3)) [0], .addGroup 1 (.times .zero) [2],
    .increment 2 .rounds (.finite 1)]
  have hfit : empty.FitAll calls := by decide
  have hidle : (empty.after calls).NoIdleCycles := noIdleCycles_of_leaves (by decide)
  refine ⟨calls, _, hfit, rfl, hidle, ?_, by decide⟩
  exact aggregate_after_queries calls _ hfit rfl hidle [1, 2] (by decide) 0 (by decide)

/-- A loop that is never run and calls the node around it: asked for first, the body of the loop
needs rounds without bound; asked for after that node, it needs one. -/
theorem query_changes_answer :
    ∃ calls t, empty.FitAll calls ∧ empty.after calls = t ∧
      (t.aggregate 1).1.get .rounds = .unbounded ∧
      ((t.asked [0]).aggregate 1).1.get .rounds = .finite 1 := by
  let calls : List TreeCall := [.addNode "outer", .addNode "body",
    .addGroup 0 (.times .zero) [1], .addGroup 1 .sum [0], .increment 1 .rounds (.finite 1)]
  exact ⟨calls, _, by decide, rfl, by decide, by decide⟩

end RequirementTree

end SecureTape
