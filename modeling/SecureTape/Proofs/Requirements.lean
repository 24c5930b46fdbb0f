import Mathlib
import SecureTape.Proofs.Accesses
import SecureTape.Proofs.Tallies

/-!
# Requirement trees as graphs

A requirement tree is a finite graph whose nodes keep aggregates. Main statements:
1. `mem_ancestors`: the search for what lies above a node finds all of it.
2. `KeptSatisfy.invalidate`: a change at a node leaves only aggregates of nodes that do not reach
   it.
3. `yields_aggregateFrom`: what holds of the aggregates kept, of hits and of settled nodes holds of
   every answer, whatever was asked before.
-/

namespace SecureTape

open List Combinator

variable {v : NodeId → ℕ∞} {fuel : Nat} {k : Tally} {active : List NodeId}
  {R : NodeId → Tally → List NodeId → Prop} {parts : List (Tally × List NodeId)} {key : Resource}

namespace RequirementTree

variable {t t' : RequirementTree} {a b p id : NodeId}

/-! ## Edges -/

def children (t : RequirementTree) (id : NodeId) : List NodeId :=
  (t.node id).groups.flatMap (·.members)

/-- `b` is a member of a group of `a`. -/
def Child (t : RequirementTree) (a b : NodeId) : Prop :=
  b ∈ t.children a

/-- `b` is `a` or lies below it. -/
def Reaches (t : RequirementTree) : NodeId → NodeId → Prop :=
  Relation.ReflTransGen t.Child

/-- `b` lies below `a`: there is a path with at least one edge. -/
def Below (t : RequirementTree) : NodeId → NodeId → Prop :=
  Relation.TransGen t.Child

theorem child_iff : t.Child a b ↔ ∃ g ∈ (t.node a).groups, b ∈ g.members := by
  simp [Child, children]

theorem node_of_size_le (h : t.size ≤ id) : t.node id = default := by
  simp [node, Array.getD_eq_getD_getElem?, Array.getElem?_eq_none h]

theorem lt_size_of_child (h : t.Child a b) : a < t.size := by
  by_contra hle
  rw [Child, children, node_of_size_le (not_lt.1 hle)] at h
  exact absurd h not_mem_nil

theorem size_modifyNode (f : RequirementNode → RequirementNode) :
    (t.modifyNode p f).size = t.size := by
  simp [modifyNode, size]

theorem node_modifyNode_of_ne (f : RequirementNode → RequirementNode) (h : id ≠ p) :
    (t.modifyNode p f).node id = t.node id := by
  simp [modifyNode, node, Array.getD_eq_getD_getElem?, Array.getElem?_modify, h.symm]

theorem node_modifyNode_self (f : RequirementNode → RequirementNode) (h : p < t.size) :
    (t.modifyNode p f).node p = f (t.node p) := by
  have h' : p < t.nodes.size := h
  simp [modifyNode, node, Array.getD_eq_getD_getElem?, Array.getElem_modify, h']

/-- What the groups of a node need if each node needs what `v` says. -/
noncomputable def groupsValue (t : RequirementTree) (v : NodeId → ℕ∞) (id : NodeId) : ℕ∞ :=
  ((t.node id).groups.map fun g => g.combinator.value (g.members.map v)).sum

theorem groupsValue_congr {w : NodeId → ℕ∞} (h : ∀ b, t.Child id b → v b = w b) :
    t.groupsValue v id = t.groupsValue w id := by
  unfold groupsValue
  refine congrArg List.sum (map_congr_left fun g hg => ?_)
  refine congrArg _ (map_congr_left fun b hb => ?_)
  exact h b (child_iff.2 ⟨g, hg, hb⟩)

theorem le_groupsValue (hrepeat : ∀ g ∈ (t.node a).groups, g.combinator ≠ .times .zero)
    (h : t.Child a b) : v b ≤ t.groupsValue v a := by
  obtain ⟨g, hg, hb⟩ := child_iff.1 h
  refine (le_value (hrepeat g hg) (mem_map_of_mem hb)).trans ?_
  exact le_sum_of_mem (mem_map_of_mem (f := fun g : RequirementGroup =>
    g.combinator.value (g.members.map v)) hg)

/-- Every edge is recorded at both of its ends, all nodes named exist, and all counts are valid. -/
structure WellFormed (t : RequirementTree) : Prop where
  child_lt : ∀ {a b}, t.Child a b → b < t.size
  parent_lt : ∀ {a b}, b ∈ (t.node a).parents → b < t.size
  parent_mem : ∀ {a b}, t.Child a b → a ∈ (t.node b).parents
  own_valid : ∀ a, (t.node a).own.Valid
  combinator_valid : ∀ {a g}, g ∈ (t.node a).groups → g.combinator.Valid

/-- The trees differ at most in the aggregates they keep. -/
structure Alike (t t' : RequirementTree) : Prop where
  size_eq : t'.size = t.size
  own_eq : ∀ id, (t'.node id).own = (t.node id).own
  groups_eq : ∀ id, (t'.node id).groups = (t.node id).groups
  parents_eq : ∀ id, (t'.node id).parents = (t.node id).parents

namespace Alike

theorem refl (t : RequirementTree) : Alike t t :=
  ⟨rfl, fun _ => rfl, fun _ => rfl, fun _ => rfl⟩

theorem trans {t'' : RequirementTree} (h : Alike t t') (h' : Alike t' t'') : Alike t t'' where
  size_eq := h'.size_eq.trans h.size_eq
  own_eq id := (h'.own_eq id).trans (h.own_eq id)
  groups_eq id := (h'.groups_eq id).trans (h.groups_eq id)
  parents_eq id := (h'.parents_eq id).trans (h.parents_eq id)

theorem child_iff (h : Alike t t') : t'.Child a b ↔ t.Child a b := by
  rw [Child, Child, children, children, h.groups_eq]

theorem wellFormed (h : Alike t t') (ht : t.WellFormed) : t'.WellFormed where
  child_lt hc := by rw [h.size_eq]; exact ht.child_lt (h.child_iff.1 hc)
  parent_lt hb := by
    rw [h.parents_eq] at hb
    rw [h.size_eq]
    exact ht.parent_lt hb
  parent_mem hc := by rw [h.parents_eq]; exact ht.parent_mem (h.child_iff.1 hc)
  own_valid a := by rw [h.own_eq]; exact ht.own_valid a
  combinator_valid hg := by
    rw [h.groups_eq] at hg
    exact ht.combinator_valid hg

theorem modifyNode {f : RequirementNode → RequirementNode} (hown : ∀ n, (f n).own = n.own)
    (hgroups : ∀ n, (f n).groups = n.groups) (hparents : ∀ n, (f n).parents = n.parents) :
    Alike t (t.modifyNode p f) := by
  have hnode : ∀ id, (t.modifyNode p f).node id = t.node id ∨
      (t.modifyNode p f).node id = f (t.node id) := by
    intro id
    by_cases hid : id = p
    · subst hid
      by_cases hlt : id < t.size
      · exact .inr (node_modifyNode_self f hlt)
      · left
        rw [node_of_size_le (not_lt.1 hlt), node_of_size_le]
        rw [size_modifyNode]
        exact not_lt.1 hlt
    · exact .inl (node_modifyNode_of_ne f hid)
  refine ⟨size_modifyNode f, fun id => ?_, fun id => ?_, fun id => ?_⟩
  · rcases hnode id with h | h
    · rw [h]
    · rw [h, hown]
  · rcases hnode id with h | h
    · rw [h]
    · rw [h, hgroups]
  · rcases hnode id with h | h
    · rw [h]
    · rw [h, hparents]

end Alike

/-! ## What lies above a node -/

theorem subset_ancestorsFrom (fuel : Nat) (seen frontier : List NodeId) :
    seen ⊆ t.ancestorsFrom fuel seen frontier := by
  induction fuel generalizing seen frontier with
  | zero => exact List.Subset.refl _
  | succ fuel ih =>
    unfold ancestorsFrom
    dsimp only
    split
    · exact List.Subset.refl _
    · exact List.Subset.trans (subset_append_left _ _) (ih _ _)

/-- The search ends with a set that is closed under parents. Before, only the nodes of the frontier
may have parents that were not seen. -/
theorem parents_mem_ancestorsFrom (ht : t.WellFormed) {seen frontier : List NodeId}
    (hlt : ∀ x ∈ seen, x < t.size) (hfuel : t.size < seen.toFinset.card + fuel)
    (hclosed : ∀ x ∈ seen, x ∉ frontier → ∀ y ∈ (t.node x).parents, y ∈ seen) :
    ∀ x ∈ t.ancestorsFrom fuel seen frontier, ∀ y ∈ (t.node x).parents,
      y ∈ t.ancestorsFrom fuel seen frontier := by
  induction fuel generalizing seen frontier with
  | zero =>
    -- All nodes would have been seen, and one more.
    have hcard : seen.toFinset.card ≤ (Finset.range t.size).card := by
      refine Finset.card_le_card fun x hx => ?_
      exact Finset.mem_range.2 (hlt x (mem_toFinset.1 hx))
    rw [Finset.card_range] at hcard
    omega
  | succ fuel ih =>
    unfold ancestorsFrom
    dsimp only
    have hnext : ∀ y, y ∈ ((frontier.flatMap fun id => (t.node id).parents).filter
        (· ∉ seen)).eraseDups ↔ (∃ x ∈ frontier, y ∈ (t.node x).parents) ∧ y ∉ seen := by
      intro y
      simp
    generalize ((frontier.flatMap fun id => (t.node id).parents).filter
      (· ∉ seen)).eraseDups = next at hnext
    split
    · rename_i hempty
      intro x hx y hy
      by_contra hy'
      have hfrontier : x ∈ frontier := by
        by_contra hx'
        exact hy' (hclosed x hx hx' y hy)
      have := (hnext y).2 ⟨⟨x, hfrontier, hy⟩, hy'⟩
      rw [isEmpty_iff.1 hempty] at this
      exact absurd this not_mem_nil
    · rename_i hne
      refine ih ?_ ?_ ?_
      · intro x hx
        rcases mem_append.1 hx with hx | hx
        · exact hlt x hx
        · obtain ⟨⟨z, -, hz⟩, -⟩ := (hnext x).1 hx
          exact ht.parent_lt hz
      · -- At least one node is seen for the first time.
        obtain ⟨y, hy⟩ : ∃ y, y ∈ next := by
          rw [List.isEmpty_iff] at hne
          exact List.exists_mem_of_ne_nil next hne
        have hmore : seen.toFinset.card < (seen ++ next).toFinset.card := by
          refine Finset.card_lt_card (Finset.ssubset_iff.2 ⟨y, ?_, ?_⟩)
          · simpa using ((hnext y).1 hy).2
          · intro x hx
            rcases Finset.mem_insert.1 hx with rfl | hx
            · simp [hy]
            · simp [mem_toFinset.1 hx]
        omega
      · intro x hx hx' y hy
        rcases mem_append.1 hx with hx | hx
        · by_cases hseen : y ∈ seen
          · exact mem_append_left _ hseen
          · by_cases hfrontier : x ∈ frontier
            · exact mem_append_right _ ((hnext y).2 ⟨⟨x, hfrontier, hy⟩, hseen⟩)
            · exact absurd (hclosed x hx hfrontier y hy) hseen
        · exact absurd hx hx'

theorem mem_ancestors (ht : t.WellFormed) (hp : p < t.size) (h : t.Reaches a p) :
    a ∈ t.ancestors p := by
  have hclosed : ∀ x ∈ t.ancestors p, ∀ y ∈ (t.node x).parents, y ∈ t.ancestors p :=
    parents_mem_ancestorsFrom ht (by simpa using hp) (by simp) (by simp)
  induction h using Relation.ReflTransGen.head_induction_on with
  | refl => exact subset_ancestorsFrom _ _ _ (.head _)
  | head hedge _ ih => exact hclosed _ ih _ (ht.parent_mem hedge)

/-! ## Dropping aggregates -/

theorem alike_dropAll (ids : List NodeId) (t : RequirementTree) :
    Alike t (ids.foldl (fun t a => t.modifyNode a ({ · with kept := none })) t) := by
  induction ids generalizing t with
  | nil => exact .refl t
  | cons a ids ih =>
    refine Alike.trans ?_ (ih _)
    exact .modifyNode (fun _ => rfl) (fun _ => rfl) fun _ => rfl

theorem alike_invalidate (t : RequirementTree) (p : NodeId) : Alike t (t.invalidate p) :=
  alike_dropAll _ t

theorem kept_dropAll {ids : List NodeId}
    (h : ((ids.foldl (fun t a => t.modifyNode a ({ · with kept := none })) t).node id).kept = some k) :
    id ∉ ids ∧ (t.node id).kept = some k := by
  induction ids generalizing t with
  | nil => exact ⟨not_mem_nil, h⟩
  | cons a ids ih =>
    obtain ⟨hnot, hkept⟩ := ih h
    by_cases hid : id = a
    · subst hid
      exfalso
      by_cases hlt : id < t.size
      · rw [node_modifyNode_self _ hlt] at hkept
        cases hkept
      · rw [node_of_size_le] at hkept
        · cases hkept
        · rw [size_modifyNode]
          exact not_lt.1 hlt
    · rw [node_modifyNode_of_ne _ hid] at hkept
      exact ⟨by simp [hid, hnot], hkept⟩

theorem kept_invalidate (ht : t.WellFormed) (hp : p < t.size)
    (h : ((t.invalidate p).node id).kept = some k) :
    ¬ t.Reaches id p ∧ (t.node id).kept = some k := by
  obtain ⟨hnot, hkept⟩ := kept_dropAll h
  exact ⟨fun hreach => hnot (mem_ancestors ht hp hreach), hkept⟩

theorem reaches_of_agree (hagree : ∀ m, t.Reaches a m → (t'.node m).groups = (t.node m).groups)
    (h : t.Reaches a b) : t'.Reaches a b := by
  induction h with
  | refl => exact .refl
  | @tail c d hc hedge ih =>
    refine ih.tail ?_
    rw [Child, children, hagree c hc]
    exact hedge

theorem reaches_iff_of_agree (hagree : ∀ m, t.Reaches a m → (t'.node m).groups = (t.node m).groups) :
    t'.Reaches a b ↔ t.Reaches a b := by
  refine ⟨fun h => ?_, reaches_of_agree hagree⟩
  induction h with
  | refl => exact .refl
  | @tail c d _ hedge ih =>
    refine ih.tail ?_
    rw [Child, children, ← hagree c ih]
    exact hedge

/-- The property of an aggregate of a node depends only on the nodes that it reaches. -/
def Local (P : RequirementTree → NodeId → Tally → Prop) : Prop :=
  ∀ t t' id k, (∀ m, t.Reaches id m →
    (t'.node m).own = (t.node m).own ∧ (t'.node m).groups = (t.node m).groups) → P t id k → P t' id k

/-- All aggregates that are kept are valid and have the property. -/
def KeptSatisfy (P : RequirementTree → NodeId → Tally → Prop) (t : RequirementTree) : Prop :=
  ∀ id k, (t.node id).kept = some k → P t id k ∧ k.Valid

variable {P : RequirementTree → NodeId → Tally → Prop}

theorem KeptSatisfy.invalidate (hlocal : Local P) (hkept : KeptSatisfy P t) (ht' : t'.WellFormed)
    (hp : p < t'.size) (hsame : ∀ id, (t'.node id).kept = (t.node id).kept)
    (hother : ∀ id, id ≠ p → (t'.node id).own = (t.node id).own ∧
      (t'.node id).groups = (t.node id).groups) : KeptSatisfy P (t'.invalidate p) := by
  intro id k hk
  obtain ⟨hnot, hk⟩ := kept_invalidate ht' hp hk
  have halike := alike_invalidate t' p
  obtain ⟨hP, hvalid⟩ := hkept id k (by rw [← hsame]; exact hk)
  refine ⟨hlocal t _ id k (fun m hm => ?_) hP, hvalid⟩
  have hreach : t'.Reaches id m := by
    -- A path in the old tree that met the change would be one in the new tree up to there.
    induction hm with
    | refl => exact .refl
    | @tail b c hb hedge ih =>
      have hne : b ≠ p := by
        rintro rfl
        exact hnot ih
      refine ih.tail ?_
      rw [Child, children, (hother b hne).2]
      exact hedge
  have hne : m ≠ p := by
    rintro rfl
    exact hnot hreach
  rw [halike.own_eq, halike.groups_eq]
  exact hother m hne

/-! ## Aggregates -/

/-- The nodes `active`, on the way down to `id`, are different and lie above `id`. -/
structure Chain (t : RequirementTree) (active : List NodeId) (id : NodeId) : Prop where
  nodup : active.Nodup
  lt : ∀ a ∈ active, a < t.size
  below : ∀ a ∈ active, t.Below a id
  id_lt : id < t.size

theorem Chain.length_le (h : t.Chain active id) : active.length ≤ t.size := by
  have hsub : active ⊆ List.range t.size := fun x hx => mem_range.2 (h.lt x hx)
  simpa using (subperm_of_subset h.nodup hsub).length_le

theorem Chain.step (ht : t.WellFormed) (h : t.Chain active id) (hid : id ∉ active)
    (hedge : t.Child id b) : t.Chain (id :: active) b where
  nodup := nodup_cons.2 ⟨hid, h.nodup⟩
  lt := by
    intro a ha
    rcases mem_cons.1 ha with rfl | ha
    · exact h.id_lt
    · exact h.lt a ha
  below := by
    intro a ha
    rcases mem_cons.1 ha with rfl | ha
    · exact .single hedge
    · exact (h.below a ha).tail hedge
  id_lt := ht.child_lt hedge

/-- What an answer always satisfies: its counts are valid, and its hits are nodes on the way down
that lie below. -/
structure Answer (t : RequirementTree) (active : List NodeId) (id : NodeId) (r : Tally)
    (hits : List NodeId) : Prop where
  valid : r.Valid
  hit_mem : ∀ b ∈ hits, b ∈ active
  hit_reaches : ∀ b ∈ hits, t.Reaches id b

/-- What the members of a group answered, and the part of the group. -/
def Gathered (R : NodeId → Tally → List NodeId → Prop) (g : RequirementGroup)
    (part : Tally × List NodeId) : Prop :=
  ∃ answers : List (Tally × List NodeId), List.Forall₂ (fun m a => R m a.1 a.2) g.members answers ∧
    part = (g.combinator.combine (answers.map (·.1)), answers.flatMap (·.2))

/-- A property `K` of aggregates that are kept and a property `Q` of answers that agree with how
answers come about. -/
structure Scheme (t : RequirementTree) (K : NodeId → Tally → Prop)
    (Q : List NodeId → NodeId → Tally → List NodeId → Prop) : Prop where
  kept : ∀ {active id k}, t.Chain active id → K id k → Q active id k []
  hit : ∀ {active id}, t.Chain active id → id ∈ active → Q active id .empty [id]
  settle : ∀ {active id parts}, t.Chain active id → id ∉ active →
    List.Forall₂ (Gathered fun m r hits =>
        t.Child id m ∧ t.Answer (id :: active) m r hits ∧ Q (id :: active) m r hits)
      (t.node id).groups parts →
    Q active id (RequirementTree.settle id (t.node id).own parts).1
      (RequirementTree.settle id (t.node id).own parts).2 ∧
    ((RequirementTree.settle id (t.node id).own parts).2 = [] →
      K id (RequirementTree.settle id (t.node id).own parts).1)

section Rule

variable {t₀ : RequirementTree} {K : NodeId → Tally → Prop}
  {Q : List NodeId → NodeId → Tally → List NodeId → Prop}

/-- The tree is `t₀` up to aggregates, and those have the property. -/
structure Keeps (t₀ : RequirementTree) (K : NodeId → Tally → Prop) (t : RequirementTree) :
    Prop where
  alike : Alike t₀ t
  kept : ∀ id k, (t.node id).kept = some k → K id k ∧ k.Valid

/-- From every tree that keeps what it should, the action leads to one, with an answer in `R`. -/
def Yields {α : Type} (t₀ : RequirementTree) (K : NodeId → Tally → Prop)
    (act : StateM RequirementTree α) (R : α → Prop) : Prop :=
  ∀ t, t₀.Keeps K t → t₀.Keeps K (act.run t).2 ∧ R (act.run t).1

theorem Yields.bind {α β : Type} {act : StateM RequirementTree α} {R : α → Prop}
    {next : α → StateM RequirementTree β} {R' : β → Prop} (h : t₀.Yields K act R)
    (hnext : ∀ x, R x → t₀.Yields K (next x) R') : t₀.Yields K (act >>= next) R' := by
  intro t ht
  obtain ⟨ht', hx⟩ := h t ht
  exact hnext _ hx _ ht'

theorem Yields.pure {α : Type} {x : α} {R : α → Prop} (hx : R x) :
    t₀.Yields K (Pure.pure x) R :=
  fun _ ht => ⟨ht, hx⟩

theorem Yields.mapM {α β : Type} {f : α → StateM RequirementTree β} {R : α → β → Prop} {xs : List α}
    (h : ∀ x ∈ xs, t₀.Yields K (f x) (R x)) : t₀.Yields K (xs.mapM f) (Forall₂ R xs) := by
  induction xs with
  | nil => exact .pure .nil
  | cons x xs ih =>
    rw [mapM_cons]
    refine (h x (.head _)).bind fun y hy => ?_
    refine (ih fun z hz => h z (.tail _ hz)).bind fun ys hys => ?_
    exact .pure (.cons hy hys)

theorem Yields.get : t₀.Yields K get (t₀.Keeps K) :=
  fun _ ht => ⟨ht, ht⟩

theorem Yields.keep {r : Tally} (hK : K id r) (hr : r.Valid) :
    t₀.Yields K (modify fun t => t.modifyNode id ({ · with kept := some r })) fun _ => True := by
  intro t ht
  refine ⟨⟨ht.alike.trans (.modifyNode (fun _ => rfl) (fun _ => rfl) fun _ => rfl), ?_⟩, trivial⟩
  intro b k hb
  replace hb : ((t.modifyNode id ({ · with kept := some r })).node b).kept = some k := hb
  by_cases hid : b = id
  · subst hid
    by_cases hlt : b < t.size
    · rw [node_modifyNode_self _ hlt] at hb
      cases hb
      exact ⟨hK, hr⟩
    · rw [node_of_size_le] at hb
      · cases hb
      · rw [size_modifyNode]
        exact not_lt.1 hlt
  · rw [node_modifyNode_of_ne _ hid] at hb
    exact ht.kept b k hb

variable {groups : List RequirementGroup}

theorem exists_of_mem_hits (h : Forall₂ (Gathered R) groups parts)
    (hb : b ∈ parts.flatMap (·.2)) : ∃ m r hits, R m r hits ∧ b ∈ hits := by
  obtain ⟨part, hpart, hb⟩ := mem_flatMap.1 hb
  obtain ⟨g, -, answers, hanswers, rfl⟩ := exists_left_of_forall₂ h hpart
  obtain ⟨a, ha, hb⟩ := mem_flatMap.1 hb
  obtain ⟨m, -, hm⟩ := exists_left_of_forall₂ hanswers ha
  exact ⟨m, a.1, a.2, hm, hb⟩

theorem gathered_hits (h : Forall₂ (Gathered R) groups parts) :
    Forall₂ (Gathered fun m r hits => R m r hits ∧ hits ⊆ parts.flatMap (·.2)) groups parts := by
  have hmem := (forall₂_and_left parts groups).2 ⟨fun part hpart => hpart, h.flip⟩
  refine hmem.flip.imp ?_
  rintro g part ⟨hpart, answers, hanswers, rfl⟩
  have hsub : ∀ a ∈ answers, a.2 ⊆ parts.flatMap (·.2) := by
    intro a ha b hb
    exact mem_flatMap.2 ⟨_, hpart, mem_flatMap.2 ⟨a, ha, hb⟩⟩
  have hboth := (forall₂_and_left answers g.members).2 ⟨hsub, hanswers.flip⟩
  exact ⟨answers, hboth.flip.imp fun m a hm => ⟨hm.2, hm.1⟩, rfl⟩

theorem valid_of_answers {members : List NodeId} {answers : List (Tally × List NodeId)}
    (hR : ∀ m r hits, R m r hits → r.Valid)
    (h : Forall₂ (fun m a => R m a.1 a.2) members answers) : ∀ u ∈ answers.map (·.1), u.Valid := by
  intro u hu
  obtain ⟨a, ha, rfl⟩ := mem_map.1 hu
  obtain ⟨m, -, hm⟩ := exists_left_of_forall₂ h ha
  exact hR _ _ _ hm

theorem valid_of_gathered (hR : ∀ m r hits, R m r hits → r.Valid)
    (h : Forall₂ (Gathered R) groups parts) : ∀ u ∈ parts.map (·.1), u.Valid := by
  intro u hu
  obtain ⟨part, hpart, rfl⟩ := mem_map.1 hu
  obtain ⟨g, -, answers, hanswers, rfl⟩ := exists_left_of_forall₂ h hpart
  exact valid_combine _ (valid_of_answers hR hanswers)

theorem forall₂_parts {S : ℕ∞ → Tally → Prop}
    {f : RequirementGroup → ℕ∞} (h : Forall₂ (Gathered R) groups parts)
    (hpart : ∀ g ∈ groups, ∀ answers : List (Tally × List NodeId),
      Forall₂ (fun m a => R m a.1 a.2) g.members answers →
      S (f g) (g.combinator.combine (answers.map (·.1)))) :
    Forall₂ S (groups.map f) (parts.map (·.1)) := by
  induction h with
  | nil => exact .nil
  | cons hg _ ih =>
    obtain ⟨answers, hanswers, rfl⟩ := hg
    refine .cons (hpart _ (.head _) answers hanswers) (ih fun g' hg' => ?_)
    exact hpart g' (.tail _ hg')

theorem foldl_parts (own : Tally) (parts : List (Tally × List NodeId)) :
    parts.foldl (fun acc part => acc.sum part.1) own = (parts.map (·.1)).foldl Tally.sum own :=
  (foldl_map ..).symm

theorem get_total (ht : t₀.WellFormed) {w : ℕ∞} (hvalid : ∀ m r hits, R m r hits → r.Valid)
    (hR : ∀ m r hits, R m r hits → r.get key = Count.saturate (v m))
    (hown : (t₀.node id).own.get key = Count.saturate w)
    (h : Forall₂ (Gathered R) (t₀.node id).groups parts) :
    ((parts.map (·.1)).foldl Tally.sum (t₀.node id).own).get key =
      Count.saturate (w + t₀.groupsValue v id) := by
  refine get_foldl_sum (valid_of_gathered hvalid h) ?_ (ht.own_valid id) hown
  refine (forall₂_parts h fun g hg answers hanswers => ?_).flip
  refine get_combine (ht.combinator_valid hg) (valid_of_answers hvalid hanswers) ?_
  rw [forall₂_map_left_iff, forall₂_map_right_iff]
  exact (hanswers.imp fun m a hm => hR m _ _ hm).flip

theorem le_value_total (ht : t₀.WellFormed) (hvalid : ∀ m r hits, R m r hits → r.Valid)
    (hR : ∀ m r hits, R m r hits → v m ≤ (r.get key).value)
    (h : Forall₂ (Gathered R) (t₀.node id).groups parts) :
    ((t₀.node id).own.get key).value + t₀.groupsValue v id ≤
      (((parts.map (·.1)).foldl Tally.sum (t₀.node id).own).get key).value := by
  refine le_value_foldl_sum (valid_of_gathered hvalid h) ?_ (ht.own_valid id)
  refine forall₂_parts h fun g hg answers hanswers => ?_
  refine le_value_combine (ht.combinator_valid hg) (valid_of_answers hvalid hanswers) ?_
  rw [forall₂_map_left_iff, forall₂_map_right_iff]
  exact hanswers.imp fun m a hm => hR m _ _ hm

theorem valid_total (ht : t₀.WellFormed) (hvalid : ∀ m r hits, R m r hits → r.Valid)
    (h : Forall₂ (Gathered R) (t₀.node id).groups parts) :
    ((parts.map (·.1)).foldl Tally.sum (t₀.node id).own).Valid :=
  valid_foldl (fun _ _ => Tally.valid_sum) (valid_of_gathered hvalid h) (ht.own_valid id)

theorem settle_spec {own : Tally} (htotal : ((parts.map (·.1)).foldl Tally.sum own).Valid)
    (key : Resource) :
    (((parts.map (·.1)).foldl Tally.sum own).get key).value ≤
      ((settle id own parts).1.get key).value ∧
    (id ∈ parts.flatMap (·.2) → (settle id own parts).1.get key ≠ .zero →
      (settle id own parts).1.get key = .unbounded) := by
  unfold settle
  rw [foldl_parts]
  dsimp only
  split
  · rw [(Tally.unbound_spec htotal).2]
    split
    · rename_i hzero
      rw [Count.isZero_eq_true_iff.1 hzero]
      exact ⟨le_rfl, fun _ hne => absurd rfl hne⟩
    · exact ⟨le_top, fun _ _ => rfl⟩
  · exact ⟨le_rfl, fun hmem => absurd hmem (by assumption)⟩

theorem answer_settle (ht : t₀.WellFormed)
    (hR : ∀ m r hits, R m r hits → t₀.Child id m ∧ t₀.Answer (id :: active) m r hits)
    (h : Forall₂ (Gathered R) (t₀.node id).groups parts) :
    t₀.Answer active id (settle id (t₀.node id).own parts).1
      (settle id (t₀.node id).own parts).2 := by
  have htotal := valid_total ht (fun m r hits hm => (hR m r hits hm).2.valid) h
  rw [← foldl_parts] at htotal
  have hhits : ∀ b ∈ (settle id (t₀.node id).own parts).2, b ∈ active ∧ t₀.Reaches id b := by
    intro b hb
    obtain ⟨hb, hne⟩ := mem_filter.1 hb
    obtain ⟨m, r, hits, hm, hb⟩ := exists_of_mem_hits h hb
    obtain ⟨hedge, hanswer⟩ := hR m r hits hm
    refine ⟨?_, .head hedge (hanswer.hit_reaches b hb)⟩
    exact (mem_cons.1 (hanswer.hit_mem b hb)).resolve_left (by simpa using hne)
  refine ⟨?_, fun b hb => (hhits b hb).1, fun b hb => (hhits b hb).2⟩
  unfold settle
  dsimp only
  split
  · exact (Tally.unbound_spec htotal).1
  · exact htotal

/-- What holds of the aggregates that are kept, of hits and of settled nodes holds of every
answer. -/
theorem yields_aggregateFrom (ht : t₀.WellFormed) (hs : t₀.Scheme K Q) (hchain : t₀.Chain active id)
    (hfuel : t₀.size < active.length + fuel) :
    t₀.Yields K (aggregateFrom fuel active id) fun a =>
      t₀.Answer active id a.1 a.2 ∧ Q active id a.1 a.2 ∧ (a.2 = [] → K id a.1) := by
  induction fuel generalizing active id with
  | zero =>
    -- The way down cannot be longer than the number of nodes.
    have := hchain.length_le
    omega
  | succ fuel ih =>
    unfold aggregateFrom
    refine Yields.get.bind fun t hk => ?_
    dsimp only
    split
    · rename_i k hkept
      obtain ⟨hK, hvalid⟩ := hk.kept id k hkept
      exact .pure ⟨⟨hvalid, by simp, by simp⟩, hs.kept hchain hK, fun _ => hK⟩
    · split
      · rename_i hmem
        refine .pure ⟨⟨Tally.valid_empty, ?_, ?_⟩, hs.hit hchain hmem, fun h => by cases h⟩
        · simpa using hmem
        · intro b hb
          rw [mem_singleton.1 hb]
          exact .refl
      · rename_i hmem
        rw [hk.alike.groups_eq, hk.alike.own_eq]
        have hparts : t₀.Yields K ((t₀.node id).groups.mapM fun group => do
            let answers ← group.members.mapM (aggregateFrom fuel (id :: active))
            return (group.combinator.combine (answers.map (·.1)), answers.flatMap (·.2)))
            (Forall₂ (Gathered fun m r hits => t₀.Child id m ∧
              t₀.Answer (id :: active) m r hits ∧ Q (id :: active) m r hits)
              (t₀.node id).groups) := by
          refine .mapM fun g hg => ?_
          have hmembers : t₀.Yields K (g.members.mapM (aggregateFrom fuel (id :: active)))
              (Forall₂ (fun m a => t₀.Child id m ∧
                t₀.Answer (id :: active) m a.1 a.2 ∧ Q (id :: active) m a.1 a.2) g.members) := by
            refine .mapM fun m hm => ?_
            have hedge : t₀.Child id m := child_iff.2 ⟨g, hg, hm⟩
            have hrec := ih (hchain.step ht hmem hedge) (by rw [length_cons]; omega)
            intro u hu
            obtain ⟨hu', hanswer, hq, -⟩ := hrec u hu
            exact ⟨hu', hedge, hanswer, hq⟩
          refine hmembers.bind fun answers hanswers => .pure ⟨answers, hanswers, rfl⟩
        refine hparts.bind fun parts hgathered => ?_
        have hanswer := answer_settle ht (fun m r hits hm => ⟨hm.1, hm.2.1⟩) hgathered
        obtain ⟨hq, hK⟩ := hs.settle hchain hmem hgathered
        rcases hsettle : settle id (t₀.node id).own parts with ⟨result, pending⟩
        rw [hsettle] at hanswer hq hK
        dsimp only
        split
        · rename_i hempty
          refine Yields.bind (Yields.keep (hK (isEmpty_iff.1 hempty)) hanswer.valid) ?_
          exact fun _ _ => .pure ⟨hanswer, hq, hK⟩
        · exact .pure ⟨hanswer, hq, hK⟩

theorem aggregate_spec (ht : t.WellFormed) (hs : t.Scheme K Q)
    (hkept : ∀ id k, (t.node id).kept = some k → K id k ∧ k.Valid) (hid : id < t.size) :
    t.Keeps K (t.aggregate id).2 ∧ K id (t.aggregate id).1 := by
  have hchain : t.Chain [] id := ⟨.nil, by simp, by simp, hid⟩
  have hfuel : t.size < ([] : List NodeId).length + (t.size + 1) := by simp
  have hrun := yields_aggregateFrom ht hs hchain hfuel
  obtain ⟨hkeeps, hanswer, -, hK⟩ := hrun t ⟨.refl t, hkept⟩
  refine ⟨hkeeps, hK ?_⟩
  refine eq_nil_iff_forall_not_mem.2 fun b hb => ?_
  exact absurd (hanswer.hit_mem b hb) not_mem_nil

end Rule

end RequirementTree

end SecureTape
