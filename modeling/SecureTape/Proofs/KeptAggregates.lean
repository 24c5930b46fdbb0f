import Mathlib
import SecureTape.Proofs.TreeExtensions

/-!
# Aggregates that are kept

A change at a node of a requirement tree drops the aggregates of the nodes that reach it, and no
others. Main statements:
1. `ChangesAt`: what a change at a node leaves as it is; `changesAt_addGroup` and so on.
2. `Settled`: an aggregate that is kept counts what its children keep, or it has no bounds.
3. `Faithful`: what holds of every tree, also while aggregates are asked for; `Faithful.changesAt`,
   `Faithful.aggregate`.
4. `kept_aggregate_self`: the answer for a node is kept.
-/

namespace SecureTape

open List

variable {fuel : Nat} {active members : List NodeId} {c : Combinator}
  {parts : List (Tally × List NodeId)}

namespace RequirementTree

variable {t t' t'' : RequirementTree} {a b id m n parent : NodeId} {k : Tally} {key : Resource}

/-! ## What is dropped -/

/-- The tree is well formed, and every parent that a node records is one. -/
structure Tight (t : RequirementTree) : Prop where
  wellFormed : t.WellFormed
  child_of_parent : ∀ {a b}, a ∈ (t.node b).parents → t.Child a b

theorem tight_empty : empty.Tight := by
  refine ⟨wellFormed_empty, fun {a b} h => ?_⟩
  rw [node_of_size_le b.zero_le] at h
  exact absurd h not_mem_nil

theorem Alike.tight (h : Alike t t') (ht : t.Tight) : t'.Tight := by
  refine ⟨h.wellFormed ht.wellFormed, fun ha => h.child_iff.2 (ht.child_of_parent ?_)⟩
  rwa [h.parents_eq] at ha

theorem Alike.reaches_iff (h : Alike t t') : t'.Reaches a b ↔ t.Reaches a b :=
  reaches_iff_of_agree fun m _ => h.groups_eq m

theorem reaches_of_mem_ancestorsFrom (ht : t.Tight) {seen frontier : List NodeId}
    (hseen : ∀ x ∈ seen, t.Reaches x a) (hfrontier : frontier ⊆ seen) :
    ∀ x ∈ t.ancestorsFrom fuel seen frontier, t.Reaches x a := by
  induction fuel generalizing seen frontier with
  | zero => exact hseen
  | succ fuel ih =>
    unfold ancestorsFrom
    dsimp only
    split
    · exact hseen
    · refine ih ?_ (subset_append_right _ _)
      intro x hx
      rcases mem_append.1 hx with hx | hx
      · exact hseen x hx
      · simp only [mem_eraseDups, mem_filter, mem_flatMap] at hx
        obtain ⟨⟨y, hy, hxy⟩, -⟩ := hx
        exact .head (ht.child_of_parent hxy) (hseen y (hfrontier hy))

theorem kept_dropAll_of_not_mem {ids : List NodeId} (hid : id ∉ ids) :
    ((ids.foldl (fun t a => t.modifyNode a ({ · with kept := none })) t).node id).kept =
      (t.node id).kept := by
  induction ids generalizing t with
  | nil => rfl
  | cons x ids ih =>
    obtain ⟨hne, hmem⟩ := not_or.1 (mem_cons.not.1 hid)
    rw [foldl_cons, ih hmem, node_modifyNode_of_ne _ hne]

theorem kept_invalidate_of_not_reaches (ht : t.Tight) (h : ¬ t.Reaches id a) :
    ((t.invalidate a).node id).kept = (t.node id).kept := by
  refine kept_dropAll_of_not_mem fun hmem => h ?_
  exact reaches_of_mem_ancestorsFrom ht (by simp [Reaches, Relation.ReflTransGen.refl])
    (List.Subset.refl _) id hmem

/-! ## Changes at a node -/

/-- The trees differ in counts and groups of one node and in new nodes, and the aggregates of the
nodes that reach that node are dropped. -/
structure ChangesAt (a : NodeId) (t t' : RequirementTree) : Prop where
  tight : t'.Tight
  size_le : t.size ≤ t'.size
  own_eq : ∀ n, n ≠ a → (t'.node n).own = (t.node n).own
  groups_eq : ∀ n, n ≠ a → (t'.node n).groups = (t.node n).groups
  kept_eq : ∀ n, ¬ t'.Reaches n a → (t'.node n).kept = (t.node n).kept
  kept_none : ∀ n, t'.Reaches n a → (t'.node n).kept = none

namespace ChangesAt

theorem not_reaches (h : ChangesAt a t t') (hn : ¬ t'.Reaches n a) : ¬ t.Reaches n a := by
  intro hreach
  refine hn ?_
  induction hreach using Relation.ReflTransGen.head_induction_on with
  | refl => exact .refl
  | @head x y hedge _ ih =>
    by_cases hx : x = a
    · exact hx ▸ .refl
    · by_cases hy : t'.Reaches y a
      · refine .head ?_ hy
        rw [Child, children, h.groups_eq x hx]
        exact hedge
      · exact absurd (ih hy) hy

theorem keptSatisfy {P : RequirementTree → NodeId → Tally → Prop} (h : ChangesAt a t t')
    (hlocal : Local P) (hkept : KeptSatisfy P t) : KeptSatisfy P t' := by
  intro n k hk
  have hn : ¬ t'.Reaches n a := fun hreach => by
    rw [h.kept_none n hreach] at hk
    cases hk
  obtain ⟨hP, hvalid⟩ := hkept n k ((h.kept_eq n hn).symm.trans hk)
  refine ⟨hlocal t t' n k (fun x hx => ?_) hP, hvalid⟩
  have hne : x ≠ a := by
    rintro rfl
    exact h.not_reaches hn hx
  exact ⟨h.own_eq x hne, h.groups_eq x hne⟩

end ChangesAt

theorem Edited.changesAt (h : t.Edited t' a) (ht' : t'.Tight) (ha : a < t.size) :
    ChangesAt a t (t'.invalidate a) where
  tight := (alike_invalidate t' a).tight ht'
  size_le := by rw [(alike_invalidate t' a).size_eq, h.size_eq]
  own_eq n hn := by rw [(alike_invalidate t' a).own_eq, (h.other n hn).1]
  groups_eq n hn := by rw [(alike_invalidate t' a).groups_eq, (h.other n hn).2]
  kept_eq n hn := by
    rw [(alike_invalidate t' a).reaches_iff] at hn
    rw [kept_invalidate_of_not_reaches ht' hn, h.kept_eq]
  kept_none n hn := by
    rw [(alike_invalidate t' a).reaches_iff] at hn
    cases hk : ((t'.invalidate a).node n).kept with
    | none => rfl
    | some k => exact absurd hn (kept_invalidate h.wellFormed (h.size_eq ▸ ha) hk).1

/-- Members that learned of their parent are its children. -/
theorem Tight.editGroups (ht : t.Tight) (hmembers : ∀ m ∈ members, m < t.size)
    {f : List RequirementGroup → List RequirementGroup}
    (hedit : t.Edited ((t.addParents members parent).modifyNode parent
      fun n => { n with groups := f n.groups }) parent)
    (hchild : ∀ m ∈ members, ((t.addParents members parent).modifyNode parent
      fun n => { n with groups := f n.groups }).Child parent m) :
    ((t.addParents members parent).modifyNode parent fun n =>
      { n with groups := f n.groups }).Tight := by
  refine ⟨hedit.wellFormed, fun {a b} ha => ?_⟩
  have hparents : ∀ b, (((t.addParents members parent).modifyNode parent
      fun n => { n with groups := f n.groups }).node b).parents =
        ((t.addParents members parent).node b).parents := by
    intro b
    by_cases hb : b = parent
    · subst hb
      by_cases hlt : b < (t.addParents members b).size
      · rw [node_modifyNode_self _ hlt]
      · rw [node_of_size_le (by rw [size_modifyNode]; exact not_lt.1 hlt),
          node_of_size_le (not_lt.1 hlt)]
    · rw [node_modifyNode_of_ne _ hb]
  rw [hparents] at ha
  rcases (((addParents_spec members t parent hmembers).2 b).2.2.2 a).1 ha with ha | ⟨hb, rfl⟩
  · exact hedit.grows.child (ht.child_of_parent ha)
  · exact hchild b hb

theorem changesAt_addGroup (ht : t.Tight) (ha : a < t.size) (hc : c.Valid)
    (hmembers : ∀ m ∈ members, m < t.size) : ChangesAt a t (t.addGroup a c members).2 := by
  have hedit := edited_addGroup ht.wellFormed ha hc hmembers
  refine hedit.changesAt (ht.editGroups (f := (· ++ [⟨c, members⟩])) hmembers hedit fun m hm => ?_) ha
  have hlt : a < (t.addParents members a).size := by
    rw [(addParents_spec members t a hmembers).1]
    exact ha
  rw [child_iff, node_modifyNode_self _ hlt]
  exact ⟨⟨c, members⟩, by simp, hm⟩

theorem changesAt_extendGroup (ht : t.Tight) (ha : a < t.size) {g : Nat}
    (hg : g < (t.node a).groups.length) (hm : m < t.size) : ChangesAt a t (t.extendGroup a g m) := by
  have hedit := edited_extendGroup ht.wellFormed g ha hm
  have hmembers : ∀ x ∈ [m], x < t.size := by simpa using hm
  have hgroup : { (t.node a).groups[g] with members := (t.node a).groups[g].members ++ [m] } ∈
      (t.node a).groups.modify g fun g => { g with members := g.members ++ [m] } := by
    refine mem_of_getElem? (i := g) ?_
    rw [getElem?_modify, getElem?_eq_getElem hg]
    simp
  refine hedit.changesAt (ht.editGroups (f := (·.modify g fun g =>
    { g with members := g.members ++ [m] })) hmembers hedit fun x hx => ?_) ha
  obtain ⟨hsize, hnode⟩ := addParents_spec [m] t a hmembers
  rw [child_iff, node_modifyNode_self _ (hsize ▸ ha), mem_singleton.1 hx]
  refine ⟨{ (t.node a).groups[g] with members := (t.node a).groups[g].members ++ [m] }, ?_,
    mem_append_right _ (.head _)⟩
  rw [(hnode a).2.1]
  exact hgroup

theorem changesAt_own (ht : t.Tight) (ha : a < t.size) {f : Tally → Tally}
    (hf : (f (t.node a).own).Valid) :
    ChangesAt a t ((t.modifyNode a fun n => { n with own := f n.own }).invalidate a) := by
  have hedit := edited_own ht.wellFormed ha hf
  refine hedit.changesAt ⟨hedit.wellFormed, fun {x y} hx => ?_⟩ ha
  have hparents : ((t.modifyNode a fun n => { n with own := f n.own }).node y).parents =
      (t.node y).parents := by
    by_cases hy : y = a
    · rw [hy, node_modifyNode_self _ ha]
    · rw [node_modifyNode_of_ne _ hy]
  rw [hparents] at hx
  exact hedit.grows.child (ht.child_of_parent hx)

theorem changesAt_increment (ht : t.Tight) (ha : a < t.size) (r : Resource) (n : Count) :
    ChangesAt a t (t.increment a r n) :=
  changesAt_own ht ha (f := (·.increment r n)) (Tally.valid_increment (ht.wellFormed.own_valid a))

theorem addUsage_cases (ht : t.Tight) (ha : a < t.size) {usage : Tally} (husage : usage.Valid) :
    t.addUsage a usage = t ∨ ChangesAt a t (t.addUsage a usage) := by
  unfold addUsage
  split
  · exact .inl rfl
  · exact .inr (changesAt_own ht ha (f := (·.sum usage))
      (Tally.valid_sum (ht.wellFormed.own_valid a) husage))

/-! ## Settled aggregates -/

/-- The tally has no bounds, or it counts what the node has itself and what its children keep. -/
def Settles (t : RequirementTree) (n : NodeId) (k : Tally) : Prop :=
  (∀ key, k.get key = .zero ∨ k.get key = .unbounded) ∨
    ∃ kept : NodeId → Tally, (∀ b, t.Child n b → (t.node b).kept = some (kept b)) ∧
      ∀ key, ((t.node n).own.get key).value +
        t.groupsValue (fun b => ((kept b).get key).value) n ≤ (k.get key).value

/-- Every aggregate that is kept is settled. -/
def Settled (t : RequirementTree) : Prop :=
  ∀ n k, (t.node n).kept = some k → t.Settles n k

theorem Settles.congr (h : t.Settles n k) (hown : (t'.node n).own = (t.node n).own)
    (hgroups : (t'.node n).groups = (t.node n).groups)
    (hkept : ∀ b k, t.Child n b → (t.node b).kept = some k → (t'.node b).kept = some k) :
    t'.Settles n k := by
  refine h.imp_right ?_
  rintro ⟨kept, hchild, hle⟩
  refine ⟨kept, fun b hb => ?_, fun key => ?_⟩
  · have hb' : t.Child n b := by rwa [Child, children, hgroups] at hb
    exact hkept b _ hb' (hchild b hb')
  · rw [hown, groupsValue, hgroups]
    exact hle key

theorem ChangesAt.settled (h : ChangesAt a t t') (ht : t.Settled) : t'.Settled := by
  intro n k hk
  have hn : ¬ t'.Reaches n a := fun hreach => by
    rw [h.kept_none n hreach] at hk
    cases hk
  have hne : n ≠ a := by
    rintro rfl
    exact hn .refl
  rw [h.kept_eq n hn] at hk
  refine (ht n k hk).congr (h.own_eq n hne) (h.groups_eq n hne) fun b k hb hkb => ?_
  have hb' : t'.Child n b := by
    rw [Child, children, h.groups_eq n hne]
    exact hb
  rw [h.kept_eq b fun hreach => hn (.head hb' hreach)]
  exact hkb

/-! ## Asking for aggregates -/

/-- The tree `t'` is `t` with more aggregates, none of them for a node in `active`. -/
structure KeepsMore (active : List NodeId) (t t' : RequirementTree) : Prop where
  alike : Alike t t'
  kept : ∀ {n k}, (t.node n).kept = some k → (t'.node n).kept = some k
  untouched : ∀ n ∈ active, (t'.node n).kept = (t.node n).kept

namespace KeepsMore

theorem refl (t : RequirementTree) : KeepsMore active t t := ⟨.refl t, fun h => h, fun _ _ => rfl⟩

theorem trans (h : KeepsMore active t t') (h' : KeepsMore active t' t'') : KeepsMore active t t'' where
  alike := h.alike.trans h'.alike
  kept hk := h'.kept (h.kept hk)
  untouched n hn := (h'.untouched n hn).trans (h.untouched n hn)

theorem mono {active' : List NodeId} (h : KeepsMore active t t') (hsub : active' ⊆ active) :
    KeepsMore active' t t' :=
  ⟨h.alike, h.kept, fun n hn => h.untouched n (hsub hn)⟩

theorem settles (h : KeepsMore active t t') (hs : t.Settles n k) : t'.Settles n k :=
  hs.congr (h.alike.own_eq n) (h.alike.groups_eq n) fun _ _ _ => h.kept

end KeepsMore

/-- The tree is `t₀` up to aggregates, which are valid and settled. -/
structure Keeping (t₀ t : RequirementTree) : Prop where
  alike : Alike t₀ t
  settled : t.Settled
  valid : ∀ n k, (t.node n).kept = some k → k.Valid

/-- From a tree that keeps settled aggregates of `t₀` the action leads to one that keeps more, with
an answer in `R`. -/
structure Gains {α : Type} (t₀ : RequirementTree) (active : List NodeId) (t : RequirementTree)
    (act : StateM RequirementTree α) (R : α → RequirementTree → Prop) : Prop where
  more : KeepsMore active t (act.run t).2
  keeping : t₀.Keeping (act.run t).2
  answer : R (act.run t).1 (act.run t).2

section Gains

variable {t₀ : RequirementTree} {α β : Type}

theorem Gains.pure (ht : t₀.Keeping t) {x : α} {R : α → RequirementTree → Prop} (hx : R x t) :
    t₀.Gains active t (Pure.pure x) R :=
  ⟨.refl t, ht, hx⟩

theorem Gains.bind {act : StateM RequirementTree α} {R : α → RequirementTree → Prop}
    {next : α → StateM RequirementTree β} {R' : β → RequirementTree → Prop}
    (h : t₀.Gains active t act R)
    (hnext : ∀ x t', KeepsMore active t t' → t₀.Keeping t' → R x t' →
      t₀.Gains active t' (next x) R') : t₀.Gains active t (act >>= next) R' := by
  obtain ⟨hmore', hkeeping, hR⟩ := hnext _ _ h.more h.keeping h.answer
  exact ⟨h.more.trans hmore', hkeeping, hR⟩

theorem Gains.mapM {f : α → StateM RequirementTree β} {R : α → β → RequirementTree → Prop}
    (hR : ∀ x y {t t'}, KeepsMore active t t' → R x y t → R x y t') {xs : List α}
    (h : ∀ x ∈ xs, ∀ t, t₀.Keeping t → t₀.Gains active t (f x) (R x)) (ht : t₀.Keeping t) :
    t₀.Gains active t (xs.mapM f) fun ys t => Forall₂ (fun x y => R x y t) xs ys := by
  induction xs generalizing t with
  | nil => exact .pure ht .nil
  | cons x xs ih =>
    rw [mapM_cons]
    refine (h x (.head _) t ht).bind fun y t' _ ht' hy => ?_
    have hrest := ih (fun z hz => h z (.tail _ hz)) ht'
    refine ⟨hrest.more, hrest.keeping, .cons (hR x y hrest.more hy) hrest.answer⟩

/-- An answer without hits is kept. -/
def Kept (m : NodeId) (answer : Tally × List NodeId) (t : RequirementTree) : Prop :=
  answer.1.Valid ∧ (answer.2 = [] → (t.node m).kept = some answer.1)

theorem Kept.mono {answer : Tally × List NodeId} (h : KeepsMore active t t') (hk : Kept m answer t) :
    Kept m answer t' :=
  ⟨hk.1, fun hnone => h.kept (hk.2 hnone)⟩

theorem valid_settle (ht₀ : t₀.WellFormed)
    (hparts : Forall₂ (Gathered fun m r hits => Kept m (r, hits) t) (t₀.node id).groups parts) :
    (settle id (t₀.node id).own parts).1.Valid := by
  have htotal := valid_total ht₀ (fun m r hits hm => hm.1) hparts
  rw [← foldl_parts] at htotal
  unfold settle
  dsimp only
  split
  · exact (Tally.unbound_spec htotal).1
  · exact htotal

/-- A node is settled once all its members answered. -/
theorem settles_settle (ht₀ : t₀.WellFormed) (ht : Alike t₀ t)
    (hparts : Forall₂ (Gathered fun m r hits => Kept m (r, hits) t) (t₀.node id).groups parts)
    (hnone : (settle id (t₀.node id).own parts).2 = []) :
    t.Settles id (settle id (t₀.node id).own parts).1 := by
  have htotal := valid_total ht₀ (fun m r hits hm => hm.1) hparts
  by_cases hhit : id ∈ parts.flatMap (·.2)
  · refine .inl fun key => ?_
    by_cases hzero : (settle id (t₀.node id).own parts).1.get key = .zero
    · exact .inl hzero
    · exact .inr ((settle_spec htotal key).2 hhit hzero)
  · have hhits : parts.flatMap (·.2) = [] := by
      refine eq_nil_iff_forall_not_mem.2 fun b hb => ?_
      have hmem : b ∈ (settle id (t₀.node id).own parts).2 := by
        refine mem_filter.2 ⟨hb, ?_⟩
        simp only [ne_eq, decide_eq_true_eq]
        rintro rfl
        exact hhit hb
      rw [hnone] at hmem
      exact absurd hmem not_mem_nil
    have hkept : Forall₂ (Gathered fun m r _ => r.Valid ∧ (t.node m).kept = some r)
        (t₀.node id).groups parts := by
      refine (gathered_hits hparts).imp ?_
      rintro g part ⟨answers, hanswers, rfl⟩
      refine ⟨answers, hanswers.imp ?_, rfl⟩
      rintro m answer ⟨⟨hvalid, hk⟩, hsub⟩
      rw [hhits] at hsub
      exact ⟨hvalid, hk (subset_nil.1 hsub)⟩
    refine .inr ⟨fun b => ((t.node b).kept).getD .empty, fun b hb => ?_, fun key => ?_⟩
    · obtain ⟨g, hg, hb⟩ := child_iff.1 (ht.child_iff.1 hb)
      obtain ⟨part, -, answers, hanswers, -⟩ := exists_right_of_forall₂ hkept hg
      obtain ⟨answer, -, -, hk⟩ := exists_right_of_forall₂ hanswers hb
      simp only [hk, Option.getD_some]
    · rw [ht.own_eq, groupsValue, ht.groups_eq]
      refine le_trans (le_value_total ht₀ (fun m r hits hm => hm.1) ?_ hkept)
        (settle_spec htotal key).1
      intro m r hits hm
      simp only [hm.2, Option.getD_some, le_refl]

theorem Gains.keep (ht : t₀.Keeping t) (hid : id < t.size) (hactive : id ∉ active)
    (hnone : (t.node id).kept = none) {r : Tally} (hr : r.Valid) (hsettles : t.Settles id r) :
    t₀.Gains active t (modify fun t => t.modifyNode id ({ · with kept := some r }))
      fun _ t => (t.node id).kept = some r := by
  have halike : Alike t (t.modifyNode id ({ · with kept := some r })) :=
    .modifyNode (fun _ => rfl) (fun _ => rfl) fun _ => rfl
  have hself : ((t.modifyNode id ({ · with kept := some r })).node id).kept = some r := by
    rw [node_modifyNode_self _ hid]
  have hother : ∀ n, n ≠ id →
      ((t.modifyNode id ({ · with kept := some r })).node n).kept = (t.node n).kept :=
    fun n hn => by rw [node_modifyNode_of_ne _ hn]
  have hmore : KeepsMore active t (t.modifyNode id ({ · with kept := some r })) := by
    refine ⟨halike, fun {n k} hk => ?_, fun n hn => hother n ?_⟩
    · by_cases hn : n = id
      · rw [hn, hnone] at hk
        cases hk
      · rw [hother n hn, hk]
    · rintro rfl
      exact hactive hn
  refine ⟨hmore, ⟨ht.alike.trans halike, fun n k hk => ?_, fun n k hk => ?_⟩, hself⟩
  · replace hk : ((t.modifyNode id ({ · with kept := some r })).node n).kept = some k := hk
    by_cases hn : n = id
    · rw [hn] at hk ⊢
      cases hself.symm.trans hk
      exact hmore.settles hsettles
    · rw [hother n hn] at hk
      exact hmore.settles (ht.settled n k hk)
  · replace hk : ((t.modifyNode id ({ · with kept := some r })).node n).kept = some k := hk
    by_cases hn : n = id
    · rw [hn] at hk
      cases hself.symm.trans hk
      exact hr
    · rw [hother n hn] at hk
      exact ht.valid n k hk

/-- Asking for a node keeps its answer, unless that has open hits. -/
theorem gains_aggregateFrom (ht₀ : t₀.WellFormed) (hchain : t₀.Chain active id)
    (hfuel : t₀.size < active.length + fuel) (ht : t₀.Keeping t) :
    t₀.Gains active t (aggregateFrom fuel active id) (Kept id) := by
  induction fuel generalizing active id t with
  | zero =>
    have := hchain.length_le
    omega
  | succ fuel ih =>
    unfold aggregateFrom
    refine Gains.bind (R := fun u v => u = t ∧ v = t) ⟨.refl t, ht, rfl, rfl⟩ ?_
    rintro _ _ - - ⟨rfl, rfl⟩
    dsimp only
    split
    · rename_i k hkept
      exact .pure ht ⟨ht.valid id k hkept, fun _ => hkept⟩
    · rename_i hnone
      split
      · exact .pure ht ⟨Tally.valid_empty, fun h => by cases h⟩
      · rename_i hmem
        rw [ht.alike.groups_eq, ht.alike.own_eq]
        have hmember (g : RequirementGroup) (hg : g ∈ (t₀.node id).groups) (u : RequirementTree)
            (hu : t₀.Keeping u) : t₀.Gains (id :: active) u (do
              let answers ← g.members.mapM (aggregateFrom fuel (id :: active))
              return (g.combinator.combine (answers.map (·.1)), answers.flatMap (·.2)))
            fun part u => Gathered (fun m r hits => Kept m (r, hits) u) g part := by
          refine (Gains.mapM (R := Kept) (fun _ _ => Kept.mono) (fun m hm u hu => ?_) hu).bind ?_
          · refine ih (hchain.step ht₀ hmem (child_iff.2 ⟨g, hg, hm⟩)) ?_ hu
            rw [length_cons]
            omega
          · exact fun answers u _ hu hanswers => .pure hu ⟨answers, hanswers, rfl⟩
        have hparts := Gains.mapM (fun g part u u' hmore => by
          rintro ⟨answers, hanswers, rfl⟩
          exact ⟨answers, hanswers.imp fun _ _ => Kept.mono hmore, rfl⟩) hmember ht
        refine Gains.bind (R := fun parts u => Forall₂ (Gathered fun m r hits =>
            Kept m (r, hits) u) (t₀.node id).groups parts ∧ (u.node id).kept = none)
          ⟨hparts.more.mono (subset_cons_self _ _), hparts.keeping, hparts.answer,
            (hparts.more.untouched id (.head _)).trans hnone⟩ ?_
        rintro parts u - hu ⟨hgathered, hnone⟩
        have hvalid := valid_settle ht₀ hgathered
        have hsettles := settles_settle ht₀ hu.alike hgathered
        rcases hsettle : settle id (t₀.node id).own parts with ⟨result, pending⟩
        rw [hsettle] at hvalid hsettles
        dsimp only
        split
        · rename_i hempty
          have hpending := isEmpty_iff.1 hempty
          refine (Gains.keep hu (hu.alike.size_eq ▸ hchain.id_lt) hmem hnone hvalid
            (hsettles hpending)).bind ?_
          exact fun _ v _ hv hkept => .pure hv ⟨hvalid, fun _ => hkept⟩
        · rename_i hopen
          exact .pure hu ⟨hvalid, fun h => absurd (isEmpty_iff.2 h) hopen⟩

end Gains

/-! ## Faithful trees -/

/-- No answer counts what is never needed. -/
def Grounded (t : RequirementTree) (id : NodeId) (k : Tally) : Prop :=
  ∀ key, t.least key id = 0 → k.get key = .zero

theorem least_congr (h : ∀ m, t.Reaches id m →
    (t'.node m).own = (t.node m).own ∧ (t'.node m).groups = (t.node m).groups) :
    t'.least key id = t.least key id := by
  unfold least
  exact iSup_congr fun depth => approx_congr h depth

theorem local_grounded : Local Grounded := by
  intro t t' id k h hk key hzero
  rw [least_congr h] at hzero
  exact hk key hzero

theorem Combinator.value_eq_zero {vs ws : List ℕ∞}
    (h : Forall₂ (fun v w => v = 0 → w = 0) vs ws) (hzero : c.value vs = 0) : c.value ws = 0 := by
  have hsum : vs.sum = 0 → ws.sum = 0 := by
    intro hzero
    rw [sum_eq_zero_iff] at hzero ⊢
    intro w hw
    obtain ⟨v, hv, hvw⟩ := exists_left_of_forall₂ h hw
    exact hvw (hzero v hv)
  cases c with
  | sum => exact hsum hzero
  | max =>
    have hmax : ∀ us : List ℕ∞, us.foldr Max.max 0 = 0 ↔ ∀ u ∈ us, u = 0 := by
      intro us
      induction us with
      | nil => simp
      | cons u us ih => simp [ih]
    refine (hmax ws).2 fun w hw => ?_
    obtain ⟨v, hv, hvw⟩ := exists_left_of_forall₂ h hw
    exact hvw ((hmax vs).1 hzero v hv)
  | times n =>
    rcases mul_eq_zero.1 hzero with hn | hs
    · exact mul_eq_zero.2 (.inl hn)
    · exact mul_eq_zero.2 (.inr (hsum hs))

theorem scheme_grounded (ht : t.WellFormed) : t.Scheme t.Grounded fun _ id r _ => t.Grounded id r where
  kept _ hk := hk
  hit _ _ key _ := rfl
  settle {active id parts} _ _ hparts := by
    have htotal := valid_total ht (fun m r hits hm => hm.2.1.valid) hparts
    suffices h : t.Grounded id (settle id (t.node id).own parts).1 from ⟨h, fun _ => h⟩
    intro key hzero
    have hneeds := own_add_groupsValue_least t key id
    rw [hzero, nonpos_iff_eq_zero, add_eq_zero] at hneeds
    have hgroups :
        ∀ v ∈ (t.node id).groups.map fun g => g.combinator.value (g.members.map (t.least key)),
        v = 0 := sum_eq_zero_iff.1 hneeds.2
    have hpart : Forall₂ (fun v u => v = 0 → u.get key = .zero)
        ((t.node id).groups.map fun g => g.combinator.value (g.members.map (t.least key)))
        (parts.map (·.1)) := by
      refine forall₂_parts hparts fun g hg answers hanswers hg0 => ?_
      have hvalid : ∀ u ∈ answers.map (·.1), u.Valid := by
        intro u hu
        obtain ⟨a, ha, rfl⟩ := mem_map.1 hu
        obtain ⟨m, -, hm⟩ := exists_left_of_forall₂ hanswers ha
        exact hm.2.1.valid
      have hvalues : Forall₂ (fun u v => u.get key = Count.saturate v) (answers.map (·.1))
          (answers.map fun a => (a.1.get key).value) := by
        refine forall₂_map_left_iff.2 (forall₂_map_right_iff.2 ?_)
        refine forall₂_same.2 fun a ha => ?_
        exact (Count.saturate_value (Tally.valid_get (hvalid _ (mem_map_of_mem ha)) key)).symm
      rw [Combinator.get_combine (ht.combinator_valid hg) hvalid hvalues,
        Combinator.value_eq_zero ?_ hg0, Count.saturate_zero]
      refine forall₂_map_left_iff.2 (forall₂_map_right_iff.2 (hanswers.imp ?_))
      intro m a hm hm0
      rw [hm.2.2 key hm0]
      rfl
    have hall : Forall₂ (fun u v => u.get key = Count.saturate v) (parts.map (·.1))
        ((parts.map (·.1)).map fun _ => 0) := by
      refine forall₂_map_right_iff.2 (forall₂_same.2 fun u hu => ?_)
      obtain ⟨v, hv, hvu⟩ := exists_left_of_forall₂ hpart hu
      rw [hvu (hgroups v hv), Count.saturate_zero]
    have hown : (t.node id).own.get key = Count.saturate 0 := by
      rw [Count.saturate_zero]
      exact Count.value_injective hneeds.1
    have hsum := Combinator.get_foldl_sum
      (valid_of_gathered (fun m r hits hm => hm.2.1.valid) hparts) hall (ht.own_valid id) hown
    have hnil : (0 : ℕ∞) + ((parts.map (·.1)).map fun _ => (0 : ℕ∞)).sum = 0 := by
      rw [zero_add, sum_eq_zero_iff]
      intro v hv
      obtain ⟨-, -, rfl⟩ := mem_map.1 hv
      rfl
    rw [hnil, Count.saturate_zero] at hsum
    unfold settle
    rw [foldl_parts]
    dsimp only
    split
    · rw [(Tally.unbound_spec htotal).2, hsum]
      rfl
    · exact hsum

theorem Gathered.imp {R R' : NodeId → Tally → List NodeId → Prop} {g : RequirementGroup}
    {part : Tally × List NodeId} (hR : ∀ m r hits, R m r hits → R' m r hits) :
    Gathered R g part → Gathered R' g part := by
  rintro ⟨answers, hanswers, rfl⟩
  exact ⟨answers, hanswers.imp fun _ _ => hR _ _ _, rfl⟩

theorem Scheme.and {K K' : NodeId → Tally → Prop}
    {Q Q' : List NodeId → NodeId → Tally → List NodeId → Prop} (h : t.Scheme K Q)
    (h' : t.Scheme K' Q') :
    t.Scheme (fun id k => K id k ∧ K' id k) fun active id r hits => Q active id r hits ∧
      Q' active id r hits where
  kept hchain hk := ⟨h.kept hchain hk.1, h'.kept hchain hk.2⟩
  hit hchain hid := ⟨h.hit hchain hid, h'.hit hchain hid⟩
  settle hchain hid hparts := by
    have hs := h.settle hchain hid (hparts.imp fun g part =>
      Gathered.imp fun m r hits hm => ⟨hm.1, hm.2.1, hm.2.2.1⟩)
    have hs' := h'.settle hchain hid (hparts.imp fun g part =>
      Gathered.imp fun m r hits hm => ⟨hm.1, hm.2.1, hm.2.2.2⟩)
    exact ⟨⟨hs.1, hs'.1⟩, fun hnone => ⟨hs.2 hnone, hs'.2 hnone⟩⟩

/-- An answer counts what is needed to any depth, and nothing else. -/
def Counts (t : RequirementTree) (id : NodeId) (k : Tally) : Prop :=
  t.AtLeast id k ∧ t.Grounded id k

theorem local_counts : Local Counts :=
  fun t t' id k h hk => ⟨local_atLeast t t' id k h hk.1, local_grounded t t' id k h hk.2⟩

/-- The tree is well formed, and the aggregates that it keeps are right and settled. -/
structure Faithful (t : RequirementTree) : Prop where
  tight : t.Tight
  kept : KeptSatisfy Counts t
  settled : t.Settled

namespace Faithful

theorem empty : RequirementTree.empty.Faithful := by
  refine ⟨tight_empty, keptSatisfy_empty, fun n k hk => ?_⟩
  rw [node_of_size_le n.zero_le] at hk
  cases hk

theorem changesAt (ht : t.Faithful) (h : ChangesAt a t t') : t'.Faithful :=
  ⟨h.tight, h.keptSatisfy local_counts ht.kept, h.settled ht.settled⟩

theorem addNode (ht : t.Faithful) (name : String) : (t.addNode name).2.Faithful := by
  have hstep := stepsTo_addNode name ht.tight.wellFormed local_counts ht.kept
  have hnode := fun id => node_addNode (t := t) name id
  refine ⟨⟨hstep.wellFormed, fun {a b} ha => ?_⟩, hstep.keptSatisfy, fun n k hk => ?_⟩
  · rw [(hnode b).2.2.1] at ha
    exact hstep.grows.child (ht.tight.child_of_parent ha)
  · rw [(hnode n).2.2.2] at hk
    refine (ht.settled n k hk).congr (hnode n).1 (hnode n).2.1 fun b k _ hb => ?_
    rw [(hnode b).2.2.2, hb]

theorem gains (ht : t.Faithful) (hid : id < t.size) :
    t.Gains [] t (aggregateFrom (t.size + 1) [] id) (Kept id) :=
  gains_aggregateFrom ht.tight.wellFormed ⟨.nil, by simp, by simp, hid⟩ (by simp)
    ⟨.refl t, ht.settled, fun n k hk => (ht.kept n k hk).2⟩

theorem aggregate (ht : t.Faithful) (hid : id < t.size) : (t.aggregate id).2.Faithful := by
  have hscheme : t.Scheme (t.Counts) _ :=
    (scheme_atLeast ht.tight.wellFormed).and (scheme_grounded ht.tight.wellFormed)
  have hstep := stepsTo_aggregate ht.tight.wellFormed hid hscheme local_counts ht.kept
  exact ⟨(ht.gains hid).more.alike.tight ht.tight, hstep.keptSatisfy, (ht.gains hid).keeping.settled⟩

theorem alike_aggregate (ht : t.Faithful) (hid : id < t.size) : Alike t (t.aggregate id).2 :=
  (ht.gains hid).more.alike

theorem kept_aggregate_self (ht : t.Faithful) (hid : id < t.size) :
    ((t.aggregate id).2.node id).kept = some (t.aggregate id).1 := by
  have hscheme : t.Scheme (t.Counts) _ :=
    (scheme_atLeast ht.tight.wellFormed).and (scheme_grounded ht.tight.wellFormed)
  refine (ht.gains hid).answer.2 (eq_nil_iff_forall_not_mem.2 fun b hb => ?_)
  have hrun := yields_aggregateFrom ht.tight.wellFormed hscheme
    (⟨.nil, by simp, by simp, hid⟩ : t.Chain [] id)
    (by simp : t.size < ([] : List NodeId).length + (t.size + 1))
  exact absurd ((hrun t ⟨.refl t, ht.kept⟩).2.1.hit_mem b hb) not_mem_nil

end Faithful

end RequirementTree

end SecureTape
