import Mathlib
import SecureTape.Proofs.ExactAggregates
import SecureTape.Proofs.Regions

/-!
# Extensions of requirement trees

Building and scheduling only add to a requirement tree. Main statements:
1. `Extends`: what is kept while a tree is added to: members of groups, what is charged, and that no
   aggregate which is kept is below what is needed to any depth.
2. `extends_addGroup` and the like: every change of a tree extends it.
-/

namespace SecureTape

open List

variable {usage : Tally}

namespace Count

theorem value_add_le (a b : Count) : a.value + b.value ≤ (a.add b).value := by
  cases a with
  | unbounded => exact le_top
  | finite m =>
    cases b with
    | unbounded => exact le_top
    | finite n =>
      rw [add, ← saturate_coe]
      exact_mod_cast le_value_saturate ((m + n : Nat) : ℕ∞)

theorem le_value_add_left (a b : Count) : a.value ≤ (a.add b).value :=
  le_self_add.trans (value_add_le a b)

end Count

namespace RequirementTree

variable {t t' t'' : RequirementTree} {id parent m : NodeId} {g : Nat} {c : Combinator}
  {members : List NodeId}

/-- The tree is well formed, and no aggregate that it keeps is below what is needed to any depth. -/
structure Sound (t : RequirementTree) : Prop where
  wellFormed : t.WellFormed
  kept : KeptSatisfy AtLeast t

/-- What a node has itself of a resource. -/
noncomputable def ownValue (t : RequirementTree) (key : Resource) (id : NodeId) : ℕ∞ :=
  ((t.node id).own.get key).value

/-- The tree `t'` is what additions make of `t`. -/
structure Extends (t t' : RequirementTree) : Prop where
  sound : t'.Sound
  size_le : t.size ≤ t'.size
  member : ∀ {id g c m}, t.HasMember id g c m → t'.HasMember id g c m
  own_le : ∀ key id, t.ownValue key id ≤ t'.ownValue key id

theorem Extends.trans (h : Extends t t') (h' : Extends t' t'') : Extends t t'' where
  sound := h'.sound
  size_le := h.size_le.trans h'.size_le
  member hm := h'.member (h.member hm)
  own_le key id := (h.own_le key id).trans (h'.own_le key id)

theorem Sound.extends (h : t.Sound) : Extends t t :=
  ⟨h, le_rfl, fun h => h, fun _ _ => le_rfl⟩

theorem sound_empty : empty.Sound := ⟨wellFormed_empty, keptSatisfy_empty⟩

/-! ## Groups -/

theorem HasMember.of_groups_eq (h : t.HasMember id g c m)
    (heq : (t'.node id).groups = (t.node id).groups) : t'.HasMember id g c m := by
  rwa [HasMember, heq]

theorem groups_regroup (hparent : parent < t.size) (hmembers : ∀ m ∈ members, m < t.size)
    (regroup : List RequirementGroup → List RequirementGroup) (id : NodeId) :
    ((((t.addParents members parent).modifyNode parent fun n =>
      { n with groups := regroup n.groups }).invalidate parent).node id).groups =
        if id = parent then regroup (t.node id).groups else (t.node id).groups := by
  obtain ⟨hsize, hnode⟩ := addParents_spec members t parent hmembers
  rw [(alike_invalidate _ parent).groups_eq]
  split
  · rename_i hid
    rw [hid, node_modifyNode_self _ (hsize ▸ hparent), ← (hnode parent).2.1]
  · rename_i hid
    rw [node_modifyNode_of_ne _ hid, (hnode id).2.1]

theorem groups_addGroup (hparent : parent < t.size) (hmembers : ∀ m ∈ members, m < t.size)
    (id : NodeId) : ((t.addGroup parent c members).2.node id).groups =
      if id = parent then (t.node id).groups ++ [⟨c, members⟩] else (t.node id).groups := by
  have hadd := groups_regroup hparent hmembers (· ++ [⟨c, members⟩]) id
  exact hadd

theorem fst_addGroup (hmembers : ∀ m ∈ members, m < t.size) :
    (t.addGroup parent c members).1 = (t.node parent).groups.length :=
  congrArg List.length ((addParents_spec members t parent hmembers).2 parent).2.1

theorem size_addGroup (hmembers : ∀ m ∈ members, m < t.size) :
    (t.addGroup parent c members).2.size = t.size :=
  (alike_invalidate _ parent).size_eq.trans
    ((size_modifyNode _).trans (addParents_spec members t parent hmembers).1)

theorem hasMember_addGroup (hparent : parent < t.size) (hmembers : ∀ m ∈ members, m < t.size)
    (hm : m ∈ members) :
    (t.addGroup parent c members).2.HasMember parent (t.node parent).groups.length c m := by
  refine ⟨⟨c, members⟩, ?_, rfl, hm⟩
  rw [groups_addGroup hparent hmembers, if_pos rfl, getElem?_concat_length]

theorem groups_extendGroup (hparent : parent < t.size) (hm : m < t.size) (id : NodeId) :
    ((t.extendGroup parent g m).node id).groups =
      if id = parent then
        (t.node id).groups.modify g fun group => { group with members := group.members ++ [m] }
      else (t.node id).groups := by
  have hextend := groups_regroup hparent (forall_mem_singleton.2 hm) (·.modify g fun group =>
    { group with members := group.members ++ [m] }) id
  exact hextend

theorem size_extendGroup (hm : m < t.size) : (t.extendGroup parent g m).size = t.size :=
  (alike_invalidate _ parent).size_eq.trans
    ((size_modifyNode _).trans (addParents_spec [m] t parent (by simpa using hm)).1)

theorem hasMember_extendGroup {b : NodeId} (hparent : parent < t.size) (hm : m < t.size)
    (h : t.HasMember parent g c b) : (t.extendGroup parent g m).HasMember parent g c m := by
  obtain ⟨group, hgroup, hcombinator, -⟩ := h
  refine ⟨{ group with members := group.members ++ [m] }, ?_, hcombinator, by simp⟩
  rw [groups_extendGroup hparent hm, if_pos rfl, getElem?_modify, hgroup]
  simp

theorem groups_addNode (name : String) (id : NodeId) :
    ((t.addNode name).2.node id).groups = (t.node id).groups := (node_addNode name id).2.1

theorem size_lt_addNode (name : String) : t.size < (t.addNode name).2.size := by
  rw [size_addNode]
  exact Nat.lt_succ_self _

theorem hasMember_addNode_addGroup (hparent : parent < t.size) (name : String) :
    ((t.addNode name).2.addGroup parent c [t.size]).2.HasMember parent
      (t.node parent).groups.length c t.size := by
  have hlt := size_lt_addNode (t := t) name
  rw [← groups_addNode name parent]
  refine hasMember_addGroup (hparent.trans hlt) ?_ (mem_singleton_self _)
  intro m hm
  rw [mem_singleton.1 hm]
  exact hlt

theorem fst_addNode_addGroup (name : String) :
    ((t.addNode name).2.addGroup parent c [t.size]).1 = (t.node parent).groups.length := by
  rw [fst_addGroup, groups_addNode]
  intro m hm
  rw [mem_singleton.1 hm]
  exact size_lt_addNode name

theorem size_addNode_addGroup (name : String) :
    ((t.addNode name).2.addGroup parent c [t.size]).2.size = t.size + 1 := by
  rw [size_addGroup, size_addNode]
  intro m hm
  rw [mem_singleton.1 hm]
  exact size_lt_addNode name

/-! ## Changes -/

theorem groups_modifyOwn (t : RequirementTree) (f : Tally → Tally) (id b : NodeId) :
    ((t.modifyNode id fun n => { n with own := f n.own }).node b).groups = (t.node b).groups := by
  by_cases hb : b = id
  · subst hb
    by_cases hlt : b < t.size
    · rw [node_modifyNode_self _ hlt]
    · rw [node_of_size_le (not_lt.1 hlt), node_of_size_le]
      rw [size_modifyNode]
      exact not_lt.1 hlt
  · rw [node_modifyNode_of_ne _ hb]

theorem ownValue_congr (h : (t'.node id).own = (t.node id).own) (key : Resource) :
    t.ownValue key id ≤ t'.ownValue key id := by
  rw [ownValue, ownValue, h]

variable (ht : t.Sound)

include ht

theorem extends_addNode (name : String) : Extends t (t.addNode name).2 := by
  have hstep := stepsTo_addNode name ht.wellFormed local_atLeast ht.kept
  refine ⟨⟨hstep.wellFormed, hstep.keptSatisfy⟩, ?_,
    fun h => h.of_groups_eq (node_addNode name _).2.1,
    fun key id => ownValue_congr (node_addNode name id).1 key⟩
  rw [size_addNode]
  exact Nat.le_succ _

theorem extends_addGroup (hparent : parent < t.size) (hc : c.Valid)
    (hmembers : ∀ m ∈ members, m < t.size) : Extends t (t.addGroup parent c members).2 := by
  have hstep := stepsTo_addGroup ht.wellFormed hparent hc hmembers local_atLeast ht.kept
  refine ⟨⟨hstep.wellFormed, hstep.keptSatisfy⟩, le_of_eq (size_addGroup hmembers).symm, ?_,
    fun key id => ownValue_congr (own_addGroup hmembers) key⟩
  rintro id g c m ⟨group, hgroup, hcombinator, hm⟩
  refine ⟨group, ?_, hcombinator, hm⟩
  rw [groups_addGroup hparent hmembers]
  split
  · exact List.getElem?_append_left (List.getElem?_eq_some_iff.1 hgroup).1 ▸ hgroup
  · exact hgroup

theorem extends_addNode_addGroup (name : String) (hparent : parent < t.size) (hc : c.Valid) :
    Extends t ((t.addNode name).2.addGroup parent c [t.size]).2 := by
  have hnode := extends_addNode ht name
  refine hnode.trans (extends_addGroup hnode.sound ?_ hc ?_)
  · exact hparent.trans_le hnode.size_le
  · intro m hm
    rw [mem_singleton.1 hm]
    exact size_lt_addNode name

theorem extends_extendGroup (hparent : parent < t.size) (hm : m < t.size) :
    Extends t (t.extendGroup parent g m) := by
  have hstep : StepsTo AtLeast t (t.extendGroup parent g m) :=
    stepsTo_extendGroup ht.wellFormed hparent hm local_atLeast ht.kept
  have hmember : ∀ x ∈ [m], x < t.size := by simpa using hm
  have hown (id : NodeId) : ((t.extendGroup parent g m).node id).own = (t.node id).own :=
    own_modifyGroups hmember _
  refine ⟨⟨hstep.wellFormed, hstep.keptSatisfy⟩, le_of_eq (size_extendGroup hm).symm, ?_,
    fun key id => ownValue_congr (hown id) key⟩
  rintro id k c b ⟨group, hgroup, hcombinator, hb⟩
  rw [HasMember, groups_extendGroup hparent hm]
  split
  · rw [getElem?_modify, hgroup]
    by_cases hk : g = k
    · exact ⟨{ group with members := group.members ++ [m] }, by simp [hk], hcombinator,
        mem_append_left _ hb⟩
    · exact ⟨group, by simp [hk], hcombinator, hb⟩
  · exact ⟨group, hgroup, hcombinator, hb⟩

theorem extends_own {f : Tally → Tally} (hid : id < t.size) (hf : (f (t.node id).own).Valid)
    (hle : ∀ key, t.ownValue key id ≤ ((f (t.node id).own).get key).value) :
    Extends t ((t.modifyNode id fun n => { n with own := f n.own }).invalidate id) := by
  have hedit := edited_own ht.wellFormed hid hf
  have hstep := hedit.stepsTo hid local_atLeast ht.kept
  refine ⟨⟨hstep.wellFormed, hstep.keptSatisfy⟩, ?_, fun h => h.of_groups_eq ?_, ?_⟩
  · exact le_of_eq ((alike_invalidate _ id).size_eq.trans hedit.size_eq).symm
  · rw [(alike_invalidate _ id).groups_eq]
    exact groups_modifyOwn ..
  · intro key b
    rw [ownValue, ownValue, own_modifyOwn hid]
    split
    · rename_i hb
      rw [hb]
      exact hle key
    · exact le_rfl

theorem extends_increment (hid : id < t.size) (r : Resource) (n : Count) :
    Extends t (t.increment id r n) := by
  have hown := ht.wellFormed.own_valid id
  refine extends_own ht (f := fun own => own.increment r n) hid (Tally.valid_increment hown) ?_
  intro key
  rw [ownValue, Tally.get_increment hown]
  split
  · exact Count.le_value_add_left _ _
  · exact le_rfl

theorem extends_addUsage (hid : id < t.size) (husage : usage.Valid) :
    Extends t (t.addUsage id usage) := by
  unfold addUsage
  split
  · exact ht.extends
  · have hown := ht.wellFormed.own_valid id
    refine extends_own ht (f := fun own => own.sum usage) hid (Tally.valid_sum hown husage) ?_
    intro key
    rw [ownValue, Tally.get_sum hown husage]
    exact Count.le_value_add_left _ _

theorem add_le_ownValue_addUsage (hid : id < t.size) (husage : usage.Valid) (key : Resource) :
    t.ownValue key id + (usage.get key).value ≤ (t.addUsage id usage).ownValue key id := by
  unfold addUsage
  split
  · rename_i hempty
    rw [get_of_isEmpty hempty]
    exact le_of_eq (add_zero _)
  · have hown := ht.wellFormed.own_valid id
    rw [ownValue, ownValue, own_modifyOwn hid (fun own => own.sum usage), if_pos rfl,
      Tally.get_sum hown husage]
    exact Count.value_add_le _ _

theorem extends_aggregate (hid : id < t.size) : Extends t (t.aggregate id).2 := by
  have hstep := stepsTo_aggregate ht.wellFormed hid (scheme_atLeast ht.wellFormed) local_atLeast
    ht.kept
  have halike := (aggregate_spec ht.wellFormed (scheme_atLeast ht.wellFormed) ht.kept hid).1.1
  exact ⟨⟨hstep.wellFormed, hstep.keptSatisfy⟩, le_of_eq halike.size_eq.symm,
    fun h => h.of_groups_eq (halike.groups_eq _),
    fun key id => ownValue_congr (halike.own_eq id) key⟩

end RequirementTree

end SecureTape
