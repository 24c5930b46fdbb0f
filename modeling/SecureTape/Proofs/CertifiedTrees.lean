import SecureTape.Proofs.KeptAggregates

/-!
# Certified requirement trees

A tree that is only built and asked keeps right aggregates without empty entries. Main statements:
1. `Tally.Positive`: every entry of a tally counts something.
2. `RequirementTree.Demands`: a node or something below it needs a resource. Additions to a tree
   never undo that (`Demands.mono`).
3. `RequirementTree.Certified`: the aggregates that the tree keeps are right, and all entries count.
4. `Certified.mem_aggregate_iff`: an answer has an entry for a resource exactly if the node needs
   it.
5. `RequirementTree.Accrues`: what the operations that build a tree make of a certified tree.
-/

namespace SecureTape

open List

/-! ## Entries that count -/

variable {c : Combinator}

namespace Count

theorem add_ne_zero {a b : Count} (h : b ≠ .zero) : a.add b ≠ .zero := by
  intro hzero
  have hle := value_add_le a b
  rw [hzero] at hle
  exact h (value_injective (nonpos_iff_eq_zero.1 (le_add_self.trans hle)))

end Count

namespace Tally

variable {t u : Tally} {r : Resource} {n : Count}

/-- Every entry counts something. -/
def Positive (t : Tally) : Prop := ∀ e ∈ t.entries, e.2 ≠ .zero

theorem positive_empty : empty.Positive := by simp [Positive, empty]

theorem Positive.alter (ht : t.Positive) {f : Count → Count} (hf : ∀ n, f n ≠ .zero) :
    Positive ⟨alter r f t.entries⟩ := by
  intro e he
  rcases mem_alter he with he | ⟨-, heq | ⟨n, -, heq⟩⟩
  · exact ht e he
  · exact heq ▸ hf _
  · exact heq ▸ hf n

theorem Positive.increment (ht : t.Positive) : (t.increment r n).Positive := by
  unfold Tally.increment
  split
  · exact ht
  · rename_i hn
    exact ht.alter fun _ => Count.add_ne_zero fun hzero => hn (hzero ▸ rfl)

theorem Positive.foldl {β : Type} {step : Tally → β → Tally} {xs : List β} (ht : t.Positive)
    (hstep : ∀ t x, x ∈ xs → t.Positive → (step t x).Positive) : (xs.foldl step t).Positive := by
  induction xs generalizing t with
  | nil => exact ht
  | cons x xs ih =>
    exact ih (hstep t x (.head _) ht) fun t y hy => hstep t y (.tail _ hy)

theorem Positive.sum (ht : t.Positive) (u : Tally) : (t.sum u).Positive :=
  ht.foldl fun _ _ _ ht => ht.increment

theorem Positive.unbound (ht : t.Positive) : t.unbound.Positive := by
  intro e he
  obtain ⟨d, hd, rfl⟩ := mem_map.1 he
  have hne := ht d hd
  simp only
  split
  · exact hne
  · exact fun hzero => by cases hzero

/-- In a positive tally exactly the counts that are not zero have an entry. -/
theorem Positive.mem_entries_iff (hpos : t.Positive) (ht : t.Valid) :
    (r, n) ∈ t.entries ↔ t.get r = n ∧ n ≠ .zero := by
  obtain ⟨es⟩ := t
  obtain ⟨hsorted, -⟩ := ht
  induction es with
  | nil =>
    simp only [get, List.lookup, Option.getD_none, not_mem_nil, false_iff, not_and, not_not]
    exact fun h => h.symm
  | cons d es ih =>
    obtain ⟨hd, hes⟩ := pairwise_cons.1 hsorted
    have hrest := ih (fun e he => hpos e (.tail _ he)) hes
    obtain ⟨k, m⟩ := d
    rw [get_cons, mem_cons]
    by_cases hr : r = k
    · subst hr
      have hnot : (r, n) ∉ es := by
        intro hmem
        have hbefore := hd _ hmem
        rw [Resource.before_irrefl] at hbefore
        cases hbefore
      rw [if_pos rfl, or_iff_left hnot, Prod.mk.injEq]
      refine ⟨fun h => ⟨h.2.symm, h.2 ▸ hpos _ (.head _)⟩, fun h => ⟨rfl, h.1.symm⟩⟩
    · rw [if_neg hr, ← hrest]
      exact or_iff_right fun h => hr (congrArg Prod.fst h)

theorem Positive.mem_iff (hpos : t.Positive) (ht : t.Valid) :
    (∃ n, (r, n) ∈ t.entries) ↔ t.get r ≠ .zero := by
  simp only [hpos.mem_entries_iff ht, exists_eq_left']

theorem Positive.ext (htpos : t.Positive) (hupos : u.Positive) (ht : t.Valid) (hu : u.Valid)
    (h : ∀ r, t.get r = u.get r) : t = u := by
  have hmem : ∀ e, e ∈ t.entries ↔ e ∈ u.entries := by
    rintro ⟨r, n⟩
    rw [htpos.mem_entries_iff ht, hupos.mem_entries_iff hu, h]
  have hnodup {v : Tally} (hv : v.Valid) : v.entries.Nodup :=
    hv.sorted.imp fun hbefore heq => Resource.ne_of_before hbefore (congrArg Prod.fst heq)
  have hperm := (perm_ext_iff_of_nodup (hnodup ht) (hnodup hu)).2 hmem
  have hanti : ∀ a b : Resource × Count, a ∈ t.entries → b ∈ u.entries → a.1.before b.1 →
      b.1.before a.1 → a = b := by
    intro a b _ _ hab hba
    exact absurd rfl (Resource.ne_of_before (Resource.before_trans hab hba))
  cases t
  cases u
  exact congrArg Tally.mk (hperm.eq_of_pairwise hanti ht.sorted hu.sorted)

end Tally

namespace RequirementTree

variable {t t' t'' : RequirementTree} {a id m n parent : NodeId} {k : Tally} {key : Resource}

/-! ## Demands -/

/-- The node or something below it needs the resource. -/
def Demands (t : RequirementTree) (key : Resource) (id : NodeId) : Prop :=
  ∃ depth, t.approx key [] depth id ≠ 0

theorem Combinator.value_ne_zero_iff {vs : List ℕ∞} :
    c.value vs ≠ 0 ↔ c ≠ .times .zero ∧ ∃ v ∈ vs, v ≠ 0 := by
  have hsum : vs.sum ≠ 0 ↔ ∃ v ∈ vs, v ≠ 0 := by
    rw [Ne, sum_eq_zero_iff]
    push Not
    rfl
  cases c with
  | sum => simpa [Combinator.value] using hsum
  | max =>
    have hmax : vs.foldr Max.max 0 = 0 ↔ ∀ v ∈ vs, v = 0 := by
      clear hsum
      induction vs with
      | nil => simp
      | cons v vs ih => simp [ih]
    simpa [Combinator.value] using not_congr hmax
  | times n =>
    have hn : n.value = 0 ↔ n = .zero := ⟨fun h => Count.value_injective h, fun h => h ▸ rfl⟩
    simp only [Combinator.value, ne_eq, mul_eq_zero, not_or, hn, Combinator.times.injEq]
    exact and_congr_right fun _ => hsum

theorem groupsValue_ne_zero_iff {v : NodeId → ℕ∞} :
    t.groupsValue v id ≠ 0 ↔ ∃ g c m, t.HasMember id g c m ∧ c ≠ .times .zero ∧ v m ≠ 0 := by
  unfold groupsValue
  rw [Ne, sum_eq_zero_iff]
  constructor
  · intro h
    push Not at h
    obtain ⟨_, hmem, hne⟩ := h
    obtain ⟨group, hgroup, rfl⟩ := mem_map.1 hmem
    obtain ⟨hc, _, hv, hne⟩ := Combinator.value_ne_zero_iff.1 hne
    obtain ⟨m, hm, rfl⟩ := mem_map.1 hv
    obtain ⟨g, hg⟩ := mem_iff_getElem?.1 hgroup
    exact ⟨g, _, m, ⟨group, hg, rfl, hm⟩, hc, hne⟩
  · rintro ⟨g, c, m, ⟨group, hg, rfl, hm⟩, hc, hne⟩ hzero
    refine Combinator.value_ne_zero_iff.2 ⟨hc, v m, mem_map_of_mem hm, hne⟩ (hzero _ ?_)
    exact mem_map_of_mem (mem_of_getElem? hg)

theorem Demands.mono (h : t.Demands key id) (ht : Extends t t') : t'.Demands key id := by
  obtain ⟨depth, hdepth⟩ := h
  refine ⟨depth, ?_⟩
  induction depth generalizing id with
  | zero => exact absurd rfl hdepth
  | succ depth ih =>
    rw [approx_succ not_mem_nil] at hdepth ⊢
    intro hzero
    obtain ⟨hown', hgroups'⟩ := add_eq_zero.1 hzero
    have hown : t.ownValue key id = 0 := nonpos_iff_eq_zero.1 (hown' ▸ ht.own_le key id)
    have hgroups : t.groupsValue (t.approx key [] depth) id ≠ 0 := by
      intro hgroups
      exact hdepth (add_eq_zero.2 ⟨hown, hgroups⟩)
    obtain ⟨g, c, m, hm, hc, hne⟩ := groupsValue_ne_zero_iff.1 hgroups
    exact groupsValue_ne_zero_iff.2 ⟨g, c, m, ht.member hm, hc, ih hne⟩ hgroups'

theorem Counts.get_ne_zero_iff (h : t.Counts id k) : k.get key ≠ .zero ↔ t.Demands key id := by
  constructor
  · intro hne
    by_contra hneeds
    rw [Demands] at hneeds
    push Not at hneeds
    refine hne (h.2 key ?_)
    unfold least
    simp only [hneeds, iSup_const]
  · rintro ⟨depth, hdepth⟩ hzero
    have hle := h.1 key depth
    rw [hzero] at hle
    exact hdepth (nonpos_iff_eq_zero.1 hle)

/-! ## Certified trees -/

theorem scheme_positive (ht : ∀ id, (t.node id).own.Positive) :
    t.Scheme (fun _ k => k.Positive) fun _ _ r _ => r.Positive where
  kept _ hk := hk
  hit _ _ := Tally.positive_empty
  settle {active id parts} _ _ hparts := by
    have htotal : (parts.foldl (fun acc part => acc.sum part.1) (t.node id).own).Positive :=
      (ht id).foldl fun _ part _ ht => ht.sum part.1
    suffices h : (settle id (t.node id).own parts).1.Positive from ⟨h, fun _ => h⟩
    unfold settle
    dsimp only
    split
    · exact htotal.unbound
    · exact htotal

/-- The aggregates that the tree keeps are right, and all entries count. -/
structure Certified (t : RequirementTree) : Prop where
  faithful : t.Faithful
  own : ∀ id, (t.node id).own.Positive
  kept : KeptSatisfy (fun _ _ k => k.Positive) t

theorem local_positive : Local fun _ _ k => k.Positive := fun _ _ _ _ _ h => h

/-- The tree `t'` is certified and comes from `t` by additions. -/
structure Accrues (t t' : RequirementTree) : Prop where
  certified : t'.Certified
  extends_tree : Extends t t'
  groups : ∀ n, (t.node n).groups.length ≤ (t'.node n).groups.length

namespace Certified

theorem wellFormed (ht : t.Certified) : t.WellFormed := ht.faithful.tight.wellFormed

theorem sound (ht : t.Certified) : t.Sound :=
  ⟨ht.wellFormed, fun n k hk => ⟨(ht.faithful.kept n k hk).1.1, (ht.faithful.kept n k hk).2⟩⟩

theorem empty : RequirementTree.empty.Certified := by
  refine ⟨.empty, fun id => ?_, keptSatisfy_empty⟩
  rw [node_of_size_le id.zero_le]
  exact Tally.positive_empty

theorem mem_aggregate_iff (ht : t.Certified) (hid : id < t.size) :
    (∃ n, (key, n) ∈ (t.aggregate id).1.entries) ↔ t.Demands key id := by
  have hcounts := (ht.faithful.aggregate hid).kept id _ (ht.faithful.kept_aggregate_self hid)
  have hpositive := (aggregate_spec ht.wellFormed (scheme_positive ht.own) ht.kept hid).2
  have halike := ht.faithful.alike_aggregate hid
  have hlocal := local_counts _ t id _
    (fun m _ => ⟨(halike.own_eq m).symm, (halike.groups_eq m).symm⟩) hcounts.1
  exact (hpositive.mem_iff hcounts.2).trans hlocal.get_ne_zero_iff

theorem accrues (ht : t.Certified) : Accrues t t :=
  ⟨ht, ht.sound.extends, fun _ => le_rfl⟩

theorem of_changesAt (ht : t.Certified) (h : ChangesAt a t t') (hown : (t'.node a).own.Positive) :
    t'.Certified := by
  refine ⟨ht.faithful.changesAt h, fun id => ?_, h.keptSatisfy local_positive ht.kept⟩
  by_cases hid : id = a
  · exact hid ▸ hown
  · rw [h.own_eq id hid]
    exact ht.own id

end Certified

namespace Accrues

theorem trans (h : Accrues t t') (h' : Accrues t' t'') : Accrues t t'' :=
  ⟨h'.certified, h.extends_tree.trans h'.extends_tree,
    fun n => le_trans (h.groups n) (h'.groups n)⟩

theorem size_le (h : Accrues t t') : t.size ≤ t'.size := h.extends_tree.size_le

end Accrues

variable (ht : t.Certified)

include ht

theorem accrues_addNode (name : String) : Accrues t (t.addNode name).2 := by
  have hnode := fun id => node_addNode (t := t) name id
  have hkept := stepsTo_addNode name ht.wellFormed local_positive ht.kept
  refine ⟨⟨ht.faithful.addNode name, fun id => ?_, hkept.keptSatisfy⟩,
    extends_addNode ht.sound name, fun n => ?_⟩
  · rw [(hnode id).1]
    exact ht.own id
  · rw [(hnode n).2.1]

theorem accrues_addGroup (hparent : parent < t.size) (hc : c.Valid) {members : List NodeId}
    (hmembers : ∀ m ∈ members, m < t.size) : Accrues t (t.addGroup parent c members).2 := by
  refine ⟨ht.of_changesAt (changesAt_addGroup ht.faithful.tight hparent hc hmembers) ?_,
    extends_addGroup ht.sound hparent hc hmembers, fun n => ?_⟩
  · rw [own_addGroup hmembers]
    exact ht.own parent
  · rw [groups_addGroup hparent hmembers]
    split
    · rw [length_append]
      exact Nat.le_add_right _ _
    · exact le_rfl

theorem accrues_addNode_addGroup (name : String) (hparent : parent < t.size) (hc : c.Valid) :
    Accrues t ((t.addNode name).2.addGroup parent c [t.size]).2 := by
  have hnode := accrues_addNode ht name
  refine hnode.trans (accrues_addGroup hnode.certified ?_ hc ?_)
  · exact hparent.trans_le hnode.size_le
  · intro m hm
    rw [mem_singleton.1 hm]
    exact size_lt_addNode name

theorem accrues_extendGroup (hparent : parent < t.size) {g : Nat}
    (hg : g < (t.node parent).groups.length) (hm : m < t.size) :
    Accrues t (t.extendGroup parent g m) := by
  have hmember : ∀ x ∈ [m], x < t.size := by simpa using hm
  refine ⟨ht.of_changesAt (changesAt_extendGroup ht.faithful.tight hparent hg hm) ?_,
    extends_extendGroup ht.sound hparent hm, fun n => ?_⟩
  · have hown : ((t.extendGroup parent g m).node parent).own = (t.node parent).own :=
      own_modifyGroups hmember _
    rw [hown]
    exact ht.own parent
  · rw [groups_extendGroup hparent hm]
    split
    · rw [length_modify]
    · exact le_rfl

omit ht in
theorem groups_modifyOwn_invalidate (f : Tally → Tally) (id n : NodeId) :
    (((t.modifyNode id fun node => { node with own := f node.own }).invalidate id).node n).groups =
      (t.node n).groups := by
  rw [(alike_invalidate _ id).groups_eq]
  exact groups_modifyOwn ..

theorem accrues_increment (hid : id < t.size) (r : Resource) (n : Count) :
    Accrues t (t.increment id r n) := by
  refine ⟨ht.of_changesAt (changesAt_increment ht.faithful.tight hid r n) ?_,
    extends_increment ht.sound hid r n, fun n => ?_⟩
  · unfold increment
    rw [own_modifyOwn hid (·.increment r n), if_pos rfl]
    exact (ht.own id).increment
  · unfold increment
    rw [groups_modifyOwn_invalidate (·.increment r _)]

theorem accrues_addUsage (hid : id < t.size) {usage : Tally} (husage : usage.Valid) :
    Accrues t (t.addUsage id usage) := by
  have hextends := extends_addUsage ht.sound hid husage
  rcases addUsage_cases ht.faithful.tight hid husage with heq | hchanges
  · rw [heq]
    exact ht.accrues
  · unfold addUsage at hextends hchanges ⊢
    split
    · exact ht.accrues
    · rename_i hne
      rw [if_neg hne] at hextends hchanges
      refine ⟨ht.of_changesAt hchanges ?_, hextends, fun n => ?_⟩
      · rw [own_modifyOwn hid (·.sum usage), if_pos rfl]
        exact (ht.own id).sum usage
      · rw [groups_modifyOwn_invalidate (·.sum usage)]

theorem accrues_aggregate (hid : id < t.size) : Accrues t (t.aggregate id).2 := by
  have halike := ht.faithful.alike_aggregate hid
  have hkept := stepsTo_aggregate ht.wellFormed hid (scheme_positive ht.own) local_positive ht.kept
  refine ⟨⟨ht.faithful.aggregate hid, fun n => ?_, hkept.keptSatisfy⟩,
    extends_aggregate ht.sound hid, fun n => ?_⟩
  · rw [halike.own_eq]
    exact ht.own n
  · rw [halike.groups_eq]

end RequirementTree

end SecureTape
