import Mathlib
import SecureTape.Proofs.Requirements

/-!
# Calls on requirement trees

A requirement tree is built by calls that add nodes, groups and counts, between which aggregates
are asked for. Main statements:
1. `stepsTo_run`: a call keeps the tree well formed, lets its groups grow, and leaves only
   aggregates that still have their property.
2. `aggregate_satisfies`: a property of aggregates that agrees with how they come about holds of
   every answer after every sequence of calls.
-/

namespace SecureTape

open List List.Subset

variable {member : NodeId} {Q : List NodeId → NodeId → Tally → List NodeId → Prop}
  {C : RequirementTree → Prop}

inductive TreeCall where
  | addNode (name : String)
  | addScope (parent : NodeId) (name : String) (combinator : Combinator)
  | addGroup (parent : NodeId) (combinator : Combinator) (members : List NodeId)
  | extendGroup (parent : NodeId) (group : Nat) (member : NodeId)
  | increment (id : NodeId) (r : Resource) (n : Count)
  | addUsage (id : NodeId) (usage : Tally)
  | aggregate (id : NodeId)
  deriving Repr, DecidableEq

namespace TreeCall

def run : TreeCall → RequirementTree → RequirementTree
  | .addNode name, t => (t.addNode name).2
  | .addScope parent name combinator, t => (t.addScope parent name combinator).2
  | .addGroup parent combinator members, t => (t.addGroup parent combinator members).2
  | .extendGroup parent group member, t => t.extendGroup parent group member
  | .increment id r n, t => t.increment id r n
  | .addUsage id usage, t => t.addUsage id usage
  | .aggregate id, t => (t.aggregate id).2

/-- The call names nodes and groups that exist, and its counts are valid. -/
def Fits (t : RequirementTree) : TreeCall → Prop
  | .addNode _ => True
  | .addScope parent _ combinator => parent < t.size ∧ combinator.Valid
  | .addGroup parent combinator members =>
    parent < t.size ∧ combinator.Valid ∧ ∀ m ∈ members, m < t.size
  | .extendGroup parent group member =>
    parent < t.size ∧ group < (t.node parent).groups.length ∧ member < t.size
  | .increment id _ n => id < t.size ∧ n.Valid
  | .addUsage id usage => id < t.size ∧ usage.Valid
  | .aggregate id => id < t.size

instance (t : RequirementTree) : DecidablePred (Fits t)
  | .addNode _ => .isTrue trivial
  | .addScope _ _ _ => inferInstanceAs (Decidable (_ ∧ _))
  | .addGroup _ _ _ => inferInstanceAs (Decidable (_ ∧ _ ∧ _))
  | .extendGroup _ _ _ => inferInstanceAs (Decidable (_ ∧ _ ∧ _))
  | .increment _ _ _ => inferInstanceAs (Decidable (_ ∧ _))
  | .addUsage _ _ => inferInstanceAs (Decidable (_ ∧ _))
  | .aggregate _ => inferInstanceAs (Decidable (_ < _))

end TreeCall

namespace RequirementTree

def after (t : RequirementTree) (calls : List TreeCall) : RequirementTree :=
  calls.foldl (fun t call => call.run t) t

def FitAll (t : RequirementTree) : List TreeCall → Prop
  | [] => True
  | call :: calls => call.Fits t ∧ (call.run t).FitAll calls

def decidableFitAll (t : RequirementTree) : (calls : List TreeCall) → Decidable (t.FitAll calls)
  | [] => .isTrue trivial
  | call :: calls =>
    have := decidableFitAll (call.run t) calls
    inferInstanceAs (Decidable (call.Fits t ∧ (call.run t).FitAll calls))

instance (t : RequirementTree) (calls : List TreeCall) : Decidable (t.FitAll calls) :=
  decidableFitAll t calls

/-- Groups are only added, and only grow. -/
def Grows (t t' : RequirementTree) : Prop :=
  ∀ id g, g ∈ (t.node id).groups →
    ∃ g' ∈ (t'.node id).groups, g'.combinator = g.combinator ∧ g.members ⊆ g'.members

variable {t t' : RequirementTree} {a b id parent : NodeId}
  {P : RequirementTree → NodeId → Tally → Prop}

namespace Grows

theorem refl (t : RequirementTree) : t.Grows t :=
  fun _ g hg => ⟨g, hg, rfl, List.Subset.refl _⟩

theorem trans {t'' : RequirementTree} (h : t.Grows t') (h' : t'.Grows t'') : t.Grows t'' := by
  intro id g hg
  obtain ⟨g', hg', hc, hm⟩ := h id g hg
  obtain ⟨g'', hg'', hc', hm'⟩ := h' id g' hg'
  exact ⟨g'', hg'', hc'.trans hc, List.Subset.trans hm hm'⟩

theorem of_groups_eq (h : ∀ id, (t'.node id).groups = (t.node id).groups) : t.Grows t' :=
  fun id g hg => ⟨g, by rw [h]; exact hg, rfl, List.Subset.refl _⟩

theorem child (h : t.Grows t') (hedge : t.Child a b) : t'.Child a b := by
  obtain ⟨g, hg, hb⟩ := child_iff.1 hedge
  obtain ⟨g', hg', -, hm⟩ := h a g hg
  exact child_iff.2 ⟨g', hg', hm hb⟩

end Grows

/-- What a call that changes something does before aggregates are dropped: one node gets other
counts and groups, and its members learn of their parent. -/
structure Edited (t t' : RequirementTree) (p : NodeId) : Prop where
  wellFormed : t'.WellFormed
  size_eq : t'.size = t.size
  kept_eq : ∀ id, (t'.node id).kept = (t.node id).kept
  other : ∀ id, id ≠ p → (t'.node id).own = (t.node id).own ∧
    (t'.node id).groups = (t.node id).groups
  grows : t.Grows t'

def addParents (t : RequirementTree) (members : List NodeId) (parent : NodeId) : RequirementTree :=
  members.foldl (fun t m => t.addParent m parent) t

theorem addParents_spec (members : List NodeId) (t : RequirementTree) (parent : NodeId)
    (hmembers : ∀ m ∈ members, m < t.size) :
    (t.addParents members parent).size = t.size ∧ ∀ id,
      ((t.addParents members parent).node id).own = (t.node id).own ∧
      ((t.addParents members parent).node id).groups = (t.node id).groups ∧
      ((t.addParents members parent).node id).kept = (t.node id).kept ∧
      ∀ x, x ∈ ((t.addParents members parent).node id).parents ↔
        x ∈ (t.node id).parents ∨ id ∈ members ∧ x = parent := by
  induction members generalizing t with
  | nil => simp [addParents]
  | cons m members ih =>
    have hm : m < t.size := hmembers m (.head _)
    have hsize : (t.addParent m parent).size = t.size := size_modifyNode _
    obtain ⟨hs, hnode⟩ := ih (t.addParent m parent) fun x hx => by
      rw [hsize]
      exact hmembers x (.tail _ hx)
    refine ⟨hs.trans hsize, fun id => ?_⟩
    obtain ⟨hown, hgroups, hkept, hparents⟩ := hnode id
    by_cases hid : id = m
    · subst hid
      have hself : (t.addParent id parent).node id =
          { t.node id with parents := (t.node id).parents ++ [parent] } := node_modifyNode_self _ hm
      rw [hself] at hown hgroups hkept hparents
      refine ⟨hown, hgroups, hkept, fun x => (hparents x).trans ?_⟩
      simp only [mem_append, mem_cons]
      tauto
    · have hother : (t.addParent m parent).node id = t.node id := node_modifyNode_of_ne _ hid
      rw [hother] at hown hgroups hkept hparents
      refine ⟨hown, hgroups, hkept, fun x => (hparents x).trans ?_⟩
      simp [hid]

variable {members : List NodeId} {combinator : Combinator} {calls : List TreeCall}

theorem edited_groups (ht : t.WellFormed) (hparent : parent < t.size)
    (hmembers : ∀ m ∈ members, m < t.size) {f : List RequirementGroup → List RequirementGroup}
    (hchild : ∀ g ∈ f (t.node parent).groups, ∀ b ∈ g.members, t.Child parent b ∨ b ∈ members)
    (hvalid : ∀ g ∈ f (t.node parent).groups, g.combinator.Valid)
    (hgrows : ∀ g ∈ (t.node parent).groups, ∃ g' ∈ f (t.node parent).groups,
      g'.combinator = g.combinator ∧ g.members ⊆ g'.members) :
    t.Edited ((t.addParents members parent).modifyNode parent
      fun n => { n with groups := f n.groups }) parent := by
  obtain ⟨hsize, hnode⟩ := addParents_spec members t parent hmembers
  generalize t.addParents members parent = u at hsize hnode
  have hlt : parent < u.size := by rw [hsize]; exact hparent
  have hself := node_modifyNode_self (t := u) (fun n => { n with groups := f n.groups }) hlt
  have hother : ∀ id, id ≠ parent →
      (u.modifyNode parent fun n => { n with groups := f n.groups }).node id = u.node id :=
    fun id hid => node_modifyNode_of_ne _ hid
  have hsize' : (u.modifyNode parent fun n => { n with groups := f n.groups }).size = t.size :=
    (size_modifyNode _).trans hsize
  generalize (u.modifyNode parent fun n => { n with groups := f n.groups }) = t' at *
  have hown : ∀ id, (t'.node id).own = (t.node id).own := by
    intro id
    by_cases hid : id = parent
    · rw [hid, hself]; exact (hnode parent).1
    · rw [hother id hid]; exact (hnode id).1
  have hparents : ∀ id x, x ∈ (t'.node id).parents ↔
      x ∈ (t.node id).parents ∨ id ∈ members ∧ x = parent := by
    intro id
    by_cases hid : id = parent
    · rw [hid, hself]; exact (hnode parent).2.2.2
    · rw [hother id hid]; exact (hnode id).2.2.2
  have hgroups : (t'.node parent).groups = f (t.node parent).groups := by
    rw [hself, ← (hnode parent).2.1]
  have hgroups' : ∀ id, id ≠ parent → (t'.node id).groups = (t.node id).groups := by
    intro id hid
    rw [hother id hid]
    exact (hnode id).2.1
  have hedge : ∀ {a b}, t'.Child a b → t.Child a b ∨ a = parent ∧ b ∈ members := by
    intro a b h
    by_cases ha : a = parent
    · subst ha
      obtain ⟨g, hg, hb⟩ := child_iff.1 h
      rw [hgroups] at hg
      exact (hchild g hg b hb).imp_right fun hb => ⟨rfl, hb⟩
    · left
      rwa [Child, children, hgroups' a ha] at h
  refine ⟨⟨?_, ?_, ?_, ?_, ?_⟩, hsize', ?_, fun id hid => ⟨hown id, hgroups' id hid⟩, ?_⟩
  · intro a b h
    rw [hsize']
    rcases hedge h with h | ⟨-, h⟩
    · exact ht.child_lt h
    · exact hmembers b h
  · intro a b h
    rw [hsize']
    rcases (hparents a b).1 h with h | ⟨-, rfl⟩
    · exact ht.parent_lt h
    · exact hparent
  · intro a b h
    refine (hparents b a).2 ?_
    rcases hedge h with h | ⟨rfl, h⟩
    · exact .inl (ht.parent_mem h)
    · exact .inr ⟨h, rfl⟩
  · intro a
    rw [hown]
    exact ht.own_valid a
  · intro a g hg
    by_cases ha : a = parent
    · rw [ha, hgroups] at hg
      exact hvalid g hg
    · rw [hgroups' a ha] at hg
      exact ht.combinator_valid hg
  · intro id
    by_cases hid : id = parent
    · rw [hid, hself]; exact (hnode parent).2.2.1
    · rw [hother id hid]; exact (hnode id).2.2.1
  · intro id g hg
    by_cases hid : id = parent
    · rw [hid] at hg ⊢
      rw [hgroups]
      exact hgrows g hg
    · exact ⟨g, by rw [hgroups' id hid]; exact hg, rfl, refl _⟩

theorem edited_own (ht : t.WellFormed) (hid : id < t.size) {f : Tally → Tally}
    (hf : (f (t.node id).own).Valid) :
    t.Edited (t.modifyNode id fun n => { n with own := f n.own }) id := by
  have hself := node_modifyNode_self (t := t) (fun n => { n with own := f n.own }) hid
  have hother : ∀ b, b ≠ id →
      (t.modifyNode id fun n => { n with own := f n.own }).node b = t.node b :=
    fun b hb => node_modifyNode_of_ne _ hb
  have hsize : (t.modifyNode id fun n => { n with own := f n.own }).size = t.size :=
    size_modifyNode _
  generalize (t.modifyNode id fun n => { n with own := f n.own }) = t' at *
  have hsame : ∀ b, (t'.node b).groups = (t.node b).groups ∧
      (t'.node b).parents = (t.node b).parents ∧ (t'.node b).kept = (t.node b).kept := by
    intro b
    by_cases hb : b = id
    · rw [hb, hself]; exact ⟨rfl, rfl, rfl⟩
    · rw [hother b hb]; exact ⟨rfl, rfl, rfl⟩
  have hedge : ∀ {a b}, t'.Child a b ↔ t.Child a b := by
    intro a b
    rw [Child, Child, children, children, (hsame a).1]
  refine ⟨⟨?_, ?_, ?_, ?_, ?_⟩, hsize, fun b => (hsame b).2.2, ?_, ?_⟩
  · intro a b h
    rw [hsize]
    exact ht.child_lt (hedge.1 h)
  · intro a b h
    rw [(hsame a).2.1] at h
    rw [hsize]
    exact ht.parent_lt h
  · intro a b h
    rw [(hsame b).2.1]
    exact ht.parent_mem (hedge.1 h)
  · intro a
    by_cases ha : a = id
    · rw [ha, hself]; exact hf
    · rw [hother a ha]; exact ht.own_valid a
  · intro a g hg
    rw [(hsame a).1] at hg
    exact ht.combinator_valid hg
  · intro b hb
    rw [hother b hb]
    exact ⟨rfl, rfl⟩
  · exact .of_groups_eq fun b => (hsame b).1

/-- What a call keeps: the tree stays well formed, groups only grow, and aggregates that survive
still have their property. -/
structure StepsTo (P : RequirementTree → NodeId → Tally → Prop) (t t' : RequirementTree) : Prop where
  wellFormed : t'.WellFormed
  grows : t.Grows t'
  keptSatisfy : KeptSatisfy P t'

theorem Edited.stepsTo {p : NodeId} (h : t.Edited t' p) (hp : p < t.size) (hlocal : Local P)
    (hkept : KeptSatisfy P t) : StepsTo P t (t'.invalidate p) where
  wellFormed := (alike_invalidate t' p).wellFormed h.wellFormed
  grows := h.grows.trans (.of_groups_eq (alike_invalidate t' p).groups_eq)
  keptSatisfy :=
    hkept.invalidate hlocal h.wellFormed (by rw [h.size_eq]; exact hp) h.kept_eq h.other

theorem size_addNode (name : String) : (t.addNode name).2.size = t.size + 1 := by
  simp [addNode, size]

theorem node_addNode (name : String) (id : NodeId) :
    ((t.addNode name).2.node id).own = (t.node id).own ∧
    ((t.addNode name).2.node id).groups = (t.node id).groups ∧
    ((t.addNode name).2.node id).parents = (t.node id).parents ∧
    ((t.addNode name).2.node id).kept = (t.node id).kept := by
  by_cases hid : id = t.size
  · rw [node_of_size_le (t := t) hid.ge]
    subst hid
    simp only [addNode, node, size, Array.getD_eq_getD_getElem?, Array.getElem?_push]
    exact ⟨rfl, rfl, rfl, rfl⟩
  · have hne : id ≠ t.nodes.size := hid
    simp [addNode, node, Array.getD_eq_getD_getElem?, Array.getElem?_push, hne]

theorem stepsTo_addNode (name : String) (ht : t.WellFormed) (hlocal : Local P)
    (hkept : KeptSatisfy P t) : StepsTo P t (t.addNode name).2 := by
  have hnode := fun id => node_addNode (t := t) name id
  have hsize := size_addNode (t := t) name
  generalize (t.addNode name).2 = t' at hnode hsize
  have hedge : ∀ {a b}, t'.Child a b ↔ t.Child a b := by
    intro a b
    rw [Child, Child, children, children, (hnode a).2.1]
  refine ⟨⟨?_, ?_, ?_, ?_, ?_⟩, .of_groups_eq fun id => (hnode id).2.1, ?_⟩
  · intro a b h
    rw [hsize]
    exact Nat.lt_succ_of_lt (ht.child_lt (hedge.1 h))
  · intro a b h
    rw [(hnode a).2.2.1] at h
    rw [hsize]
    exact Nat.lt_succ_of_lt (ht.parent_lt h)
  · intro a b h
    rw [(hnode b).2.2.1]
    exact ht.parent_mem (hedge.1 h)
  · intro a
    rw [(hnode a).1]
    exact ht.own_valid a
  · intro a g hg
    rw [(hnode a).2.1] at hg
    exact ht.combinator_valid hg
  · intro id k hk
    rw [(hnode id).2.2.2] at hk
    obtain ⟨hP, hvalid⟩ := hkept id k hk
    exact ⟨hlocal t t' id k (fun m _ => ⟨(hnode m).1, (hnode m).2.1⟩) hP, hvalid⟩

theorem edited_addGroup (ht : t.WellFormed) (hparent : parent < t.size)
    (hcombinator : combinator.Valid) (hmembers : ∀ m ∈ members, m < t.size) :
    t.Edited ((t.addParents members parent).modifyNode parent
      fun n => { n with groups := n.groups ++ [⟨combinator, members⟩] }) parent := by
  refine edited_groups ht hparent hmembers (f := fun gs => gs ++ [⟨combinator, members⟩]) ?_ ?_ ?_
  · intro g hg b hb
    rcases mem_append.1 hg with hg | hg
    · exact .inl (child_iff.2 ⟨g, hg, hb⟩)
    · rw [mem_singleton.1 hg] at hb
      exact .inr hb
  · intro g hg
    rcases mem_append.1 hg with hg | hg
    · exact ht.combinator_valid hg
    · rw [mem_singleton.1 hg]
      exact hcombinator
  · exact fun g hg => ⟨g, mem_append_left _ hg, rfl, refl _⟩

theorem stepsTo_addGroup (ht : t.WellFormed) (hparent : parent < t.size)
    (hcombinator : combinator.Valid) (hmembers : ∀ m ∈ members, m < t.size) (hlocal : Local P)
    (hkept : KeptSatisfy P t) :
    StepsTo P t (t.addGroup parent combinator members).2 :=
  (edited_addGroup ht hparent hcombinator hmembers).stepsTo hparent hlocal hkept

theorem edited_extendGroup (ht : t.WellFormed) (group : Nat) (hparent : parent < t.size)
    (hmember : member < t.size) :
    t.Edited ((t.addParents [member] parent).modifyNode parent fun n => { n with
      groups := n.groups.modify group fun g => { g with members := g.members ++ [member] } })
      parent := by
  have hmem : ∀ g, g ∈ (t.node parent).groups.modify group
      (fun g => { g with members := g.members ++ [member] }) →
      ∃ g' ∈ (t.node parent).groups, g.combinator = g'.combinator ∧
        g.members ⊆ g'.members ++ [member] := by
    intro g hg
    obtain ⟨i, hi⟩ := mem_iff_getElem?.1 hg
    rw [getElem?_modify] at hi
    obtain ⟨g', hg', rfl⟩ := Option.map_eq_some_iff.1 hi
    refine ⟨g', mem_of_getElem? hg', ?_⟩
    split
    · exact ⟨rfl, refl _⟩
    · exact ⟨rfl, subset_append_left _ _⟩
  refine edited_groups ht hparent (by simpa using hmember)
    (f := fun gs => gs.modify group fun g => { g with members := g.members ++ [member] }) ?_ ?_ ?_
  · intro g hg b hb
    obtain ⟨g', hg', -, hsub⟩ := hmem g hg
    rcases mem_append.1 (hsub hb) with hb | hb
    · exact .inl (child_iff.2 ⟨g', hg', hb⟩)
    · exact .inr hb
  · intro g hg
    obtain ⟨g', hg', hc, -⟩ := hmem g hg
    rw [hc]
    exact ht.combinator_valid hg'
  · intro g hg
    obtain ⟨i, hi⟩ := mem_iff_getElem?.1 hg
    refine ⟨_, mem_of_getElem? (i := i) (by rw [getElem?_modify, hi]; rfl), ?_⟩
    split
    · exact ⟨rfl, subset_append_left _ _⟩
    · exact ⟨rfl, refl _⟩

theorem stepsTo_extendGroup {group : Nat} (ht : t.WellFormed) (hparent : parent < t.size)
    (hmember : member < t.size) (hlocal : Local P) (hkept : KeptSatisfy P t) :
    StepsTo P t (t.extendGroup parent group member) :=
  (edited_extendGroup ht group hparent hmember).stepsTo hparent hlocal hkept

theorem stepsTo_addScope (name : String) (ht : t.WellFormed) (hparent : parent < t.size)
    (hcombinator : combinator.Valid) (hlocal : Local P) (hkept : KeptSatisfy P t) :
    StepsTo P t (t.addScope parent name combinator).2 := by
  have hsize := size_addNode (t := t) name
  have hnode := stepsTo_addNode name ht hlocal hkept
  have hgroup : StepsTo P (t.addNode name).2
      ((t.addNode name).2.addGroup parent combinator [t.size]).2 := by
    refine stepsTo_addGroup hnode.wellFormed ?_ hcombinator ?_ hlocal hnode.keptSatisfy
    · rw [hsize]
      exact Nat.lt_succ_of_lt hparent
    · simp [hsize]
  exact ⟨hgroup.wellFormed, hnode.grows.trans hgroup.grows, hgroup.keptSatisfy⟩

theorem stepsTo_aggregate (ht : t.WellFormed) (hid : id < t.size) (hs : t.Scheme (P t) Q)
    (hlocal : Local P) (hkept : KeptSatisfy P t) : StepsTo P t (t.aggregate id).2 := by
  obtain ⟨⟨halike, hkept'⟩, -⟩ := aggregate_spec ht hs hkept hid
  refine ⟨halike.wellFormed ht, .of_groups_eq halike.groups_eq, fun b k hb => ?_⟩
  obtain ⟨hP, hvalid⟩ := hkept' b k hb
  exact ⟨hlocal t _ b k (fun m _ => ⟨halike.own_eq m, halike.groups_eq m⟩) hP, hvalid⟩

theorem stepsTo_run {call : TreeCall} (hfit : call.Fits t) (ht : t.WellFormed)
    (hs : t.Scheme (P t) Q) (hlocal : Local P) (hkept : KeptSatisfy P t) :
    StepsTo P t (call.run t) := by
  cases call with
  | addNode name => exact stepsTo_addNode name ht hlocal hkept
  | addScope parent name combinator =>
    exact stepsTo_addScope name ht hfit.1 hfit.2 hlocal hkept
  | addGroup parent combinator members =>
    exact stepsTo_addGroup ht hfit.1 hfit.2.1 hfit.2.2 hlocal hkept
  | extendGroup parent group member =>
    exact stepsTo_extendGroup ht hfit.1 hfit.2.2 hlocal hkept
  | increment id r n =>
    have hedit := edited_own ht hfit.1 (f := fun own => own.increment r n)
      (Tally.valid_increment (ht.own_valid id))
    exact hedit.stepsTo hfit.1 hlocal hkept
  | addUsage id usage =>
    show StepsTo P t (t.addUsage id usage)
    unfold addUsage
    split
    · exact ⟨ht, .refl t, hkept⟩
    · have hedit := edited_own ht hfit.1 (f := fun own => own.sum usage)
        (Tally.valid_sum (ht.own_valid id) hfit.2)
      exact hedit.stepsTo hfit.1 hlocal hkept
  | aggregate id => exact stepsTo_aggregate ht hfit hs hlocal hkept

theorem scheme_true : t.Scheme (fun _ _ => True) fun _ _ _ _ => True :=
  ⟨fun _ _ => trivial, fun _ _ => trivial, fun _ _ _ => ⟨trivial, fun _ => trivial⟩⟩

theorem wellFormed_empty : empty.WellFormed := by
  have hnode : ∀ id, empty.node id = default := fun id => node_of_size_le id.zero_le
  have hedge : ∀ {a b}, ¬ empty.Child a b := fun h => absurd (lt_size_of_child h) (Nat.not_lt_zero _)
  refine ⟨fun h => absurd h hedge, ?_, fun h => absurd h hedge, ?_, ?_⟩
  · intro a b h
    rw [hnode] at h
    exact absurd h not_mem_nil
  · intro a
    rw [hnode]
    exact Tally.valid_empty
  · intro a g h
    rw [hnode] at h
    exact absurd h not_mem_nil

theorem keptSatisfy_empty : KeptSatisfy P empty := by
  intro id k h
  rw [node_of_size_le id.zero_le] at h
  cases h

theorem wellFormed_after (ht : t.WellFormed) (hkept : KeptSatisfy (fun _ _ _ => True) t)
    (hfit : t.FitAll calls) : (t.after calls).WellFormed ∧ t.Grows (t.after calls) := by
  induction calls generalizing t with
  | nil => exact ⟨ht, .refl t⟩
  | cons call calls ih =>
    have hstep := stepsTo_run hfit.1 ht scheme_true (fun _ _ _ _ _ _ => trivial) hkept
    obtain ⟨hwf, hgrows⟩ := ih hstep.wellFormed hstep.keptSatisfy hfit.2
    exact ⟨hwf, hstep.grows.trans hgrows⟩

variable (hlocal : Local P)
  (hscheme : ∀ t : RequirementTree, t.WellFormed → C t → ∃ Q, t.Scheme (P t) Q)
  (hclosed : ∀ t t' : RequirementTree, t.Grows t' → C t' → C t)

include hlocal hscheme hclosed

theorem keptSatisfy_after (ht : t.WellFormed)
    (hkept : KeptSatisfy P t) (hfit : t.FitAll calls) (hC : C (t.after calls)) :
    KeptSatisfy P (t.after calls) := by
  induction calls generalizing t with
  | nil => exact hkept
  | cons call calls ih =>
    have hvalid : KeptSatisfy (fun _ _ _ => True) t :=
      fun id k hk => ⟨trivial, (hkept id k hk).2⟩
    have hgrows := (wellFormed_after ht hvalid hfit).2
    obtain ⟨Q, hs⟩ := hscheme t ht (hclosed t _ hgrows hC)
    have hstep := stepsTo_run hfit.1 ht hs hlocal hkept
    exact ih hstep.wellFormed hstep.keptSatisfy hfit.2 hC

theorem aggregate_satisfies (hfit : empty.FitAll calls)
    (hcalls : empty.after calls = t) (hC : C t) (hid : id < t.size) :
    P t id (t.aggregate id).1 := by
  subst hcalls
  have hwf := (wellFormed_after wellFormed_empty keptSatisfy_empty hfit).1
  have hkept := keptSatisfy_after hlocal hscheme hclosed wellFormed_empty keptSatisfy_empty hfit hC
  obtain ⟨Q, hs⟩ := hscheme _ hwf hC
  exact (aggregate_spec hwf hs hkept hid).2

end RequirementTree

end SecureTape
