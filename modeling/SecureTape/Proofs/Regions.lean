import Mathlib
import SecureTape.Block
import SecureTape.Proofs.LeastRequirements

/-!
# Regions of code

The blocks of a tape form regions: what lies between the start of a loop, a branch or the tape and
its end. Each region is charged to a requirement node, and each loop, branch and call in it to a
group of that node. Main statements:
1. `Flow.Region.traverse`: a path through a region costs no more than its blocks and groups are
   charged, if no loop runs more often than it is declared to.
2. `Flow.Whole.cost_le`: a path through all the code of a tape costs no more than its root needs.
-/

namespace SecureTape

open List Function

/-- The loop that is closed by the jump at `close` runs at most `n` times whenever it is entered,
along a path through positions of the code; it has run `done` times since it was entered. It is left
where control goes on behind the jump. -/
def Repeats (n : ℕ∞) (close : Nat) : Nat → List Nat → Prop
  | _, [] => True
  | done, x :: path =>
    if x = close then done + 1 ≤ n ∧
      Repeats n close (if path.head? = some (close + 1) then 0 else done + 1) path
    else Repeats n close done path

theorem repeats_cons_of_ne {n : ℕ∞} {close done x : Nat} {path : List Nat} (h : x ≠ close) :
    Repeats n close done (x :: path) ↔ Repeats n close done path := by
  rw [Repeats, if_neg h]

theorem repeats_cons_self {n : ℕ∞} {close done : Nat} {path : List Nat} :
    Repeats n close done (close :: path) ↔ done + 1 ≤ n ∧
      Repeats n close (if path.head? = some (close + 1) then 0 else done + 1) path := by
  rw [Repeats, if_pos rfl]

theorem repeats_append_of_not_mem {n : ℕ∞} {close done : Nat} {front rest : List Nat}
    (h : close ∉ front) : Repeats n close done (front ++ rest) ↔ Repeats n close done rest := by
  induction front with
  | nil => rfl
  | cons x front ih =>
    rw [mem_cons, not_or] at h
    rw [cons_append, repeats_cons_of_ne (Ne.symm h.1), ih h.2]

theorem repeats_of_not_mem {n : ℕ∞} {close done : Nat} {path : List Nat} (h : close ∉ path) :
    Repeats n close done path := by
  rw [← append_nil path, repeats_append_of_not_mem h]
  trivial

namespace RequirementTree

variable {t t' : RequirementTree} {id m : NodeId} {g : Nat} {c : Combinator}

def HasMember (t : RequirementTree) (id : NodeId) (g : Nat) (c : Combinator) (m : NodeId) : Prop :=
  ∃ group, (t.node id).groups[g]? = some group ∧ group.combinator = c ∧ m ∈ group.members

/-- What group number `g` of a node needs if each node needs what `v` says. -/
noncomputable def groupValue (t : RequirementTree) (v : NodeId → ℕ∞) (id : NodeId) (g : Nat) : ℕ∞ :=
  ((t.node id).groups[g]?.map fun group => group.combinator.value (group.members.map v)).getD 0

theorem HasMember.le_groupValue {v : NodeId → ℕ∞} (h : t.HasMember id g c m) (hc : c ≠ .times .zero) :
    v m ≤ t.groupValue v id g := by
  obtain ⟨group, hgroup, hcombinator, hm⟩ := h
  rw [groupValue, hgroup]
  exact Combinator.le_value (hcombinator ▸ hc) (mem_map_of_mem hm)

theorem HasMember.mul_le_groupValue {v : NodeId → ℕ∞} {n : Count}
    (h : t.HasMember id g (.times n) m) : n.value * v m ≤ t.groupValue v id g := by
  obtain ⟨group, hgroup, hcombinator, hm⟩ := h
  rw [groupValue, hgroup, Option.map_some, Option.getD_some, hcombinator]
  exact mul_le_mul_right (le_sum_of_mem (mem_map_of_mem hm)) _

/-- Different groups need no more than all groups together. -/
theorem sum_groupValue_le (v : NodeId → ℕ∞) {gs : List Nat} (h : gs.Nodup) :
    (gs.map (t.groupValue v id)).sum ≤ t.groupsValue v id := by
  have hgetD (xs : List ℕ∞) (hgs : gs.Nodup) : (gs.map fun g => xs[g]?.getD 0).sum ≤ xs.sum := by
    have hsum : xs.sum = ∑ i ∈ Finset.range xs.length, xs[i]?.getD 0 := by
      induction xs with
      | nil => rfl
      | cons x xs ih =>
        rw [length_cons, Finset.sum_range_succ', sum_cons, ih, add_comm]
        rfl
    rw [← sum_toFinset _ hgs, hsum]
    have houtside (i : Nat) (hi : i ∉ Finset.range xs.length) : xs[i]?.getD 0 = 0 := by
      rw [getElem?_eq_none (by simpa using hi)]
      rfl
    calc ∑ g ∈ gs.toFinset, xs[g]?.getD 0
      _ ≤ ∑ g ∈ gs.toFinset ∪ Finset.range xs.length, xs[g]?.getD 0 :=
        Finset.sum_le_sum_of_subset Finset.subset_union_left
      _ = ∑ i ∈ Finset.range xs.length, xs[i]?.getD 0 :=
        (Finset.sum_subset Finset.subset_union_right fun i _ hi => houtside i hi).symm
  refine le_of_eq_of_le (congrArg List.sum (map_congr_left fun g _ => ?_)) (hgetD _ h)
  rw [groupValue, getElem?_map]

end RequirementTree

open RequirementTree

/-! ## Flow of control -/

/-- What the way of control through a tape depends on, and what its blocks are charged to: their
exits, their requirement nodes, and the requirement roots of the tapes they call. -/
structure Flow where
  exit : BlockId → Option Exit
  node : BlockId → NodeId
  calls : BlockId → List NodeId

namespace Flow

variable {s : Flow} {t : RequirementTree} {bound : BlockId → Count → Prop}

def Goes (s : Flow) (x y : BlockId) : Prop :=
  match s.exit x with
  | none => y = x + 1
  | some ⟨kind, target⟩ => target = some y ∨ kind ≠ .always ∧ y = x + 1

/-- The blocks of `path` are passed on a way from the start of a block to the end of the code. -/
def Leads (s : Flow) (stop : BlockId) : BlockId → List BlockId → Prop
  | x, [] => x = stop
  | x, y :: path => y = x ∧ x < stop ∧ ∃ next, s.Goes x next ∧ s.Leads stop next path

/-- The block jumps back to the head of a loop. -/
def Closes (s : Flow) (e head : BlockId) : Prop :=
  ∃ cond, s.exit e = some ⟨.ifNonZero cond, some head⟩

/-- No loop runs more often than declared along the path, when it has run `done` times already. -/
def Within (s : Flow) (bound : BlockId → Count → Prop) (done : BlockId → Nat)
    (path : List BlockId) : Prop :=
  ∀ e head n, bound head n → s.Closes e head → Repeats n.value e (done e) path

/-- The block is charged to the node, and its calls to groups of that node. -/
structure Level (s : Flow) (t : RequirementTree) (id : NodeId) (b : BlockId) (gs : List Nat) :
    Prop where
  node : s.node b = id
  calls : List.Forall₂ (fun root g => t.HasMember id g .sum root) (s.calls b) gs

/-- Control that enters at block `a` arrives at block `e`, both on the level of the node. The blocks
`bs` of that level are left behind, and `gs` are the groups of the node that calls, loops and
branches between the two are charged to. -/
inductive Region (s : Flow) (t : RequirementTree) (bound : BlockId → Count → Prop) :
    NodeId → BlockId → BlockId → List BlockId → List Nat → Prop
  | start (node : NodeId) (a : BlockId) : Region s t bound node a a [] []
  | next {node : NodeId} {a b : BlockId} {bs : List BlockId} {gs calls : List Nat}
      (h : Region s t bound node a b bs gs) (hb : s.Level t node b calls) (hexit : s.exit b = none) :
      Region s t bound node a (b + 1) (b :: bs) (calls ++ gs)
  | loop {node inner : NodeId} {a b e : BlockId} {bs bs' : List BlockId}
      {gs gs' calls calls' : List Nat} {g : Nat} {n : Count}
      (h : Region s t bound node a b bs gs) (hb : s.Level t node b calls) (hexit : s.exit b = none)
      (hbody : Region s t bound inner (b + 1) e bs' gs') (he : s.Level t inner e calls')
      (hnodup : (calls' ++ gs').Nodup) (hclose : s.Closes e (b + 1)) (hbound : bound (b + 1) n)
      (hgroup : t.HasMember node g (.times n) inner) :
      Region s t bound node a (e + 1) (b :: bs) (g :: (calls ++ gs))
  | branch {node inner : NodeId} {a b e : BlockId} {bs bs' : List BlockId}
      {gs gs' calls calls' : List Nat} {g : Nat} {cond : Reg}
      (h : Region s t bound node a b bs gs) (hb : s.Level t node b calls)
      (hexit : s.exit b = some ⟨.ifZero cond, some (e + 1)⟩)
      (hbody : Region s t bound inner (b + 1) e bs' gs') (he : s.Level t inner e calls')
      (hnodup : (calls' ++ gs').Nodup) (hend : s.exit e = none)
      (hgroup : t.HasMember node g .max inner) :
      Region s t bound node a (e + 1) (b :: bs) (g :: (calls ++ gs))
  | alternative {node inner inner' : NodeId} {a b e f : BlockId} {bs bs' bs'' : List BlockId}
      {gs gs' gs'' calls calls' calls'' : List Nat} {g : Nat} {cond : Reg}
      (h : Region s t bound node a b bs gs) (hb : s.Level t node b calls)
      (hexit : s.exit b = some ⟨.ifZero cond, some (e + 1)⟩)
      (hbody : Region s t bound inner (b + 1) e bs' gs') (he : s.Level t inner e calls')
      (hnodup : (calls' ++ gs').Nodup) (hend : s.exit e = some ⟨.always, some (f + 1)⟩)
      (hbody' : Region s t bound inner' (e + 1) f bs'' gs'') (hf : s.Level t inner' f calls'')
      (hnodup' : (calls'' ++ gs'').Nodup) (hend' : s.exit f = none)
      (hgroup : t.HasMember node g .max inner) (hgroup' : t.HasMember node g .max inner') :
      Region s t bound node a (f + 1) (b :: bs) (g :: (calls ++ gs))

namespace Region

variable {node : NodeId} {a e : BlockId} {bs : List BlockId} {gs : List Nat}

theorem le (h : Region s t bound node a e bs gs) : a ≤ e := by
  induction h with
  | start => exact le_rfl
  | next _ _ _ ih => exact Nat.le_succ_of_le ih
  | loop _ _ _ _ _ _ _ _ _ ih ih' => exact Nat.le_succ_of_le (ih.trans (Nat.le_of_succ_le ih'))
  | branch _ _ _ _ _ _ _ _ ih ih' =>
    exact Nat.le_succ_of_le (ih.trans (Nat.le_of_succ_le ih'))
  | alternative _ _ _ _ _ _ _ _ _ _ _ _ _ ih ih' ih'' =>
    have hle := le_trans (Nat.le_of_succ_le ih') (Nat.le_of_succ_le ih'')
    exact Nat.le_succ_of_le (ih.trans hle)

/-- If control jumps at the end of block `x`, then to block `e` or one in front of it; a loop goes
back. -/
def Stays (s : Flow) (e x : BlockId) : Prop :=
  ∀ kind target, s.exit x = some ⟨kind, target⟩ →
    ∃ y, target = some y ∧ y ≤ e ∧ ∀ cond, kind = .ifNonZero cond → y ≤ x

theorem Stays.mono {e' x : BlockId} (h : Stays s e x) (hle : e ≤ e') : Stays s e' x := by
  intro kind target hexit
  obtain ⟨y, htarget, hy, hback⟩ := h kind target hexit
  exact ⟨y, htarget, hy.trans hle, hback⟩

theorem stays_of_none {x : BlockId} (hexit : s.exit x = none) : Stays s e x := by
  intro kind target h
  cases hexit.symm.trans h

theorem stays_of_exit {x y : BlockId} {kind : ExitKind} (hexit : s.exit x = some ⟨kind, some y⟩)
    (hy : y ≤ e) (hback : ∀ cond, kind = .ifNonZero cond → y ≤ x) : Stays s e x := by
  intro kind' target h
  cases hexit.symm.trans h
  exact ⟨y, rfl, hy, hback⟩

theorem place_cases {x e : Nat} (b : Nat) (hx : x < e + 1) :
    x < b ∨ x = b ∨ (b + 1 ≤ x ∧ x < e) ∨ x = e := by
  omega

/-- The jumps in a region stay inside. -/
theorem stays (h : Region s t bound node a e bs gs) {x : BlockId} (hx : a ≤ x) (hxe : x < e) :
    Stays s e x := by
  induction h with
  | start => exact absurd hxe (Nat.not_lt.2 hx)
  | next _ _ hnone ih =>
    rcases Nat.lt_succ_iff_lt_or_eq.1 hxe with hlt | rfl
    · exact (ih hx hlt).mono (Nat.le_succ _)
    · exact stays_of_none hnone
  | @loop node inner a b e bs bs' gs gs' calls calls' g n h hb hnone hbody he hnodup hclose hbound
      hgroup ih ih' =>
    have hbe : b < e := hbody.le
    obtain hlt | rfl | ⟨hin, hlt⟩ | rfl := place_cases b hxe
    · exact (ih hx hlt).mono (Nat.le_succ_of_le hbe.le)
    · exact stays_of_none hnone
    · exact (ih' hin hlt).mono (Nat.le_succ _)
    · obtain ⟨cond, hexit⟩ := hclose
      exact stays_of_exit hexit (Nat.le_succ_of_le hbe) fun _ _ => hbe
  | @branch node inner a b e bs bs' gs gs' calls calls' g cond h hb hskip hbody he hnodup hend hgroup
      ih ih' =>
    have hbe : b < e := hbody.le
    obtain hlt | rfl | ⟨hin, hlt⟩ | rfl := place_cases b hxe
    · exact (ih hx hlt).mono (Nat.le_succ_of_le hbe.le)
    · exact stays_of_exit hskip le_rfl fun _ hkind => by cases hkind
    · exact (ih' hin hlt).mono (Nat.le_succ _)
    · exact stays_of_none hend
  | @alternative node inner inner' a b e f bs bs' bs'' gs gs' gs'' calls calls' calls'' g cond h hb
      hskip hbody he hnodup hend hbody' hf hnodup' hend' hgroup hgroup' ih ih' ih'' =>
    have hbe : b < e := hbody.le
    have hef : e < f := hbody'.le
    have hbf := hbe.trans hef
    obtain hlt | rfl | ⟨hin, hlt⟩ | rfl := place_cases e hxe
    · obtain hlt | rfl | ⟨hin, hlt⟩ | rfl := place_cases b (Nat.lt_succ_of_lt hlt)
      · exact (ih hx hlt).mono (Nat.le_succ_of_le hbf.le)
      · exact stays_of_exit hskip (Nat.le_succ_of_le hef) fun _ hkind => by cases hkind
      · exact (ih' hin hlt).mono (Nat.le_succ_of_le hef.le)
      · exact absurd hlt (lt_irrefl _)
    · exact stays_of_exit hend le_rfl fun _ hkind => by cases hkind
    · exact (ih'' hin hlt).mono (Nat.le_succ _)
    · exact stays_of_none hend'

/-- The blocks are different, on the level of a node, and in front of a block. -/
def Behind (s : Flow) (node : NodeId) (e : BlockId) (bs : List BlockId) : Prop :=
  bs.Nodup ∧ ∀ b ∈ bs, s.node b = node ∧ b < e

theorem Behind.cons {b : BlockId} (h : Behind s node b bs) (hb : s.node b = node) (hlt : b < e) :
    Behind s node e (b :: bs) := by
  refine ⟨nodup_cons.2 ⟨fun hmem => lt_irrefl b (h.2 b hmem).2, h.1⟩, ?_⟩
  intro x hx
  rcases mem_cons.1 hx with rfl | hx
  · exact ⟨hb, hlt⟩
  · exact ⟨(h.2 x hx).1, lt_trans (h.2 x hx).2 hlt⟩

theorem behind (h : Region s t bound node a e bs gs) : Behind s node e bs := by
  induction h with
  | start => exact ⟨nodup_nil, nofun⟩
  | next _ hb _ ih => exact ih.cons hb.node (Nat.lt_succ_self _)
  | loop _ hb _ hbody _ _ _ _ _ ih | branch _ hb _ hbody _ _ _ _ ih =>
    exact ih.cons hb.node (Nat.le_succ_of_le hbody.le)
  | alternative _ hb _ hbody _ _ _ hbody' _ _ _ _ _ ih _ _ =>
    refine ih.cons hb.node (Nat.le_succ_of_le ?_)
    exact hbody.le.trans (Nat.le_of_succ_le hbody'.le)

end Region

/-! ## The cost of a path -/

/-- Costs of blocks that are covered by what is charged to nodes: a block costs no more than it uses
and its callees need, a node has at least what its blocks use, and it needs what it has and what its
groups need. -/
structure Charged (s : Flow) (t : RequirementTree) (stop : BlockId) (cost use : BlockId → ℕ∞)
    (need : NodeId → ℕ∞) : Prop where
  block : ∀ b, b < stop → cost b ≤ use b + ((s.calls b).map need).sum
  node : ∀ id bs, Region.Behind s id stop bs →
    (bs.map use).sum + t.groupsValue need id ≤ need id

section Cost

variable {stop : BlockId} {cost use : BlockId → ℕ∞} {need : NodeId → ℕ∞}
  {node : NodeId} {a b e : BlockId} {bs : List BlockId} {gs calls : List Nat} {done : BlockId → Nat}
  {path : List BlockId}

theorem Level.cost_le (hc : Charged s t stop cost use need) (hb : s.Level t node b calls)
    (hlt : b < stop) : cost b ≤ use b + (calls.map (t.groupValue need node)).sum := by
  refine (hc.block b hlt).trans (add_le_add le_rfl (Combinator.sum_mono ?_))
  refine forall₂_map_left_iff.2 (forall₂_map_right_iff.2 (hb.calls.imp ?_))
  exact fun root g hg => hg.le_groupValue nofun

theorem Leads.cases (h : s.Leads stop b path) (hlt : b < stop) :
    ∃ next rest, path = b :: rest ∧ s.Goes b next ∧ s.Leads stop next rest := by
  cases path with
  | nil => exact absurd h (hlt.ne)
  | cons y rest =>
    obtain ⟨rfl, -, next, hgoes, hrest⟩ := h
    exact ⟨next, rest, rfl, hgoes, hrest⟩

theorem Leads.lt_of_mem (h : s.Leads stop a path) (hmem : b ∈ path) : b < stop := by
  induction path generalizing a with
  | nil => cases hmem
  | cons x path ih =>
    obtain ⟨rfl, hlt, next, -, hrest⟩ := h
    rcases mem_cons.1 hmem with rfl | hmem
    · exact hlt
    · exact ih hrest hmem

theorem Within.tail (h : s.Within bound done (b :: path)) (hb : ∀ head, ¬s.Closes b head) :
    s.Within bound done path := by
  intro e head n hn he
  refine (repeats_cons_of_ne ?_).1 (h e head n hn he)
  rintro rfl
  exact hb head he

theorem not_closes_of_exit {kind : ExitKind} {target : Option BlockId}
    (hexit : s.exit b = some ⟨kind, target⟩) (hkind : ∀ cond, kind ≠ .ifNonZero cond)
    (head : BlockId) : ¬s.Closes b head := by
  rintro ⟨cond, hclose⟩
  rw [hexit] at hclose
  cases hclose
  exact hkind cond rfl

theorem not_closes_of_none (hexit : s.exit b = none) (head : BlockId) : ¬s.Closes b head := by
  rintro ⟨cond, hclose⟩
  rw [hexit] at hclose
  cases hclose

/-- The part of a path that passes through code: it ends at block `e`, loops have run as often as
before, and it costs no more than `limit`. -/
def Passes (s : Flow) (bound : BlockId → Count → Prop) (stop : BlockId) (cost : BlockId → ℕ∞)
    (done : BlockId → Nat) (path : List BlockId) (e : BlockId) (limit : ℕ∞) : Prop :=
  ∃ front rest, path = front ++ rest ∧ s.Leads stop e rest ∧ s.Within bound done rest ∧
    (front.map cost).sum ≤ limit

theorem Passes.mono {limit limit' : ℕ∞} (h : Passes s bound stop cost done path e limit)
    (hle : limit ≤ limit') : Passes s bound stop cost done path e limit' := by
  obtain ⟨front, rest, hpath, hrest, hwithin, hcost⟩ := h
  exact ⟨front, rest, hpath, hrest, hwithin, hcost.trans hle⟩

theorem Passes.trans {limit limit' : ℕ∞} {f : BlockId}
    (h : Passes s bound stop cost done path e limit)
    (hnext : ∀ rest, s.Leads stop e rest → s.Within bound done rest →
      Passes s bound stop cost done rest f limit') :
    Passes s bound stop cost done path f (limit + limit') := by
  obtain ⟨front, rest, rfl, hrest, hwithin, hcost⟩ := h
  obtain ⟨front', rest', rfl, hrest', hwithin', hcost'⟩ := hnext rest hrest hwithin
  refine ⟨front ++ front', rest', (append_assoc ..).symm, hrest', hwithin', ?_⟩
  rw [map_append, sum_append]
  exact add_le_add hcost hcost'

theorem Passes.block {limit : ℕ∞} (h : Passes s bound stop cost done path b limit) (hlt : b < stop)
    (hb : ∀ head, ¬s.Closes b head) :
    ∃ next, s.Goes b next ∧ Passes s bound stop cost done path next (limit + cost b) := by
  obtain ⟨front, rest, rfl, hrest, hwithin, hcost⟩ := h
  obtain ⟨next, rest, rfl, hgoes, hrest⟩ := hrest.cases hlt
  refine ⟨next, hgoes, front ++ [b], rest, by simp, hrest, hwithin.tail hb, ?_⟩
  rw [map_append, sum_append]
  exact add_le_add hcost (by simp)

theorem Level.add_cost_le (hc : Charged s t stop cost use need) (hb : s.Level t node b calls)
    (hlt : b < stop) (bs : List BlockId) (gs : List Nat) :
    (bs.map use).sum + (gs.map (t.groupValue need node)).sum + cost b ≤
      ((b :: bs).map use).sum + ((calls ++ gs).map (t.groupValue need node)).sum := by
  rw [map_cons, sum_cons, map_append, sum_append]
  calc (bs.map use).sum + (gs.map (t.groupValue need node)).sum + cost b
    _ ≤ (bs.map use).sum + (gs.map (t.groupValue need node)).sum +
        (use b + (calls.map (t.groupValue need node)).sum) := add_le_add le_rfl (hb.cost_le hc hlt)
    _ = _ := by ring

theorem Level.add_cost_group_le (hc : Charged s t stop cost use need) (hb : s.Level t node b calls)
    (hlt : b < stop) (bs : List BlockId) (gs : List Nat) (g : Nat) :
    (bs.map use).sum + (gs.map (t.groupValue need node)).sum + cost b + t.groupValue need node g ≤
      ((b :: bs).map use).sum + ((g :: (calls ++ gs)).map (t.groupValue need node)).sum := by
  refine (add_le_add (hb.add_cost_le hc hlt bs gs) le_rfl).trans (le_of_eq ?_)
  simp only [map_cons, sum_cons]
  ring

theorem whole_le (hc : Charged s t stop cost use need) (h : Region s t bound node a e bs gs)
    (he : s.Level t node e calls) (hnodup : (calls ++ gs).Nodup) (hlt : e < stop) :
    (bs.map use).sum + (gs.map (t.groupValue need node)).sum + cost e ≤ need node := by
  have hnodes := hc.node node (e :: bs) (h.behind.cons he.node hlt)
  have hgroups : _ ≤ t.groupsValue need node := sum_groupValue_le need hnodup
  rw [map_append, sum_append] at hgroups
  rw [map_cons, sum_cons] at hnodes
  calc (bs.map use).sum + (gs.map (t.groupValue need node)).sum + cost e
    _ ≤ (bs.map use).sum + (gs.map (t.groupValue need node)).sum +
        (use e + (calls.map (t.groupValue need node)).sum) :=
      add_le_add le_rfl (he.cost_le hc hlt)
    _ = use e + (bs.map use).sum + ((calls.map (t.groupValue need node)).sum +
        (gs.map (t.groupValue need node)).sum) := by ring
    _ ≤ need node := (add_le_add le_rfl hgroups).trans hnodes

theorem Within.close {k : Nat} (h : s.Within bound (update done e k) (e :: path)) :
    s.Within bound
      (update done e (if path.head? = some (e + 1) then 0 else k + 1)) path := by
  intro x head n hn hx
  have hrepeats := h x head n hn hx
  by_cases hxe : x = e
  · subst hxe
    rw [update_self, repeats_cons_self] at hrepeats
    rw [update_self]
    exact hrepeats.2
  · rw [update_of_ne hxe, repeats_cons_of_ne (Ne.symm hxe)] at hrepeats
    rw [update_of_ne hxe]
    exact hrepeats

/-- The runs of a loop from one of them on, after `k` others: each costs no more than `need`. -/
theorem passes_loop {head : BlockId} {n : Count} {limit each : ℕ∞} {k : Nat}
    (hbody : ∀ {done : BlockId → Nat} {path : List BlockId}, s.Leads stop head path →
      s.Within bound done path → (∀ x, head ≤ x → x < e → done x = 0) →
        Passes s bound stop cost done path e limit)
    (hlimit : limit + cost e ≤ each) (hclose : s.Closes e head) (hbound : bound head n)
    (hle : head ≤ e) (hlt : e < stop) (hdone : ∀ x, head ≤ x → x < e → done x = 0)
    (hpath : s.Leads stop head path) (hw : s.Within bound (update done e k) path) :
    ∃ m : Nat, k + m ≤ n.value ∧
      Passes s bound stop cost (update done e 0) path (e + 1) (m * each) := by
  induction hlen : path.length using Nat.strong_induction_on generalizing path k with
  | _ len ih =>
    obtain ⟨front, rest, rfl, hrest, hwrest, hcost⟩ := hbody hpath hw fun x hx hxe => by
      rw [update_of_ne (hxe.ne)]
      exact hdone x hx hxe
    obtain ⟨next, rest, rfl, hgoes, hrest⟩ := hrest.cases hlt
    have honce := hwrest e head n hbound hclose
    rw [update_self, repeats_cons_self] at honce
    have hwrest := hwrest.close
    have hcost' : ((front ++ [e]).map cost).sum ≤ each := by
      rw [map_append, sum_append]
      refine (add_le_add hcost (le_of_eq ?_)).trans hlimit
      simp
    have hsplit : front ++ e :: rest = (front ++ [e]) ++ rest := by simp
    obtain ⟨cond, hexit⟩ := hclose
    rw [Goes, hexit] at hgoes
    rcases hgoes with hback | ⟨-, rfl⟩
    · -- the loop runs again
      cases hback
      have hhead : ¬rest.head? = some (e + 1) := by
        obtain ⟨_, _, rfl, -, -⟩ := hrest.cases (hle.trans_lt hlt)
        intro heq
        exact absurd (Option.some.inj heq) (ne_of_lt (Nat.lt_succ_of_le hle))
      rw [if_neg hhead] at hwrest
      obtain ⟨m, hm, front', rest', rfl, hrest', hwithin', hcost''⟩ :=
        ih rest.length (by rw [← hlen, length_append, length_cons]; omega) hrest hwrest rfl
      refine ⟨m + 1, ?_, (front ++ [e]) ++ front', rest', by simp, hrest', hwithin', ?_⟩
      · push_cast at hm ⊢
        rw [add_comm (m : ℕ∞), ← add_assoc]
        exact hm
      · rw [map_append, sum_append, Nat.cast_add, Nat.cast_one, add_mul, one_mul, add_comm]
        exact add_le_add hcost'' hcost'
    · -- the loop is left
      have hleft : s.Within bound (update done e 0) rest := by
        cases rest with
        | nil => exact fun _ _ _ _ _ => trivial
        | cons y rest =>
          obtain ⟨rfl, -⟩ := hrest
          rwa [head?_cons, if_pos rfl] at hwrest
      refine ⟨1, by exact_mod_cast honce.1, front ++ [e], rest, hsplit, hrest, hleft, ?_⟩
      rw [Nat.cast_one, one_mul]
      exact hcost'

/-- A path through a region costs no more than its blocks use and its groups need. -/
theorem Region.traverse (hc : Charged s t stop cost use need) (h : Region s t bound node a e bs gs)
    (hlt : e < stop) (hpath : s.Leads stop a path) (hw : s.Within bound done path)
    (hdone : ∀ x, a ≤ x → x < e → done x = 0) :
    Passes s bound stop cost done path e
      ((bs.map use).sum + (gs.map (t.groupValue need node)).sum) := by
  induction h generalizing path done with
  | start => exact ⟨[], path, rfl, hpath, hw, zero_le⟩
  | @next node a b bs gs calls h hb hexit ih =>
    have hbs : b < stop := Nat.lt_of_succ_lt hlt
    obtain ⟨next, hgoes, hpass⟩ :=
      (ih hbs hpath hw fun x hx hxb => hdone x hx (Nat.lt_succ_of_lt hxb)).block hbs
        (not_closes_of_none hexit)
    rw [Goes, hexit] at hgoes
    subst hgoes
    exact hpass.mono (hb.add_cost_le hc hbs bs gs)
  | @loop node inner a b e bs bs' gs gs' calls calls' g n h hb hexit hbody he hnodup hclose hbound
      hgroup ih ih' =>
    have hes : e < stop := Nat.lt_of_succ_lt hlt
    have hbe : b < e := hbody.le
    have hbs : b < stop := lt_trans hbe hes
    have hae : a ≤ e := le_trans h.le (le_of_lt hbe)
    obtain ⟨next, hgoes, hpass⟩ :=
      (ih hbs hpath hw fun x hx hxb => hdone x hx (Nat.lt_succ_of_lt (lt_trans hxb hbe))).block
        hbs (not_closes_of_none hexit)
    rw [Goes, hexit] at hgoes
    subst hgoes
    -- the loop has not run when it is entered
    have hzero : update done e 0 = done := by
      rw [← hdone e hae e.lt_succ_self, update_eq_self]
    have hinner (x : BlockId) (hx : b + 1 ≤ x) (hxe : x < e) : done x = 0 :=
      hdone x (le_trans h.le (Nat.le_of_succ_le hx)) (Nat.lt_succ_of_lt hxe)
    refine (hpass.trans fun rest hrest hwrest => ?_).mono (hb.add_cost_group_le hc hbs bs gs g)
    obtain ⟨m, hm, hloop⟩ := passes_loop (k := 0) (fun hp hw hd => ih' hes hp hw hd)
      (whole_le hc hbody he hnodup hes) hclose hbound hbody.le hes hinner hrest (by rwa [hzero])
    rw [hzero] at hloop
    refine hloop.mono (le_trans (mul_le_mul_left ?_ _) hgroup.mul_le_groupValue)
    simpa using hm
  | @branch node inner a b e bs bs' gs gs' calls calls' g cond h hb hexit hbody he hnodup hend hgroup
      ih ih' =>
    have hes : e < stop := Nat.lt_of_succ_lt hlt
    have hbe : b < e := hbody.le
    have hbs : b < stop := lt_trans hbe hes
    obtain ⟨next, hgoes, hpass⟩ :=
      (ih hbs hpath hw fun x hx hxb => hdone x hx (Nat.lt_succ_of_lt (lt_trans hxb hbe))).block
        hbs (not_closes_of_exit hexit nofun)
    rw [Goes, hexit] at hgoes
    have hinner (x : BlockId) (hx : b + 1 ≤ x) (hxe : x < e) : done x = 0 :=
      hdone x (le_trans h.le (Nat.le_of_succ_le hx)) (Nat.lt_succ_of_lt hxe)
    rcases hgoes with hskip | ⟨-, rfl⟩
    · cases hskip
      refine hpass.mono (le_trans ?_ (hb.add_cost_group_le hc hbs bs gs g))
      exact le_self_add
    · refine (hpass.trans fun rest hrest hwrest => ?_).mono (hb.add_cost_group_le hc hbs bs gs g)
      obtain ⟨next, hgoes, hside⟩ :=
        (ih' hes hrest hwrest hinner).block hes (not_closes_of_none hend)
      rw [Goes, hend] at hgoes
      subst hgoes
      exact hside.mono ((whole_le hc hbody he hnodup hes).trans (hgroup.le_groupValue nofun))
  | @alternative node inner inner' a b e f bs bs' bs'' gs gs' gs'' calls calls' calls'' g cond h hb
      hexit hbody he hnodup hend hbody' hf hnodup' hend' hgroup hgroup' ih ih' ih'' =>
    have hfs : f < stop := Nat.lt_of_succ_lt hlt
    have hef : e < f := hbody'.le
    have hes : e < stop := lt_trans hef hfs
    have hbe : b < e := hbody.le
    have hbs : b < stop := lt_trans hbe hes
    obtain ⟨next, hgoes, hpass⟩ := (ih hbs hpath hw fun x hx hxb => hdone x hx
      (Nat.lt_succ_of_lt (lt_trans hxb (lt_trans hbe hef)))).block hbs
        (not_closes_of_exit hexit nofun)
    rw [Goes, hexit] at hgoes
    have hinner (x : BlockId) (hx : b + 1 ≤ x) (hxf : x < f) : done x = 0 :=
      hdone x (le_trans h.le (Nat.le_of_succ_le hx)) (Nat.lt_succ_of_lt hxf)
    rcases hgoes with helse | ⟨-, rfl⟩
    · cases helse
      refine (hpass.trans fun rest hrest hwrest => ?_).mono (hb.add_cost_group_le hc hbs bs gs g)
      obtain ⟨next, hgoes, hside⟩ := (ih'' hfs hrest hwrest fun x hx hxf =>
        hinner x (le_trans hbe (Nat.le_of_succ_le hx)) hxf).block hfs (not_closes_of_none hend')
      rw [Goes, hend'] at hgoes
      subst hgoes
      exact hside.mono ((whole_le hc hbody' hf hnodup' hfs).trans (hgroup'.le_groupValue nofun))
    · refine (hpass.trans fun rest hrest hwrest => ?_).mono (hb.add_cost_group_le hc hbs bs gs g)
      obtain ⟨next, hgoes, hside⟩ := (ih' hes hrest hwrest fun x hx hxe =>
        hinner x hx (lt_trans hxe hef)).block hes (not_closes_of_exit hend nofun)
      rw [Goes, hend] at hgoes
      obtain hgoes | ⟨hnot, -⟩ := hgoes
      · cases hgoes
        exact hside.mono ((whole_le hc hbody he hnodup hes).trans (hgroup.le_groupValue nofun))
      · exact absurd rfl hnot

/-- All the code of a tape is one region, on the level of its root. -/
def Whole (s : Flow) (t : RequirementTree) (bound : BlockId → Count → Prop) (root : NodeId)
    (last : BlockId) : Prop :=
  s.exit last = none ∧ ∃ bs gs calls, Region s t bound root 0 last bs gs ∧
    s.Level t root last calls ∧ (calls ++ gs).Nodup

theorem Whole.stays {root : NodeId} {last : BlockId} (h : Whole s t bound root last) {x : BlockId}
    (hx : x ≤ last) : Region.Stays s last x := by
  obtain ⟨hlast, bs, gs, calls, hregion, -⟩ := h
  rcases Nat.lt_or_eq_of_le hx with hlt | rfl
  · exact hregion.stays x.zero_le hlt
  · exact Region.stays_of_none hlast

theorem Whole.back {root : NodeId} {last e head : BlockId} (h : Whole s t bound root last)
    (he : e ≤ last) (hclose : s.Closes e head) : head ≤ e := by
  obtain ⟨cond, hexit⟩ := hclose
  obtain ⟨y, htarget, -, hback⟩ := h.stays he _ _ hexit
  cases htarget
  exact hback cond rfl

/-- A path through all the code of a tape costs no more than its root needs. -/
theorem Whole.cost_le {root : NodeId} {last : BlockId} (h : Whole s t bound root last)
    (hc : Charged s t (last + 1) cost use need) (hpath : s.Leads (last + 1) 0 path)
    (hw : s.Within bound (fun _ => 0) path) : (path.map cost).sum ≤ need root := by
  obtain ⟨hexit, bs, gs, calls, hregion, hlast, hnodup⟩ := h
  obtain ⟨next, hgoes, front, rest, rfl, hrest, -, hcost⟩ :=
    (hregion.traverse hc last.lt_succ_self hpath hw fun _ _ _ => rfl).block
      last.lt_succ_self (not_closes_of_none hexit)
  rw [Goes, hexit] at hgoes
  subst hgoes
  cases rest with
  | nil =>
    rw [append_nil]
    exact hcost.trans (whole_le hc hregion hlast hnodup last.lt_succ_self)
  | cons y rest => exact absurd hrest.2.1 (lt_irrefl _)

end Cost

end Flow

end SecureTape
