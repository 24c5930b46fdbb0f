import Mathlib
import SecureTape.Proofs.RequirementCalls

/-!
# Recursion is reported as unbounded

Where a node lies below itself, everything that is needed below it is needed without bound. The
answer for a node counts nothing for the nodes on the way down, so what it must count depends on the
paths that avoid them. Main statements:
1. `Via.split`: a path that avoids some nodes also avoids a further one, from its last visit on.
2. `scheme_countsRecursion`: a settled node counts what its free paths meet, and reports the nodes
   on the way down that it reaches unless it is unbounded already.
3. `aggregate_recursion_unbounded`: every answer above a recursion is unbounded.
-/

namespace SecureTape

open List Relation.ReflTransGen

namespace RequirementTree

variable {t t' : RequirementTree} {a b c m x y id : NodeId} {S : List NodeId} {key : Resource}

/-! ## Paths that avoid nodes -/

/-- There is a path from `x` to `b` whose nodes before `b` are not in `S`. -/
inductive Via (t : RequirementTree) (S : List NodeId) : NodeId → NodeId → Prop
  | refl (x : NodeId) : Via t S x x
  | step {x y b : NodeId} : x ∉ S → t.Child x y → Via t S y b → Via t S x b

theorem Via.reaches (h : t.Via S x b) : t.Reaches x b := by
  induction h with
  | refl => exact .refl
  | step _ hedge _ ih => exact .head hedge ih

theorem Via.split (h : t.Via S x b) (hne : b ≠ c) :
    t.Via (c :: S) x b ∨ ∃ y, t.Child c y ∧ t.Via (c :: S) y b := by
  induction h with
  | refl x => exact .inl (.refl x)
  | @step x y b hx hedge _ ih =>
    rcases ih hne with hrest | hlater
    · by_cases hxc : x = c
      · subst hxc
        exact .inr ⟨y, hedge, hrest⟩
      · exact .inl (.step (by simp [hxc, hx]) hedge hrest)
    · exact .inr hlater

theorem Via.exists_child (h : t.Via S x b) (hne : b ≠ x) :
    ∃ y, t.Child x y ∧ t.Via (x :: S) y b := by
  rcases h.split hne with hself | hlater
  · cases hself with
    | refl => exact absurd rfl hne
    | step hx _ _ => exact absurd (.head _) hx
  · exact hlater

theorem Reaches.via_or (h : t.Reaches x m) (S : List NodeId) :
    (∃ b ∈ S, t.Via S x b) ∨ t.Via S x m ∧ m ∉ S := by
  induction h using head_induction_on with
  | refl =>
    by_cases hm : m ∈ S
    · exact .inl ⟨m, hm, .refl m⟩
    · exact .inr ⟨.refl m, hm⟩
  | @head x y hedge _ ih =>
    by_cases hx : x ∈ S
    · exact .inl ⟨x, hx, .refl x⟩
    · rcases ih with ⟨b, hb, hvia⟩ | ⟨hvia, hm⟩
      · exact .inl ⟨b, hb, .step hx hedge hvia⟩
      · exact .inr ⟨.step hx hedge hvia, hm⟩

theorem Reaches.exists_via (h : t.Reaches x m) (hm : m ∈ S) : ∃ b ∈ S, t.Via S x b := by
  rcases Reaches.via_or h S with hfirst | ⟨-, hnot⟩
  · exact hfirst
  · exact absurd hm hnot

/-! ## What is needed -/

/-- The node itself needs the resource. -/
def OwnNeeds (t : RequirementTree) (id : NodeId) (key : Resource) : Prop :=
  (t.node id).own.get key ≠ .zero

/-- The node or one below it needs the resource. -/
def Needs (t : RequirementTree) (id : NodeId) (key : Resource) : Prop :=
  ∃ m, t.Reaches id m ∧ t.OwnNeeds m key

/-- The node reaches one that lies below itself and needs the resource. -/
def NeedsAgain (t : RequirementTree) (id : NodeId) (key : Resource) : Prop :=
  ∃ c, t.Reaches id c ∧ t.Below c c ∧ t.Needs c key

theorem Needs.of_reaches (h : t.Reaches x y) (hneeds : t.Needs y key) : t.Needs x key := by
  obtain ⟨m, hm, hown⟩ := hneeds
  exact ⟨m, trans h hm, hown⟩

/-- No group is repeated zero times. -/
def Repeating (t : RequirementTree) : Prop :=
  ∀ id g, g ∈ (t.node id).groups → g.combinator ≠ .times .zero

theorem repeating_of_lt (h : ∀ a < t.size, ∀ g ∈ (t.node a).groups, g.combinator ≠ .times .zero) :
    t.Repeating := by
  intro id g hg
  by_cases hid : id < t.size
  · exact h id hid g hg
  · rw [node_of_size_le (not_lt.1 hid)] at hg
    exact absurd hg not_mem_nil

theorem Repeating.of_grows (hgrows : t.Grows t') (h : t'.Repeating) : t.Repeating := by
  intro id g hg
  obtain ⟨g', hg', hc, -⟩ := hgrows id g hg
  rw [← hc]
  exact h id g' hg'

/-- An aggregate that is kept counts all that is needed, and without bound what recursion needs. -/
def CountsRecursion (t : RequirementTree) (id : NodeId) (k : Tally) : Prop :=
  ∀ key, (t.Needs id key → k.get key ≠ .zero) ∧ (t.NeedsAgain id key → k.get key = .unbounded)

/-- An answer counts what free paths meet; it reports a node on the way down to which there is a
free path, unless it is unbounded; and it is unbounded for recursion, unless it has open hits. -/
structure CountsFree (t : RequirementTree) (active : List NodeId) (id : NodeId) (r : Tally)
    (hits : List NodeId) : Prop where
  free : ∀ {key m}, t.Via active id m → m ∉ active → t.OwnNeeds m key → r.get key ≠ .zero
  report : ∀ {b}, b ∈ active → t.Via active id b →
    b ∈ hits ∨ ∀ key, t.Needs id key → r.get key = .unbounded
  again : ∀ {key}, t.NeedsAgain id key → r.get key = .unbounded ∨ hits ≠ []

theorem below_iff : t.Below a b ↔ ∃ y, t.Child a y ∧ t.Reaches y b :=
  Relation.TransGen.head'_iff

theorem local_countsRecursion : Local CountsRecursion := by
  intro t t' id k hagree hk key
  have hreach : ∀ m, t'.Reaches id m ↔ t.Reaches id m :=
    fun m => reaches_iff_of_agree fun c hc => (hagree c hc).2
  have hneeds : ∀ x, t.Reaches id x → t'.Needs x key → t.Needs x key := by
    rintro x hx ⟨m, hm, hown⟩
    have hagree' : ∀ c, t.Reaches x c → (t'.node c).groups = (t.node c).groups :=
      fun c hc => (hagree c (trans hx hc)).2
    have hm' := (reaches_iff_of_agree hagree').1 hm
    rw [OwnNeeds, (hagree m (trans hx hm')).1] at hown
    exact ⟨m, hm', hown⟩
  refine ⟨fun h => (hk key).1 (hneeds id .refl h), ?_⟩
  rintro ⟨c, hc, hcycle, hc'⟩
  have hidc := (hreach c).1 hc
  refine (hk key).2 ⟨c, hidc, ?_, hneeds c hidc hc'⟩
  obtain ⟨y, hedge, hback⟩ := below_iff.1 hcycle
  have hedge' : t.Child c y := by
    rw [Child, children, ← (hagree c hidc).2]
    exact hedge
  have hagree' : ∀ d, t.Reaches y d → (t'.node d).groups = (t.node d).groups :=
    fun d hd => (hagree d (Relation.ReflTransGen.trans hidc (.head hedge' hd))).2
  exact below_iff.2 ⟨y, hedge', (reaches_iff_of_agree hagree').1 hback⟩

/-! ## Settled nodes -/

section Settled

variable {active : List NodeId} {parts : List (Tally × List NodeId)}

/-- What the members of the groups of a node that is settled answered. -/
abbrev Answered (t : RequirementTree) (active : List NodeId) (id m : NodeId) (r : Tally)
    (hits : List NodeId) : Prop :=
  t.Child id m ∧ t.Answer (id :: active) m r hits ∧ t.CountsFree (id :: active) m r hits

theorem needs_of_reaches_active (hchain : t.Chain active id) (hb : b ∈ active) (hy : t.Reaches y b)
    (hneeds : t.Needs id key) : t.Needs y key :=
  hneeds.of_reaches (trans hy (hchain.below b hb).to_reflTransGen)

variable (ht : t.WellFormed) (h : Forall₂ (Gathered (t.Answered active id)) (t.node id).groups parts)

include ht h

theorem own_le_total : ((t.node id).own.get key).value ≤
    (((parts.map (·.1)).foldl Tally.sum (t.node id).own).get key).value := by
  refine le_self_add.trans (le_value_total ht (v := fun _ => 0) ?_ ?_ h)
  · exact fun m r hits hm => hm.2.1.valid
  · exact fun m r hits hm => zero_le

variable (hrepeat : t.Repeating)

include hrepeat

theorem le_total_of_answers (hedge : t.Child id y) {v : ℕ∞}
    (hanswers : ∀ r hits, t.Answered active id y r hits → hits ⊆ parts.flatMap (·.2) →
      v ≤ (r.get key).value) :
    v ≤ (((parts.map (·.1)).foldl Tally.sum (t.node id).own).get key).value := by
  let w : NodeId → ℕ∞ := fun m => if m = y then v else 0
  have htotal : ((t.node id).own.get key).value + t.groupsValue w id ≤
      (((parts.map (·.1)).foldl Tally.sum (t.node id).own).get key).value := by
    refine le_value_total ht (fun m r hits hm => hm.1.2.1.valid) ?_ (gathered_hits h)
    rintro m r hits ⟨hm, hsub⟩
    by_cases hmy : m = y
    · subst hmy
      exact (if_pos rfl).trans_le (hanswers r hits hm hsub)
    · exact (if_neg hmy).trans_le zero_le
  calc v = w y := (if_pos rfl).symm
    _ ≤ t.groupsValue w id := le_groupsValue (hrepeat id) hedge
    _ ≤ _ := le_add_self.trans htotal

theorem settle_unbounded (hedge : t.Child id y)
    (hanswers : ∀ r hits, t.Answered active id y r hits → hits ⊆ parts.flatMap (·.2) →
      r.get key = .unbounded) : (settle id (t.node id).own parts).1.get key = .unbounded := by
  have hvalid := valid_total ht (fun m r hits hm => hm.2.1.valid) h
  rw [← Count.top_le_value_iff]
  refine le_trans ?_ (settle_spec hvalid key).1
  exact le_total_of_answers ht h hrepeat hedge fun r hits hanswered hsub =>
    Count.top_le_value_iff.2 (hanswers r hits hanswered hsub)

theorem settle_free (hvia : t.Via active id m) (hm : m ∉ active) (hown : t.OwnNeeds m key) :
    (settle id (t.node id).own parts).1.get key ≠ .zero := by
  have hvalid := valid_total ht (fun m r hits hm => hm.2.1.valid) h
  rw [← Count.one_le_value_iff]
  refine le_trans ?_ (settle_spec hvalid key).1
  by_cases hself : m = id
  · subst hself
    exact (Count.one_le_value_iff.2 hown).trans (own_le_total ht h)
  · obtain ⟨y, hedge, hvia'⟩ := hvia.exists_child hself
    refine le_total_of_answers ht h hrepeat hedge fun r hits hanswered _ => ?_
    exact Count.one_le_value_iff.2 (hanswered.2.2.free hvia' (by simp [hself, hm]) hown)

variable (hid : id ∉ active) (hchain : t.Chain active id)

include hid hchain

theorem settle_report (hb : b ∈ active) (hvia : t.Via active id b) :
    b ∈ (settle id (t.node id).own parts).2 ∨
      ∀ key, t.Needs id key → (settle id (t.node id).own parts).1.get key = .unbounded := by
  have hne : b ≠ id := fun heq => hid (heq ▸ hb)
  obtain ⟨y, hedge, hvia'⟩ := hvia.exists_child hne
  by_cases hhit : b ∈ parts.flatMap (·.2)
  · exact .inl (mem_filter.2 ⟨hhit, by simpa using hne⟩)
  · right
    intro key hneeds
    refine settle_unbounded ht h hrepeat hedge fun r hits hanswered hsub => ?_
    rcases hanswered.2.2.report (.tail _ hb) hvia' with hmem | hall
    · exact absurd (hsub hmem) hhit
    · exact hall key (needs_of_reaches_active hchain hb hvia'.reaches hneeds)

theorem settle_needs (hopen : (settle id (t.node id).own parts).2 = []) (hneeds : t.Needs id key) :
    (settle id (t.node id).own parts).1.get key ≠ .zero := by
  obtain ⟨m, hm, hown⟩ := hneeds
  rcases Reaches.via_or hm active with ⟨b, hb, hvia⟩ | ⟨hvia, hnot⟩
  · rcases settle_report ht h hrepeat hid hchain hb hvia with hmem | hall
    · rw [hopen] at hmem
      exact absurd hmem not_mem_nil
    · rw [hall key ⟨m, hm, hown⟩]
      exact nofun
  · exact settle_free ht h hrepeat hvia hnot hown

/-- Without open hits, what is settled is unbounded for recursion. -/
theorem settle_again (hopen : (settle id (t.node id).own parts).2 = []) (hagain : t.NeedsAgain id key) :
    (settle id (t.node id).own parts).1.get key = .unbounded := by
  obtain ⟨c, hc, hcycle, hneeds⟩ := hagain
  have hvalid := valid_total ht (fun m r hits hm => hm.2.1.valid) h
  have hidNeeds : t.Needs id key := hneeds.of_reaches hc
  -- A hit other than the node itself would still be open.
  have hhits : ∀ b ∈ parts.flatMap (·.2), b = id := by
    intro b hb
    by_contra hne
    have hmem : b ∈ (settle id (t.node id).own parts).2 :=
      mem_filter.2 ⟨hb, by simpa using hne⟩
    rw [hopen] at hmem
    exact absurd hmem not_mem_nil
  by_cases hself : t.Below id id
  · obtain ⟨y, hedge, hback⟩ := below_iff.1 hself
    obtain ⟨b, hb, hvia⟩ := Reaches.exists_via hback (S := id :: active) (.head _)
    by_cases hhit : b ∈ parts.flatMap (·.2)
    · rw [hhits b hhit] at hhit
      exact (settle_spec hvalid key).2 hhit (settle_needs ht h hrepeat hid hchain hopen hidNeeds)
    · refine settle_unbounded ht h hrepeat hedge fun r hits hanswered hsub => ?_
      rcases hanswered.2.2.report hb hvia with hmem | hall
      · exact absurd (hsub hmem) hhit
      · exact hall key (hidNeeds.of_reaches hback)
  · rcases cases_head hc with rfl | ⟨y, hedge, hyc⟩
    · exact absurd hcycle hself
    · refine settle_unbounded ht h hrepeat hedge fun r hits hanswered hsub => ?_
      rcases hanswered.2.2.again ⟨c, hyc, hcycle, hneeds⟩ with hdone | hnonempty
      · exact hdone
      · obtain ⟨b, hb⟩ := exists_mem_of_ne_nil hits hnonempty
        have hbid := hhits b (hsub hb)
        have hback := hanswered.2.1.hit_reaches b hb
        rw [hbid] at hback
        exact absurd (below_iff.2 ⟨y, hedge, hback⟩) hself

end Settled

theorem scheme_countsRecursion (ht : t.WellFormed) (hrepeat : t.Repeating) :
    t.Scheme t.CountsRecursion t.CountsFree where
  kept := by
    intro active id k hchain hk
    refine ⟨?_, ?_, ?_⟩
    · intro key m hvia _ hown
      exact (hk key).1 ⟨m, hvia.reaches, hown⟩
    · intro b hb hvia
      -- A node that is kept and reaches one on the way down is part of a cycle.
      have hcycle : t.Below id id :=
        Relation.TransGen.trans_right hvia.reaches (hchain.below b hb)
      exact .inr fun key hneeds => (hk key).2 ⟨id, .refl, hcycle, hneeds⟩
    · intro key hagain
      exact .inl ((hk key).2 hagain)
  hit := by
    intro active id hchain hmem
    refine ⟨?_, ?_, fun _ => .inr (by simp)⟩
    · intro key m hvia hm _
      cases hvia with
      | refl => exact absurd hmem hm
      | step hnot _ _ => exact absurd hmem hnot
    · intro b hb hvia
      cases hvia with
      | refl => exact .inl (.head _)
      | step hnot _ _ => exact absurd hmem hnot
  settle := by
    intro active id parts hchain hid h
    refine ⟨⟨?_, ?_, ?_⟩, ?_⟩
    · exact fun hvia hm hown => settle_free ht h hrepeat hvia hm hown
    · exact fun hb hvia => settle_report ht h hrepeat hid hchain hb hvia
    · intro key hagain
      by_cases hopen : (settle id (t.node id).own parts).2 = []
      · exact .inl (settle_again ht h hrepeat hid hchain hopen hagain)
      · exact .inr hopen
    · intro hopen key
      exact ⟨settle_needs ht h hrepeat hid hchain hopen,
        settle_again ht h hrepeat hid hchain hopen⟩

/-- After every sequence of calls that made a tree without groups that are repeated zero times: a
node that is, or reaches, one that lies below itself is answered unbounded for every resource that
is needed at a node below that one. -/
theorem aggregate_recursion_unbounded (calls : List TreeCall) (t : RequirementTree)
    (hfit : empty.FitAll calls) (hcalls : empty.after calls = t) (hrepeat : t.Repeating)
    {n c m : NodeId} (hn : t.Reaches n c) (hcycle : t.Below c c) (hm : t.Reaches c m)
    {key : Resource} (hkey : (t.node m).own.get key ≠ .zero) :
    (t.aggregate n).1.get key = .unbounded := by
  have hlt : n < t.size := by
    rcases cases_head hn with rfl | ⟨y, hedge, -⟩
    · obtain ⟨y, hedge, -⟩ := below_iff.1 hcycle
      exact lt_size_of_child hedge
    · exact lt_size_of_child hedge
  have hanswer : t.CountsRecursion n (t.aggregate n).1 :=
    aggregate_satisfies local_countsRecursion
      (fun t ht hC => ⟨_, scheme_countsRecursion ht hC⟩) (fun t t' => Repeating.of_grows)
      hfit hcalls hrepeat hlt
  exact (hanswer key).2 ⟨c, hn, hcycle, m, hm, hkey⟩

/-- Two nodes that need each other, one as an alternative, and a third that was charged after a
question. -/
theorem aggregate_recursion_unbounded_mutual :
    ∃ calls t, empty.FitAll calls ∧ empty.after calls = t ∧ t.Repeating ∧ t.Reaches 1 0 ∧
      t.Below 0 0 ∧ t.Reaches 0 2 ∧ (t.node 2).own.get .rounds ≠ .zero ∧
      (t.aggregate 1).1.get .rounds = .unbounded := by
  let calls : List TreeCall := [.addNode "even", .addNode "odd", .addNode "leaf",
    .addGroup 0 .max [1, 2], .addGroup 1 (.times (.finite 3)) [0], .aggregate 1,
    .increment 2 .rounds (.finite 1)]
  have hfit : empty.FitAll calls := by decide
  have hrepeat : (empty.after calls).Repeating := repeating_of_lt (by decide)
  have hdown : (empty.after calls).Child 0 1 := by
    show 1 ∈ (empty.after calls).children 0
    decide
  have hleaf : (empty.after calls).Child 0 2 := by
    show 2 ∈ (empty.after calls).children 0
    decide
  have hback : (empty.after calls).Child 1 0 := by
    show 0 ∈ (empty.after calls).children 1
    decide
  have hown : ((empty.after calls).node 2).own.get .rounds ≠ .zero := by decide
  have hcycle : (empty.after calls).Below 0 0 := .head hdown (.single hback)
  refine ⟨calls, _, hfit, rfl, hrepeat, .single hback, hcycle, .single hleaf, hown, ?_⟩
  exact aggregate_recursion_unbounded calls _ hfit rfl hrepeat (.single hback) hcycle
    (.single hleaf) hown

end RequirementTree

end SecureTape
