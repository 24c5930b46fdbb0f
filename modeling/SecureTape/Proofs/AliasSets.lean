import Mathlib.Logic.Relation
import SecureTape.Proofs.Expansion

/-!
# Alias sets are the links made

Main statement: `History.alias_sets_are_links`, of every file that calls lead to from an empty one.

1. `Joined.mem_aliases_iff`: a link joins the alias sets of two registers and leaves the others
   alone.
2. `Faithful`: registers share an alias set if links connect them, and only then; sets list nobody
   twice. Every call keeps the file so.
-/

namespace SecureTape

open Action

/-! ## Calls -/

inductive RegisterCall where
  | create (cls : RegisterClass) (size : Nat)
  | view (r : Reg) (start size : Nat)
  | link (a b : Reg)
  | keep (r : Reg)
  | markExported (r : Reg)

namespace RegisterCall

def regs : RegisterCall → List Reg
  | .create .. => []
  | .view r .. | .keep r | .markExported r => [r]
  | .link a b => [a, b]

def act : RegisterCall → RegisterM Unit
  | .create cls size => (fun _ => ()) <$> RegisterM.create cls size
  | .view r start size => (fun _ => ()) <$> RegisterM.viewOf r start size
  | .link a b => do set (← (← get).link a b)
  | .keep r => modify (·.keep r)
  | .markExported r => modify (·.markExported r)

/-- The link that a call makes, if it succeeds. -/
def links (f : RegisterFile) : RegisterCall → List (Nat × Nat)
  | .link a b =>
    match f.link a b with
    | .ok _ => [(a.id, b.id)]
    | .error _ => []
  | _ => []

/-- The base registers that a call protects: those that it keeps or exports, and those that it links
to another one. -/
def guards (f : RegisterFile) : RegisterCall → List Nat
  | .keep r | .markExported r => [f.baseOf r]
  | .link a b =>
    match f.link a b with
    | .ok _ => if a.id = b.id then [] else [a.id, b.id]
    | .error _ => []
  | _ => []

end RegisterCall

namespace RegisterFile

variable {f g : RegisterFile} {a b x y set : Nat} {links : List (Nat × Nat)} {guarded : List Nat}

/-- The file that calls lead to from an empty one, with the links they made and the base registers
they protect. Each call is about registers of the file. -/
inductive History (tape : TapeId) : List (Nat × Nat) → List Nat → RegisterFile → Prop
  | new : History tape [] [] (new tape)
  | call {links : List (Nat × Nat)} {guarded : List Nat} {f : RegisterFile} (c : RegisterCall)
      (h : History tape links guarded f) (hc : ∀ r ∈ c.regs, f.owns r) :
      History tape (c.links f ++ links) (c.guards f ++ guarded) (c.act.run f).2

def IsBase (f : RegisterFile) (id : Nat) : Prop := id < f.size ∧ (f.data id).view = none

/-- Base registers that are equal or connected by links. -/
def Connected (links : List (Nat × Nat)) : Nat → Nat → Prop :=
  Relation.EqvGen fun x y => (x, y) ∈ links

/-! ## Links -/

theorem Joined.mem_aliases_iff (h : Joined f g a b set) (hf : f.Valid) (hx : x < f.size) :
    (f.Either a b x → (y ∈ g.aliases x ↔ f.Either a b y)) ∧
      (¬f.Either a b x → (y ∈ g.aliases x ↔ y ∈ f.aliases x)) := by
  refine ⟨fun hu => by rw [aliases_of_some (h.joins hx hu), h.mem_set], fun hu => ?_⟩
  have hset := h.keeps hx hu
  cases hs : (f.data x).aliasSet with
  | none => rw [aliases_of_none (hset.trans hs), aliases_of_none hs]
  | some s =>
    rw [aliases_of_some (hset.trans hs), aliases_of_some hs]
    have hxs := hf.mem_members hx hs
    rw [h.mem_other fun heq => hu (h.free (heq ▸ hxs))]
    refine and_iff_left_of_imp fun hys hy => hu ?_
    have hxy : x ∈ f.aliases y := by rwa [aliases_of_some (hf.of_mem_members hys).2.2]
    exact hy.imp (fun hy => hf.aliases_eq_of_mem hy ▸ hxy) fun hy => hf.aliases_eq_of_mem hy ▸ hxy

theorem Moved.nodup_members {moved : List Nat} (h : Moved f g set moved)
    (hf : ∀ s, (f.members s).Nodup) (s : Nat) : (g.members s).Nodup := by
  by_cases hs : s = set
  · subst hs
    rw [h.members_set]
    exact List.nodup_append.2 ⟨hf s, h.nodup hf, fun id hid id' hid' heq =>
      h.fresh id' hid' (heq ▸ hid)⟩
  · rw [h.members_other s hs]
    exact (hf s).filter _

/-! ## Calls keep the file faithful -/

/-- The alias sets of the file are what the links connect, and guarded registers are not
eliminable. -/
structure Faithful (links : List (Nat × Nat)) (guarded : List Nat) (f : RegisterFile) : Prop where
  valid : f.Valid
  nodup : ∀ s, (f.members s).Nodup
  connected : ∀ {x y}, x < f.size → y ∈ f.aliases x → Connected links x y
  linked : ∀ p ∈ links, p.1 < f.size ∧ p.2 ∈ f.aliases p.1
  guarded : ∀ x ∈ guarded, x < f.size ∧ (f.data x).eliminable = false

theorem faithful_new (tape : TapeId) : Faithful [] [] (new tape) :=
  ⟨valid_new tape, fun s => by simp [members, new],
    fun hx => by simp [new, size] at hx, by simp, by simp⟩

namespace Faithful

theorem extend (h : Faithful links guarded f) (hext : Extends f g) (hg : g.Valid) :
    Faithful links guarded g := by
  have hlt {x : Nat} (hx : x < f.size) := Nat.lt_of_lt_of_le hx hext.size_le
  refine ⟨hg, fun s => hext.members s ▸ h.nodup s, fun {x y} hx hy => ?_, fun p hp => ?_,
    fun x hx => ?_⟩
  · by_cases hold : x < f.size
    · exact h.connected hold (hext.aliases hold ▸ hy)
    · rw [aliases_of_none (hext.aliasSet_of_new h.valid hg hx hold), List.mem_singleton] at hy
      exact hy ▸ .refl x
  · obtain ⟨hx, hy⟩ := h.linked p hp
    exact ⟨hlt hx, hext.aliases hx ▸ hy⟩
  · obtain ⟨hlt', hfalse⟩ := h.guarded x hx
    exact ⟨hlt hlt', hext.data x hlt' ▸ hfalse⟩

theorem reshape (h : Faithful links guarded f) (hsame : SameShape f g)
    (hpins : ∀ x, (f.data x).eliminable = false → (g.data x).eliminable = false) :
    Faithful links guarded g := by
  refine ⟨hsame.valid h.valid, fun s => hsame.members s ▸ h.nodup s, fun hx hy => ?_,
    fun p hp => ?_,
    fun x hx => ?_⟩
  · exact h.connected (hsame.size ▸ hx) (hsame.aliases _ ▸ hy)
  · rw [hsame.size, hsame.aliases]
    exact h.linked p hp
  · rw [hsame.size]
    exact (h.guarded x hx).imp_right (hpins x)

theorem guard (h : Faithful links guarded f) {more : List Nat}
    (hmore : ∀ x ∈ more, x < f.size ∧ (f.data x).eliminable = false) :
    Faithful links (more ++ guarded) f :=
  { h with guarded := fun x hx => (List.mem_append.1 hx).elim (hmore x) (h.guarded x) }

theorem connected_mono {more : List (Nat × Nat)} (h : Connected links x y) :
    Connected (more ++ links) x y :=
  Relation.EqvGen.mono (fun _ _ hmem => List.mem_append_right more hmem) _ _ h

theorem join (h : Faithful links guarded f) (hab : Linkable f a b) :
    Faithful ([(a, b)] ++ links) guarded (f.joinAliases a b) := by
  rcases moved_joinAliases h.valid hab with ⟨heq, hmem⟩ | ⟨set, moved, hm, heither⟩
  · rw [heq]
    exact { h with
      connected := fun hx hy => connected_mono (h.connected hx hy)
      linked := List.forall_mem_cons.2 ⟨⟨hab.left.1, hmem⟩, h.linked⟩ }
  · have hj := hm.joined h.valid heither
    have hself : f.Either a b a := .inl (h.valid.mem_aliases_self hab.left.1)
    have hpart {z : Nat} (hz : f.Either a b z) : Connected ([(a, b)] ++ links) a z := by
      rcases hz with hz | hz
      · exact connected_mono (h.connected hab.left.1 hz)
      · exact .trans _ b _ (.rel _ _ (.head _)) (connected_mono (h.connected hab.right.1 hz))
    have hstay {x y : Nat} (hx : x < f.size) (hy : y ∈ f.aliases x) :
        y ∈ (f.joinAliases a b).aliases x := by
      by_cases hu : f.Either a b x
      · refine ((hj.mem_aliases_iff h.valid hx).1 hu).2 (hu.imp ?_ ?_)
        · exact fun hxa => h.valid.aliases_eq_of_mem hxa ▸ hy
        · exact fun hxb => h.valid.aliases_eq_of_mem hxb ▸ hy
      · exact ((hj.mem_aliases_iff h.valid hx).2 hu).2 hy
    refine ⟨hj.valid h.valid hab, hm.nodup_members h.nodup, fun {x y} hx hy => ?_, fun p hp => ?_,
      fun x hx => ?_⟩
    · rw [hm.size] at hx
      by_cases hu : f.Either a b x
      · have hy := ((hj.mem_aliases_iff h.valid hx).1 hu).1 hy
        exact .trans _ a _ (.symm _ _ (hpart hu)) (hpart hy)
      · exact connected_mono (h.connected hx (((hj.mem_aliases_iff h.valid hx).2 hu).1 hy))
    · rw [hm.size]
      rcases List.mem_cons.1 hp with rfl | hp
      · refine ⟨hab.left.1, ((hj.mem_aliases_iff h.valid hab.left.1).1 hself).2 ?_⟩
        exact .inr (h.valid.mem_aliases_self hab.right.1)
      · exact (h.linked p hp).imp_right (hstay (h.linked p hp).1)
    · obtain ⟨s, hdata⟩ := hj.relabeled.data x
      rw [hm.size, hdata]
      exact h.guarded x hx

theorem loop (h : Faithful links guarded f) (ha : a < f.size) :
    Faithful ([(a, a)] ++ links) guarded f :=
  { h with
    connected := fun hx hy => connected_mono (h.connected hx hy)
    linked := List.forall_mem_cons.2 ⟨⟨ha, h.valid.mem_aliases_self ha⟩, h.linked⟩ }

theorem call (h : Faithful links guarded f) (c : RegisterCall) (hc : ∀ r ∈ c.regs, f.owns r) :
    Faithful (c.links f ++ links) (c.guards f ++ guarded) (c.act.run f).2 := by
  have hkeep {r : Reg} (hr : f.owns r) : Faithful links ([f.baseOf r] ++ guarded) (f.keep r) := by
    have hbase := h.valid.baseOf_lt (owns_iff.1 hr).2
    refine (h.reshape (.keep f r) fun x hx => eliminable_keep (.inl hx)).guard fun x hx => ?_
    rw [List.mem_singleton.1 hx, (SameShape.keep f r).size]
    exact ⟨hbase, eliminable_keep (.inr ⟨h.valid.mem_aliases_self hbase, hbase⟩)⟩
  cases c with
  | create cls size =>
    have hgrows := (meets_create h.valid cls size).ends
    rw [RegisterCall.act, run_map]
    exact h.extend hgrows.ext hgrows.valid
  | view r start size =>
    have hgrows := (meets_viewOf h.valid (hc r (.head _)) start size).ends
    rw [RegisterCall.act, run_map]
    exact h.extend hgrows.ext hgrows.valid
  | link a b =>
    have ha := hc a (.head _)
    have hb := hc b (.tail _ (.head _))
    cases hlink : f.link a b with
    | error e =>
      have hrun : (RegisterCall.link a b).act.run f = (.error e, f) := by
        rw [RegisterCall.act, run_get_bind, hlink]
        rfl
      simpa only [hrun, RegisterCall.links, RegisterCall.guards, hlink, List.nil_append] using h
    | ok g =>
      have hrun : (RegisterCall.link a b).act.run f = (.ok ⟨⟩, g) := by
        rw [RegisterCall.act, run_get_bind, hlink]
        rfl
      simp only [hrun, RegisterCall.links, RegisterCall.guards, hlink]
      rcases of_link_eq_ok ha hb hlink with ⟨heq, rfl⟩ | ⟨hab, rfl⟩
      · rw [if_pos heq, ← heq]
        exact h.loop (owns_iff.1 ha).2
      · rw [if_neg hab.ne]
        have hjoin := h.join hab
        obtain ⟨hlt, hmem⟩ := hjoin.linked (a.id, b.id) (.head _)
        have hlt' := hjoin.valid.lt_of_mem_aliases hlt hmem
        have hpin := SameShape.pin (f.joinAliases a.id b.id) a.id
        have hshape := hpin.trans (.pin _ b.id)
        refine (hjoin.reshape hshape fun x hx => ?_).guard (List.forall_mem_cons.2
          ⟨⟨hshape.size ▸ hlt, ?_⟩, List.forall_mem_singleton.2 ⟨hshape.size ▸ hlt', ?_⟩⟩)
        · rw [eliminable_pin, eliminable_pin, hx, ite_self, ite_self]
        · rw [eliminable_pin, if_neg fun heq => hab.ne heq.1, eliminable_pin, if_pos ⟨rfl, hlt⟩]
        · rw [eliminable_pin, if_pos ⟨rfl, hpin.size ▸ hlt'⟩]
  | keep r => exact hkeep (hc r (.head _))
  | markExported r =>
    refine (hkeep (hc r (.head _))).reshape (.modify _ _ fun _ => ⟨rfl, rfl, rfl, rfl, rfl⟩)
      fun x hx => ?_
    show (((f.keep r).modify _ _).data x).eliminable = false
    rw [data_modify]
    split
    · rename_i heq
      exact heq.1 ▸ hx
    · exact hx

end Faithful

theorem History.faithful {tape : TapeId} (h : History tape links guarded f) :
    Faithful links guarded f := by
  induction h with
  | new => exact faithful_new tape
  | call c h hc ih => exact ih.call c hc

theorem Faithful.keyOf_eq_iff (h : Faithful links guarded f) (hx : x < f.size) (hy : y < f.size) :
    f.keyOf x = f.keyOf y ↔ Connected links x y := by
  refine ⟨fun heq => h.connected hx ((h.valid.keyOf_eq_iff hx hy).1 heq.symm), fun hxy => ?_⟩
  clear hx hy
  induction hxy with
  | rel x y hmem => exact (h.valid.keyOf_eq_of_mem_aliases (h.linked _ hmem).2).symm
  | refl => rfl
  | symm x y _ ih => exact ih.symm
  | trans x y z _ _ ihxy ihyz => exact ihxy.trans ihyz

theorem Faithful.nodup_aliases (h : Faithful links guarded f) (base : Nat) :
    (f.aliases base).Nodup := by
  cases hset : (f.data base).aliasSet with
  | none => simp [aliases_of_none hset]
  | some set => exact aliases_of_some hset ▸ h.nodup set

theorem Valid.aliased_iff (hf : f.Valid) {a b : Reg} (ha : f.owns a) (hb : f.owns b) :
    f.aliased a b ↔ f.baseOf b ∈ f.aliases (f.baseOf a) := by
  simp only [aliased, Bool.or_eq_true, beq_iff_eq]
  cases hset : (f.data (f.baseOf a)).aliasSet with
  | none => simp [aliases_of_none hset, eq_comm]
  | some set =>
    rw [aliases_of_some hset]
    constructor
    · rintro (heq | hsame)
      · exact heq ▸ hf.mem_members (hf.baseOf_lt (owns_iff.1 ha).2) hset
      · split at hsame
        · rename_i s t hs ht
          cases hs
          exact hf.mem_members (hf.baseOf_lt (owns_iff.1 hb).2) (beq_iff_eq.1 hsame ▸ ht)
        · cases hsame
    · exact fun hmem => .inr (by simp [(hf.of_mem_members hmem).2.2])

theorem IsBase.baseOf_handle {id : Nat} (h : f.IsBase id) : f.baseOf (f.handle id) = id := by
  rw [baseOf, resolve, show (f.data (f.handle id).id).view = none from h.2]
  rfl

end RegisterFile

theorem RegisterCall.eq_of_run_error {c : RegisterCall} {f g : RegisterFile} {e : CompileError}
    (h : c.act.run f = (.error e, g)) : g = f := by
  cases c with
  | create cls size =>
    rw [act, run_map, RegisterM.create, run_get_bind] at h
    cases hx : f.create cls size <;> rw [hx] at h <;> cases h
    rfl
  | view r start size =>
    rw [act, run_map, RegisterM.viewOf, run_get_bind] at h
    cases hx : f.viewOf r start size <;> rw [hx] at h <;> cases h
    rfl
  | link a b =>
    rw [act, run_get_bind] at h
    cases hx : f.link a b <;> rw [hx] at h <;> cases h
    rfl
  | keep r => cases h
  | markExported r => cases h

open RegisterFile

/-- The alias sets of a register file are the links made. Registers are aliases of each other
exactly if they are views of one base register or links connect their base registers, and then they
have one slot key. The aliases of a base register are listed once each and are of one class and
size, no base register in a set with a protected member can be eliminated, and calls that fail
change nothing. -/
theorem RegisterFile.History.alias_sets_are_links {tape : TapeId} {links : List (Nat × Nat)}
    {guarded : List Nat} {f : RegisterFile} (h : History tape links guarded f) :
    (∀ a b, f.owns a → f.owns b → (f.aliased a b ↔ Connected links (f.baseOf a) (f.baseOf b)) ∧
      (f.aliased a b ↔ f.slotKey a = f.slotKey b)) ∧
    (∀ base, f.IsBase base → (f.aliases base).Nodup ∧
      (∀ id, id ∈ f.aliases base ↔ f.IsBase id ∧ f.aliased (f.handle base) (f.handle id)) ∧
      (∀ id ∈ f.aliases base, (f.data id).cls = (f.data base).cls ∧
        (f.data id).size = (f.data base).size) ∧
      ∀ id ∈ f.aliases base, id ∈ guarded → f.isEliminable base = false) ∧
    ∀ (c : RegisterCall) e g, c.act.run f = (.error e, g) → g = f := by
  have hf := h.faithful
  refine ⟨fun a b ha hb => ?_, fun base hbase => ⟨hf.nodup_aliases base, fun id => ?_,
    fun id => hf.valid.alike_of_mem_aliases hbase.1, fun id hid hguard => ?_⟩,
    fun c e g => RegisterCall.eq_of_run_error⟩
  · have hx := hf.valid.baseOf_lt (owns_iff.1 ha).2
    have hy := hf.valid.baseOf_lt (owns_iff.1 hb).2
    rw [hf.valid.aliased_iff ha hb, ← hf.valid.keyOf_eq_iff hx hy, eq_comm, hf.keyOf_eq_iff hx hy]
    exact ⟨.rfl, (hf.keyOf_eq_iff hx hy).symm⟩
  · have howns {id : Nat} (h : f.IsBase id) : f.owns (f.handle id) := owns_iff.2 ⟨rfl, h.1⟩
    rw [and_congr_right fun hid => by
      rw [hf.valid.aliased_iff (howns hbase) (howns hid), hbase.baseOf_handle, hid.baseOf_handle]]
    exact (and_iff_right_of_imp fun hid => (hf.valid.of_mem_aliases hbase hid).1).symm
  · exact isEliminable_eq_false_iff.2 ⟨id, hid, (hf.guarded id hguard).2⟩

/-- Two registers are linked, a third one is too wide for a link, and a view of it is exported. -/
theorem alias_sets_are_links_export : ∃ links guarded f, RegisterFile.History 0 links guarded f ∧
    f.aliased ⟨0, 0⟩ ⟨0, 1⟩ ∧ Connected links 0 1 ∧ f.aliases 2 = [2] ∧
      f.isEliminable 2 = false := by
  have h : History 0 _ _ _ := .call (.create .secret 2) .new (by decide)
  have h := h.call (.create .secret 2) (by decide)
  have h := h.call (.create .secret 3) (by decide)
  have h := h.call (.link ⟨0, 0⟩ ⟨0, 1⟩) (by decide +kernel)
  have h := h.call (.link ⟨0, 1⟩ ⟨0, 2⟩) (by decide +kernel)
  have h := h.call (.view ⟨0, 2⟩ 1 1) (by decide +kernel)
  have h := h.call (.markExported ⟨0, 3⟩) (by decide +kernel)
  obtain ⟨hpairs, hsets, -⟩ := h.alias_sets_are_links
  refine ⟨_, _, _, h, by decide +kernel, ?_, by decide +kernel, ?_⟩
  · exact (hpairs ⟨0, 0⟩ ⟨0, 1⟩ (by decide +kernel) (by decide +kernel)).1.1 (by decide +kernel)
  · exact (hsets 2 ⟨by decide +kernel, by decide +kernel⟩).2.2.2 2 (by decide +kernel)
      (by decide +kernel)

end SecureTape
