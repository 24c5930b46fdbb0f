import Mathlib
import SecureTape.Proofs.Regions
import SecureTape.Tape

/-!
# Regions under construction

While a tape is built its innermost region is open, and so are the regions around it. Main
statements:
1. `Flow.Open.next`, `Flow.Open.openLoop` and so on: what the steps of building make of open
   regions.
2. `Flow.Open.whole`: when all scopes are closed, all the code is one region.
-/

namespace SecureTape

open RequirementTree List Function

variable {g : Nat} {scopes : List Scope} {active b start : BlockId} {thenEnd : Option BlockId}
  {counter : Option (Reg × Nat)} {t : RequirementTree}

namespace RequirementTree

variable {id m : NodeId} {c : Combinator}

theorem HasMember.lt_length (h : t.HasMember id g c m) : g < (t.node id).groups.length := by
  obtain ⟨group, hgroup, -⟩ := h
  exact (List.getElem?_eq_some_iff.1 hgroup).1

theorem HasMember.lt_size (h : t.HasMember id g c m) : id < t.size := by
  by_contra hle
  have hlt := h.lt_length
  rw [node_of_size_le (not_lt.1 hle)] at hlt
  exact Nat.not_lt_zero _ hlt

end RequirementTree

namespace Flow

variable {s s' : Flow} {t t' : RequirementTree} {bound bound' : BlockId → Count → Prop}
  {root node : NodeId} {a b e : BlockId} {bs : List BlockId} {gs calls : List Nat}

/-! ## Later changes -/

def Agree (s s' : Flow) (a e : BlockId) : Prop :=
  ∀ b, a ≤ b → b < e → s'.exit b = s.exit b ∧ s'.node b = s.node b ∧ s'.calls b = s.calls b

theorem Agree.sub {c d : BlockId} (h : Agree s s' a e) (hac : a ≤ c) (hde : d ≤ e) :
    Agree s s' c d :=
  fun b hb hbd => h b (hac.trans hb) (hbd.trans_le hde)

/-- The groups of a tree keep their members, and loops their bounds. -/
structure Grown (t t' : RequirementTree) (bound bound' : BlockId → Count → Prop) : Prop where
  member : ∀ {id g c m}, t.HasMember id g c m → t'.HasMember id g c m
  bound : ∀ {head n}, bound head n → bound' head n

theorem Grown.refl (t : RequirementTree) (bound : BlockId → Count → Prop) : Grown t t bound bound :=
  ⟨fun h => h, fun h => h⟩

theorem Level.grown (h : s.Level t node b calls) (hg : Grown t t' bound bound')
    (hnode : s'.node b = s.node b) (hcalls : s'.calls b = s.calls b) : s'.Level t' node b calls where
  node := hnode.trans h.node
  calls := hcalls ▸ h.calls.imp fun _ _ hm => hg.member hm

theorem Level.agree (h : s.Level t node b calls) (hg : Grown t t' bound bound')
    (hs : Agree s s' a e) (hab : a ≤ b) (hbe : b < e) : s'.Level t' node b calls :=
  h.grown hg (hs b hab hbe).2.1 (hs b hab hbe).2.2

theorem Region.agree (h : Region s t bound node a e bs gs) (hg : Grown t t' bound bound')
    (hs : Agree s s' a e) : Region s' t' bound' node a e bs gs := by
  induction h with
  | start node a => exact .start node a
  | @next node a b bs gs calls h hb hexit ih =>
    have hlt := Nat.lt_succ_self b
    exact .next (ih (hs.sub le_rfl (le_of_lt hlt))) (hb.agree hg hs h.le hlt)
      ((hs b h.le hlt).1.trans hexit)
  | @loop node inner a b e bs bs' gs gs' calls calls' g n h hb hexit hbody he hnodup hclose hbound
      hgroup ih ih' =>
    have hlt := Nat.lt_succ_self e
    have hbe : b < e + 1 := Nat.lt_succ_of_lt hbody.le
    have hin : a ≤ b + 1 := Nat.le_succ_of_le h.le
    have hae : a ≤ e := le_trans hin hbody.le
    obtain ⟨cond, hclose⟩ := hclose
    exact .loop (ih (hs.sub le_rfl (le_of_lt hbe))) (hb.agree hg hs h.le hbe)
      ((hs b h.le hbe).1.trans hexit) (ih' (hs.sub hin (le_of_lt hlt))) (he.agree hg hs hae hlt)
      hnodup ⟨cond, (hs e hae hlt).1.trans hclose⟩ (hg.bound hbound) (hg.member hgroup)
  | @branch node inner a b e bs bs' gs gs' calls calls' g cond h hb hexit hbody he hnodup hend hgroup
      ih ih' =>
    have hlt := Nat.lt_succ_self e
    have hbe : b < e + 1 := Nat.lt_succ_of_lt hbody.le
    have hin : a ≤ b + 1 := Nat.le_succ_of_le h.le
    have hae : a ≤ e := le_trans hin hbody.le
    exact .branch (ih (hs.sub le_rfl (le_of_lt hbe))) (hb.agree hg hs h.le hbe)
      ((hs b h.le hbe).1.trans hexit) (ih' (hs.sub hin (le_of_lt hlt))) (he.agree hg hs hae hlt)
      hnodup ((hs e hae hlt).1.trans hend) (hg.member hgroup)
  | @alternative node inner inner' a b e f bs bs' bs'' gs gs' gs'' calls calls' calls'' g cond h hb
      hexit hbody he hnodup hend hbody' hf hnodup' hend' hgroup hgroup' ih ih' ih'' =>
    have hlt := Nat.lt_succ_self f
    have hef : e < f + 1 := Nat.lt_succ_of_lt hbody'.le
    have hbe : b < f + 1 := lt_trans hbody.le hef
    have hin : a ≤ b + 1 := Nat.le_succ_of_le h.le
    have hae : a ≤ e := le_trans hin hbody.le
    have hin' : a ≤ e + 1 := Nat.le_succ_of_le hae
    have haf : a ≤ f := le_trans hin' hbody'.le
    exact .alternative (ih (hs.sub le_rfl (le_of_lt hbe))) (hb.agree hg hs h.le hbe)
      ((hs b h.le hbe).1.trans hexit) (ih' (hs.sub hin (le_of_lt hef))) (he.agree hg hs hae hef)
      hnodup ((hs e hae hef).1.trans hend) (ih'' (hs.sub hin' (le_of_lt hlt)))
      (hf.agree hg hs haf hlt) hnodup' ((hs f haf hlt).1.trans hend') (hg.member hgroup)
      (hg.member hgroup')

/-! Groups that something is charged to exist, so a new group is another one. -/

theorem Level.lt_length (h : s.Level t node b calls) (hg : g ∈ calls) :
    g < (t.node node).groups.length := by
  obtain ⟨callee, -, hmember⟩ := exists_left_of_forall₂ h.calls hg
  exact hmember.lt_length

theorem Region.lt_length (h : Region s t bound node a e bs gs) (hg : g ∈ gs) :
    g < (t.node node).groups.length := by
  induction h with
  | start => cases hg
  | next _ hb _ ih => exact (mem_append.1 hg).elim hb.lt_length ih
  | loop _ hb _ _ _ _ _ _ hgroup ih | branch _ hb _ _ _ _ _ hgroup ih
  | alternative _ hb _ _ _ _ _ _ _ _ _ hgroup _ ih =>
    rcases mem_cons.1 hg with rfl | hg
    · exact hgroup.lt_length
    · exact (mem_append.1 hg).elim hb.lt_length ih

theorem nodup_new (hb : s.Level t node b calls) (h : Region s t bound node a b bs gs)
    (hnodup : (calls ++ gs).Nodup) : ((t.node node).groups.length :: (calls ++ gs)).Nodup := by
  refine nodup_cons.2 ⟨fun hmem => ?_, hnodup⟩
  rcases mem_append.1 hmem with hmem | hmem
  · exact lt_irrefl _ (hb.lt_length hmem)
  · exact lt_irrefl _ (h.lt_length hmem)

/-! ## Open scopes -/

/-- The region at block `a` on the level of a node is the innermost one that is open, inside of the
open scopes of a tape. -/
inductive Frames (s : Flow) (t : RequirementTree) (bound : BlockId → Count → Prop) (root : NodeId) :
    List Scope → NodeId → BlockId → Prop
  | top : Frames s t bound root [] root 0
  | function {scopes : List Scope} {node : NodeId} {a entry : BlockId}
      (h : Frames s t bound root scopes node a) :
      Frames s t bound root (.function entry node :: scopes) node a
  | loop {scopes : List Scope} {node inner : NodeId} {a b : BlockId} {bs : List BlockId}
      {gs calls : List Nat} {g : Nat} {n : Count} {counter : Option (Reg × Nat)}
      (h : Frames s t bound root scopes node a) (hregion : Region s t bound node a b bs gs)
      (hb : s.Level t node b calls) (hnodup : (g :: (calls ++ gs)).Nodup) (hexit : s.exit b = none)
      (hbound : bound (b + 1) n) (hgroup : t.HasMember node g (.times n) inner) :
      Frames s t bound root (.loop (b + 1) b node counter :: scopes) inner (b + 1)
  | branch {scopes : List Scope} {node inner : NodeId} {a b : BlockId} {bs : List BlockId}
      {gs calls : List Nat} {g : Nat} {cond : Reg}
      (h : Frames s t bound root scopes node a) (hregion : Region s t bound node a b bs gs)
      (hb : s.Level t node b calls) (hnodup : (g :: (calls ++ gs)).Nodup)
      (hexit : s.exit b = some ⟨.ifZero cond, none⟩) (hgroup : t.HasMember node g .max inner) :
      Frames s t bound root (.branch b g node none :: scopes) inner (b + 1)
  | alternative {scopes : List Scope} {node inner inner' : NodeId} {a b e : BlockId}
      {bs bs' : List BlockId} {gs gs' calls calls' : List Nat} {g : Nat} {cond : Reg}
      (h : Frames s t bound root scopes node a) (hregion : Region s t bound node a b bs gs)
      (hb : s.Level t node b calls) (hnodup : (g :: (calls ++ gs)).Nodup)
      (hexit : s.exit b = some ⟨.ifZero cond, some (e + 1)⟩)
      (hbody : Region s t bound inner (b + 1) e bs' gs') (he : s.Level t inner e calls')
      (hnodup' : (calls' ++ gs').Nodup) (hend : s.exit e = some ⟨.always, none⟩)
      (hgroup : t.HasMember node g .max inner) (hgroup' : t.HasMember node g .max inner') :
      Frames s t bound root (.branch b g node (some e) :: scopes) inner' (e + 1)

theorem Frames.agree (h : Frames s t bound root scopes node a) (hg : Grown t t' bound bound')
    (hs : Agree s s' 0 a) : Frames s' t' bound' root scopes node a := by
  induction h with
  | top => exact .top
  | function _ ih => exact .function (ih hs)
  | @loop scopes node inner a b bs gs calls g n counter _ hregion hb hnodup hexit hbound hgroup ih =>
    have h0 := Nat.zero_le b
    have hlt := Nat.lt_succ_self b
    have hle := le_of_lt hlt
    exact .loop (ih (hs.sub (Nat.zero_le 0) (hregion.le.trans hle)))
      (hregion.agree hg (hs.sub a.zero_le hle)) (hb.agree hg hs h0 hlt) hnodup
      ((hs b h0 hlt).1.trans hexit) (hg.bound hbound) (hg.member hgroup)
  | @branch scopes node inner a b bs gs calls g cond _ hregion hb hnodup hexit hgroup ih =>
    have h0 := Nat.zero_le b
    have hlt := Nat.lt_succ_self b
    have hle := le_of_lt hlt
    exact .branch (ih (hs.sub (Nat.zero_le 0) (hregion.le.trans hle)))
      (hregion.agree hg (hs.sub a.zero_le hle)) (hb.agree hg hs h0 hlt) hnodup
      ((hs b h0 hlt).1.trans hexit) (hg.member hgroup)
  | @alternative scopes node inner inner' a b e bs bs' gs gs' calls calls' g cond _ hregion hb hnodup
      hexit hbody he hnodup' hend hgroup hgroup' ih =>
    have h0 := Nat.zero_le b
    have hlt := Nat.lt_succ_self e
    have hbe : b < e + 1 := Nat.lt_succ_of_lt hbody.le
    have hle := le_of_lt hbe
    exact .alternative (ih (hs.sub (Nat.zero_le 0) (hregion.le.trans hle)))
      (hregion.agree hg (hs.sub a.zero_le hle)) (hb.agree hg hs h0 hbe) hnodup
      ((hs b h0 hbe).1.trans hexit) (hbody.agree hg (hs.sub (Nat.zero_le _) hlt.le))
      (he.agree hg hs e.zero_le hlt) hnodup' ((hs e e.zero_le hlt).1.trans hend)
      (hg.member hgroup) (hg.member hgroup')

/-! ## Changes -/

def extend (s : Flow) (active : BlockId) (exit : Option Exit) (node : NodeId) : Flow where
  exit := Function.update (Function.update s.exit active exit) (active + 1) none
  node := Function.update s.node (active + 1) node
  calls := Function.update s.calls (active + 1) []

def redirect (s : Flow) (b target : BlockId) : Flow :=
  { s with exit := Function.update s.exit b ((s.exit b).map ({ · with target := some target })) }

def addCall (s : Flow) (b : BlockId) (callee : NodeId) : Flow :=
  { s with calls := Function.update s.calls b (s.calls b ++ [callee]) }

section Changes

variable (s : Flow) (active : BlockId) (exit : Option Exit) (inner : NodeId)

theorem exit_extend : (s.extend active exit inner).exit (active + 1) = none :=
  update_self ..

theorem exit_extend_self : (s.extend active exit inner).exit active = exit :=
  (update_of_ne (ne_of_lt active.lt_succ_self) ..).trans (update_self ..)

theorem level_extend (t : RequirementTree) :
    (s.extend active exit inner).Level t inner (active + 1) [] := by
  have hcalls : (s.extend active exit inner).calls (active + 1) = [] := update_self ..
  refine ⟨update_self .., ?_⟩
  rw [hcalls]
  exact .nil

theorem agree_extend : Agree s (s.extend active exit inner) 0 active := by
  intro b _ hb
  have hne : b ≠ active := hb.ne
  have hne' : b ≠ active + 1 := ne_of_lt (Nat.lt_succ_of_lt hb)
  exact ⟨(update_of_ne hne' ..).trans (update_of_ne hne ..),
    update_of_ne hne' .., update_of_ne hne' ..⟩

end Changes

theorem Level.extend (h : s.Level t node b calls) (hg : Grown t t' bound bound')
    (exit : Option Exit) (inner : NodeId) : (s.extend b exit inner).Level t' node b calls := by
  have hne : b ≠ b + 1 := ne_of_lt b.lt_succ_self
  exact h.grown hg (update_of_ne hne ..) (update_of_ne hne ..)

theorem agree_extend_succ {exit : Option Exit} (inner : NodeId) (hexit : s.exit active = exit) :
    Agree s (s.extend active exit inner) 0 (active + 1) := by
  intro b h0 hb
  have hne : b ≠ active + 1 := hb.ne
  rcases Nat.lt_succ_iff_lt_or_eq.1 hb with hb | rfl
  · exact agree_extend s active exit inner b h0 hb
  · exact ⟨(exit_extend_self ..).trans hexit.symm, update_of_ne hne ..,
      update_of_ne hne ..⟩

theorem Agree.redirect (h : Agree s s' a e) (target : BlockId) (hb : b < a ∨ e ≤ b) :
    Agree s (s'.redirect b target) a e := by
  intro x hx hxe
  have hne : x ≠ b := by
    rintro rfl
    exact hb.elim (Nat.not_lt.2 hx) (Nat.not_le.2 hxe)
  exact ⟨(update_of_ne hne ..).trans (h x hx hxe).1, (h x hx hxe).2⟩

theorem Agree.joined (h : Agree s s' 0 e) (target : BlockId) {c d : BlockId} (hd : d ≤ e)
    (hb : b < c ∨ d ≤ b) : Agree s (s'.redirect b target) c d :=
  (h.sub c.zero_le hd).redirect target hb

theorem Level.redirect (h : s.Level t node b calls) (x target : BlockId) :
    (s.redirect x target).Level t node b calls := ⟨h.node, h.calls⟩

theorem exit_redirect_self {kind : ExitKind} {old : Option BlockId} (h : s.exit b = some ⟨kind, old⟩)
    (target : BlockId) : (s.redirect b target).exit b = some ⟨kind, some target⟩ := by
  rw [redirect, h]
  exact update_self ..

theorem exit_redirect_of_ne (target : BlockId) {x : BlockId} (h : x ≠ b) :
    (s.redirect b target).exit x = s.exit x :=
  update_of_ne h ..

/-! ## Open regions -/

/-- The code of a tape up to its active block, which is on the level of a node, inside of the open
scopes. -/
def Open (s : Flow) (t : RequirementTree) (bound : BlockId → Count → Prop) (root : NodeId)
    (scopes : List Scope) (node : NodeId) (active : BlockId) : Prop :=
  s.exit active = none ∧ ∃ a bs gs calls, Frames s t bound root scopes node a ∧
    Region s t bound node a active bs gs ∧ s.Level t node active calls ∧ (calls ++ gs).Nodup

namespace Open

theorem whole (h : Open s t bound root [] node active) : Whole s t bound root active := by
  obtain ⟨hexit, a, bs, gs, calls, hframes, hregion, hlevel, hnodup⟩ := h
  cases hframes
  exact ⟨hexit, bs, gs, calls, hregion, hlevel, hnodup⟩

theorem node_eq_root (h : Open s t bound root [] node active) : node = root := by
  obtain ⟨-, a, bs, gs, calls, hframes, -⟩ := h
  cases hframes
  rfl

theorem node_eq (h : Open s t bound root scopes node active) : s.node active = node := by
  obtain ⟨-, a, bs, gs, calls, -, -, hlevel, -⟩ := h
  exact hlevel.node

variable {entry : BlockId} {outer inner : NodeId}

theorem branch (h : Open s t bound root (.branch b g outer thenEnd :: scopes) node active) :
    ∃ inner, t.HasMember outer g .max inner := by
  obtain ⟨-, _, _, _, _, hframes, -⟩ := h
  cases hframes with
  | branch _ _ _ _ _ hgroup | alternative _ _ _ _ _ _ _ _ _ hgroup _ => exact ⟨_, hgroup⟩

theorem outer_lt_of_loop
    (h : Open s t bound root (.loop start entry outer counter :: scopes) node active) :
    outer < t.size := by
  obtain ⟨-, _, _, _, _, hframes, -⟩ := h
  cases hframes with
  | loop _ _ _ _ _ _ hgroup => exact hgroup.lt_size

theorem agree (h : Open s t bound root scopes node active) (hg : Grown t t' bound bound')
    (hs : Agree s s' 0 (active + 1)) : Open s' t' bound' root scopes node active := by
  obtain ⟨hexit, a, bs, gs, calls, hframes, hregion, hlevel, hnodup⟩ := h
  have h0 := Nat.zero_le active
  have hlt := Nat.lt_succ_self active
  have hle := le_of_lt hlt
  exact ⟨(hs active h0 hlt).1.trans hexit, a, bs, gs, calls,
    hframes.agree hg (hs.sub (Nat.zero_le 0) (hregion.le.trans hle)),
    hregion.agree hg (hs.sub a.zero_le hle), hlevel.agree hg hs h0 hlt, hnodup⟩

theorem first (hexit : s.exit 0 = none) (hnode : s.node 0 = root) (hcalls : s.calls 0 = []) :
    Open s t bound root [] root 0 := by
  refine ⟨hexit, 0, [], [], [], .top, .start root 0, ⟨hnode, ?_⟩, nodup_nil⟩
  rw [hcalls]
  exact .nil

theorem next (h : Open s t bound root scopes node active) :
    Open (s.extend active none node) t bound root scopes node (active + 1) := by
  obtain ⟨hexit, a, bs, gs, calls, hframes, hregion, hlevel, hnodup⟩ := h
  have hg := Grown.refl t bound
  have hs := agree_extend_succ node hexit
  exact ⟨exit_extend .., a, _, _, [],
    hframes.agree hg (hs.sub (Nat.zero_le 0) (Nat.le_succ_of_le hregion.le)),
    (hregion.next hlevel hexit).agree hg (hs.sub a.zero_le le_rfl),
    level_extend .., hnodup⟩

theorem beginFunction (h : Open s t bound root scopes node active) (entry : BlockId) :
    Open s t bound root (.function entry node :: scopes) node active := by
  obtain ⟨hexit, a, bs, gs, calls, hframes, h⟩ := h
  exact ⟨hexit, a, bs, gs, calls, hframes.function, h⟩

theorem endFunction (h : Open s t bound root (.function entry outer :: scopes) node active) :
    outer = node ∧ Open s t bound root scopes node active := by
  obtain ⟨hexit, a, bs, gs, calls, hframes, h⟩ := h
  cases hframes with
  | function hframes => exact ⟨rfl, hexit, a, bs, gs, calls, hframes, h⟩

theorem call (h : Open s t bound root scopes node active) {callee : NodeId}
    (hg : Grown t t' bound bound')
    (hgroup : t'.HasMember node (t.node node).groups.length .sum callee) :
    Open (s.addCall active callee) t' bound' root scopes node active := by
  obtain ⟨hexit, a, bs, gs, calls, hframes, hregion, hlevel, hnodup⟩ := h
  have hs : Agree s (s.addCall active callee) 0 active :=
    fun b _ hb => ⟨rfl, rfl, update_of_ne (hb.ne) ..⟩
  refine ⟨hexit, a, bs, gs, calls ++ [(t.node node).groups.length],
    hframes.agree hg (hs.sub (Nat.zero_le 0) hregion.le),
    hregion.agree hg (hs.sub a.zero_le le_rfl), ⟨hlevel.node, ?_⟩, ?_⟩
  · have hcalls : (s.addCall active callee).calls active = s.calls active ++ [callee] :=
      update_self ..
    rw [hcalls]
    exact rel_append (hlevel.calls.imp fun _ _ hm => hg.member hm) (.cons hgroup .nil)
  · rw [append_assoc]
    exact (perm_middle.nodup_iff).2 (nodup_new hlevel hregion hnodup)

theorem openLoop (h : Open s t bound root scopes node active) {n : Count}
    (counter : Option (Reg × Nat)) (hg : Grown t t' bound bound')
    (hgroup : t'.HasMember node (t.node node).groups.length (.times n) inner)
    (hbound : bound' (active + 1) n) :
    Open (s.extend active none inner) t' bound' root (.loop (active + 1) active node counter :: scopes)
      inner (active + 1) := by
  obtain ⟨hexit, a, bs, gs, calls, hframes, hregion, hlevel, hnodup⟩ := h
  have hle := Nat.le_succ active
  have hs := agree_extend_succ inner hexit
  have hframes := hframes.agree hg (hs.sub (Nat.zero_le 0) (hregion.le.trans hle))
  exact ⟨exit_extend .., _, [], [], [],
    .loop hframes (hregion.agree hg (hs.sub a.zero_le hle)) (hlevel.extend hg none inner)
      (nodup_new hlevel hregion hnodup) (exit_extend_self ..) hbound hgroup,
    .start .., level_extend .., nodup_nil⟩

theorem endLoop (h : Open s t bound root (.loop start entry outer counter :: scopes) node active)
    (cond : Reg) :
    Open (s.extend active (some ⟨.ifNonZero cond, some start⟩) outer) t bound root scopes outer
      (active + 1) := by
  obtain ⟨hexit, _, bs', gs', calls', hframes, hbody, he, hnodup'⟩ := h
  cases hframes with
  | @loop _ _ _ a _ bs gs calls g n _ hframes hregion hb hnodup hentry hbound hgroup =>
    have hg := Grown.refl t bound
    have hs := agree_extend s active (some ⟨.ifNonZero cond, some (entry + 1)⟩) outer
    have h0 := Nat.zero_le entry
    have hlt : entry < active := hbody.le
    have hle := le_of_lt hlt
    have hframes := hframes.agree hg (hs.sub (Nat.zero_le 0) (hregion.le.trans hle))
    have hregion := hregion.agree hg (hs.sub a.zero_le hle)
    have hbody := hbody.agree hg (hs.sub (Nat.zero_le _) (Nat.le_refl active))
    exact ⟨exit_extend .., a, entry :: bs, g :: (calls ++ gs), [], hframes,
      .loop hregion (hb.agree hg hs h0 hlt) ((hs entry h0 hlt).1.trans hentry) hbody
        (he.extend hg _ outer) hnodup' ⟨cond, exit_extend_self ..⟩ hbound hgroup,
      level_extend .., hnodup⟩

theorem beginIf (h : Open s t bound root scopes node active) (hg : Grown t t' bound bound')
    (cond : Reg) (hgroup : t'.HasMember node (t.node node).groups.length .max inner) :
    Open (s.extend active (some ⟨.ifZero cond, none⟩) inner) t' bound' root
      (.branch active (t.node node).groups.length node none :: scopes) inner (active + 1) := by
  obtain ⟨hexit, a, bs, gs, calls, hframes, hregion, hlevel, hnodup⟩ := h
  have hs := agree_extend s active (some ⟨.ifZero cond, none⟩) inner
  have hframes := hframes.agree hg (hs.sub (Nat.zero_le 0) hregion.le)
  exact ⟨exit_extend .., _, [], [], [],
    .branch hframes (hregion.agree hg (hs.sub a.zero_le le_rfl))
      (hlevel.extend hg _ inner) (nodup_new hlevel hregion hnodup) (exit_extend_self ..) hgroup,
    .start .., level_extend .., nodup_nil⟩

theorem beginElse (h : Open s t bound root (.branch b g outer none :: scopes) node active)
    (hg : Grown t t' bound bound') (hgroup' : t'.HasMember outer g .max inner) :
    Open ((s.extend active (some ⟨.always, none⟩) inner).redirect b (active + 1)) t' bound' root
      (.branch b g outer (some active) :: scopes) inner (active + 1) := by
  obtain ⟨hexit, _, bs', gs', calls', hframes, hbody, he, hnodup'⟩ := h
  cases hframes with
  | @branch _ _ _ a _ bs gs calls _ cond hframes hregion hb hnodup hentry hgroup =>
    have hs := agree_extend s active (some ⟨.always, none⟩) inner
    have h0 := Nat.zero_le b
    have hlt : b < active := hbody.le
    have hle := le_of_lt hlt
    have hexit' := exit_redirect_self ((hs b h0 hlt).1.trans hentry) (active + 1)
    have hframes := hframes.agree hg (hs.joined (active + 1) (hregion.le.trans hle) (.inr hregion.le))
    have hregion := hregion.agree hg (hs.joined (active + 1) hle (.inr le_rfl))
    have hbody := hbody.agree hg (hs.joined (active + 1) le_rfl (.inl b.lt_succ_self))
    exact ⟨(exit_redirect_of_ne _ (Nat.lt_succ_of_lt hlt).ne').trans (exit_extend ..), _,
      [], [], [],
      .alternative hframes hregion ((hb.agree hg hs h0 hlt).redirect ..) hnodup hexit' hbody
        ((he.extend hg _ inner).redirect ..) hnodup'
        ((exit_redirect_of_ne _ hlt.ne').trans (exit_extend_self ..)) (hg.member hgroup)
        hgroup',
      .start .., (level_extend ..).redirect .., nodup_nil⟩

theorem endIf (h : Open s t bound root (.branch b g outer thenEnd :: scopes) node active) :
    Open ((s.extend active none outer).redirect (thenEnd.getD b) (active + 1)) t bound root scopes
      outer (active + 1) := by
  obtain ⟨hexit, _, bs', gs', calls', hframes, hbody, he, hnodup'⟩ := h
  have hg := Grown.refl t bound
  have hs := agree_extend s active none outer
  have h0 := Nat.zero_le b
  cases hframes with
  | @branch _ _ _ a _ bs gs calls _ cond hframes hregion hb hnodup hentry hgroup =>
    have hlt : b < active := hbody.le
    have hle := le_of_lt hlt
    have hexit' := exit_redirect_self ((hs b h0 hlt).1.trans hentry) (active + 1)
    have hframes := hframes.agree hg (hs.joined (active + 1) (hregion.le.trans hle) (.inr hregion.le))
    have hregion := hregion.agree hg (hs.joined (active + 1) hle (.inr le_rfl))
    have hbody := hbody.agree hg (hs.joined (active + 1) le_rfl (.inl b.lt_succ_self))
    exact ⟨(exit_redirect_of_ne _ (Nat.lt_succ_of_lt hlt).ne').trans (exit_extend ..), a,
      b :: bs, g :: (calls ++ gs), [], hframes,
      .branch hregion ((hb.agree hg hs h0 hlt).redirect ..) hexit' hbody
        ((he.extend hg _ outer).redirect ..) hnodup'
        ((exit_redirect_of_ne _ hlt.ne').trans (exit_extend_self ..)) hgroup,
      (level_extend ..).redirect .., hnodup⟩
  | @alternative _ _ inner _ a _ e bs bs'' gs gs'' calls calls'' _ cond hframes hregion hb hnodup
      hentry hside hend hnodup'' hskip hgroup hgroup' =>
    have hlt : e < active := hbody.le
    have hbe : b < e := hside.le
    have hba : b < active := hbe.trans hlt
    have hle := le_of_lt hba
    have hentry := (hs b h0 hba).1.trans hentry
    have hexit' := exit_redirect_self ((hs e e.zero_le hlt).1.trans hskip) (active + 1)
    have hframes := hframes.agree hg
      (hs.joined (active + 1) (hregion.le.trans hle) (.inr (hregion.le.trans hbe.le)))
    have hregion := hregion.agree hg (hs.joined (active + 1) hle (.inr hbe.le))
    have hside := hside.agree hg (hs.joined (active + 1) hlt.le (.inr le_rfl))
    have hbody := hbody.agree hg (hs.joined (active + 1) le_rfl (.inl e.lt_succ_self))
    exact ⟨(exit_redirect_of_ne _ (Nat.lt_succ_of_lt hlt).ne').trans (exit_extend ..), a,
      b :: bs, g :: (calls ++ gs), [], hframes,
      .alternative hregion ((hb.agree hg hs h0 hba).redirect ..)
        ((exit_redirect_of_ne _ hbe.ne).trans hentry) hside
        ((hend.agree hg hs e.zero_le hlt).redirect ..) hnodup'' hexit' hbody
        ((he.extend hg _ outer).redirect ..) hnodup'
        ((exit_redirect_of_ne _ hlt.ne').trans (exit_extend_self ..)) hgroup hgroup',
      (level_extend ..).redirect .., hnodup⟩

end Open

end Flow

end SecureTape
