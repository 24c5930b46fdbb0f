import SecureTape.Proofs.BuiltRegions
import SecureTape.Proofs.ControlActions
import SecureTape.Proofs.Reachable

/-!
# Block graphs of tapes under construction

Main statement: `BuildM.wired_of_underway`, the blocks of a tape that is being built stay well
formed whatever is called, and a call that should open or close a scope and fails changes nothing.

1. `Tape.Wired`: how the exits, scopes and children of blocks fit.
2. `Tape.Wired.startBlock`, `Tape.Wired.setTarget`: what the two steps of every scope keep of it.
3. `Tape.Edit.graph`: every edit of a tape keeps it, with what the open scopes remember.
-/

open SecureTape.Action

namespace SecureTape

open List

open Program RegisterFile

/-! ## Well-formed graphs -/

/-- The scope will fill in the target of the exit of the block: a branch without a second side waits
for the target of its condition, and one that has begun its second side for that of the first. -/
def Scope.Awaits : Scope → BlockId → Prop
  | .branch cond _ _ none, b => b = cond
  | .branch _ _ _ (some thenEnd), b => b = thenEnd
  | _, _ => False

namespace Tape

/-- The blocks of a tape that is being built: the last one is active, and exits, scopes and children
fit. An exit has no target yet only where `waits` holds of its block. -/
structure Wired (waits : BlockId → Prop) (t : Tape) : Prop where
  size : t.blocks.size = t.active + 1
  opened : t.activeBlock.isOpen = true
  exit_active : t.activeBlock.exit = none
  closed : ∀ b, b < t.active → (t.block b).state = .closed
  waiting : ∀ b kind, (t.block b).exit = some ⟨kind, none⟩ → waits b
  back : ∀ b cond target, (t.block b).exit = some ⟨.ifNonZero cond, target⟩ →
    ∃ y, target = some y ∧ y ≤ b
  ahead : ∀ b kind target, (t.block b).exit = some ⟨kind, some target⟩ →
    (∀ cond, kind ≠ .ifNonZero cond) → b < target ∧ target < t.blocks.size
  scope_lt : ∀ b parent, (t.block b).scope = some parent → parent < b
  children_eq : ∀ parent, parent < t.blocks.size → (t.block parent).children =
    (List.range t.blocks.size).filter fun b => (t.block b).scope = some parent

def Awaited (t : Tape) (b : BlockId) : Prop := ∃ s ∈ t.scopes, s.Awaits b

variable {waits waits' : BlockId → Prop} {t : Tape}

theorem lt_size_of_exit {b : BlockId} {e : Exit} (h : (t.block b).exit = some e) :
    b < t.blocks.size := by
  by_contra hb
  rw [block_of_size_le (not_lt.1 hb)] at h
  cases h

namespace Wired

theorem scopes (h : t.Wired waits) (scopes : List Scope) : Wired waits { t with scopes } :=
  ⟨h.size, h.opened, h.exit_active, h.closed, h.waiting, h.back, h.ahead, h.scope_lt, h.children_eq⟩

theorem mono (h : t.Wired waits) (himp : ∀ b, waits b → waits' b) : t.Wired waits' :=
  { h with waiting := fun b kind hb => himp b (h.waiting b kind hb) }

theorem congr {t' : Tape} (h : t.Wired waits) (hactive : t'.active = t.active)
    (hsize : t'.blocks.size = t.blocks.size)
    (hblock : ∀ b, (t'.block b).exit = (t.block b).exit ∧ (t'.block b).state = (t.block b).state ∧
      (t'.block b).scope = (t.block b).scope ∧ (t'.block b).children = (t.block b).children) :
    t'.Wired waits := by
  have hopen : t'.activeBlock.isOpen = t.activeBlock.isOpen := by
    rw [activeBlock, hactive, Block.isOpen, (hblock t.active).2.1]
    rfl
  refine ⟨?_, hopen.trans h.opened, ?_, ?_, ?_, ?_, ?_, ?_, ?_⟩
  · rw [hsize, hactive, h.size]
  · rw [activeBlock, hactive, (hblock _).1]
    exact h.exit_active
  · intro b hb
    rw [(hblock b).2.1]
    exact h.closed b (hactive ▸ hb)
  · intro b kind hexit
    exact h.waiting b kind ((hblock b).1 ▸ hexit)
  · intro b cond target hexit
    exact h.back b cond target ((hblock b).1 ▸ hexit)
  · intro b kind target hexit
    rw [hsize]
    exact h.ahead b kind target ((hblock b).1 ▸ hexit)
  · intro b parent hscope
    exact h.scope_lt b parent ((hblock b).2.2.1 ▸ hscope)
  · intro parent hparent
    rw [hsize] at hparent ⊢
    rw [(hblock parent).2.2.2, h.children_eq parent hparent]
    simp only [(hblock _).2.2.1]

/-- A block starts, and the active one gets an exit: a jump back, or a jump that waits for its
target. -/
theorem startBlock (h : t.Wired waits) (name : String) {scope : Option BlockId} {exit : Option Exit}
    (node : NodeId) (himp : ∀ b, waits b → waits' b)
    (hscope : ∀ parent, scope = some parent → parent ≤ t.active)
    (hback : ∀ e, exit = some e → ∀ target, e.target = some target →
      (∃ cond, e.kind = .ifNonZero cond) ∧ target ≤ t.active)
    (hwait : ∀ e, exit = some e → e.target = none →
      waits' t.active ∧ ∀ cond, e.kind ≠ .ifNonZero cond) :
    (t.startBlock name scope exit node).2.Wired waits' := by
  obtain ⟨name', pool, hblock⟩ := exists_block_startBlock h.size h.opened name scope exit node
  have hexit := exit_startBlock h.size h.opened name scope exit node
  have hactive : (t.startBlock name scope exit node).2.active = t.active + 1 :=
    (active_startBlock ..).trans h.size
  have hsize : (t.startBlock name scope exit node).2.blocks.size = t.active + 2 := by
    rw [size_startBlock, h.size]
  -- an exit is the new one, or was there before
  have hcases {b : BlockId} {e : Exit}
      (he : ((t.startBlock name scope exit node).2.block b).exit = some e) :
      b = t.active ∧ exit = some e ∨ (t.block b).exit = some e := by
    rw [hexit] at he
    split at he
    · cases he
    · split at he
      · exact .inl ⟨‹_›, he⟩
      · exact .inr he
  refine ⟨by rw [hsize, hactive], ?_, ?_, ?_, ?_, ?_, ?_, ?_, ?_⟩
  · obtain ⟨children, hb⟩ := hblock (t.active + 1)
    rw [activeBlock, hactive, hb, if_pos rfl]
    rfl
  · rw [activeBlock, hactive, hexit, if_pos rfl]
  · intro b hlt
    rw [hactive] at hlt
    obtain ⟨children, hb⟩ := hblock b
    rw [hb, if_neg (hlt.ne)]
    split
    · rfl
    · exact h.closed b (lt_of_le_of_ne (Nat.le_of_lt_succ hlt) ‹_›)
  · intro b kind he
    rcases hcases he with ⟨rfl, hnew⟩ | he
    · exact (hwait _ hnew rfl).1
    · exact himp b (h.waiting b kind he)
  · intro b cond target he
    rcases hcases he with ⟨rfl, hnew⟩ | he
    · cases target with
      | none => exact absurd rfl ((hwait _ hnew rfl).2 cond)
      | some y => exact ⟨y, rfl, (hback _ hnew y rfl).2⟩
    · exact h.back b cond target he
  · intro b kind target he hkind
    rcases hcases he with ⟨rfl, hnew⟩ | he
    · obtain ⟨cond, hcond⟩ := (hback _ hnew target rfl).1
      exact absurd hcond (hkind cond)
    · obtain ⟨hlt, htarget⟩ := h.ahead b kind target he hkind
      rw [h.size] at htarget
      rw [hsize]
      exact ⟨hlt, Nat.lt_succ_of_lt htarget⟩
  · intro b parent he
    rw [scope_startBlock] at he
    split at he
    · rename_i hb
      rw [hb, h.size]
      exact Nat.lt_succ_of_le (hscope parent he)
    · exact h.scope_lt b parent he
  · intro parent hparent
    have hrange : (List.range t.blocks.size).filter (fun b =>
          ((t.startBlock name scope exit node).2.block b).scope = some parent) =
        (List.range t.blocks.size).filter fun b => (t.block b).scope = some parent := by
      refine filter_congr fun b hb => ?_
      rw [scope_startBlock, if_neg (ne_of_lt (mem_range.1 hb))]
    rw [size_startBlock, range_succ, filter_append, hrange, filter_singleton,
      scope_startBlock, if_pos rfl]
    rcases lt_or_ge parent t.blocks.size with hlt | hge
    · rw [children_startBlock t name scope exit node hlt, h.children_eq parent hlt]
      by_cases hs : scope = some parent <;> simp [hs]
    · -- the new block is in no scope yet, and no scope is that far
      obtain rfl : parent = t.active + 1 := by
        rw [hsize] at hparent
        rw [h.size] at hge
        omega
      have hnone : (List.range t.blocks.size).filter
          (fun b => (t.block b).scope = some (t.active + 1)) = [] := by
        refine filter_eq_nil_iff.2 fun b hb he => ?_
        have hlt := h.scope_lt b _ (of_decide_eq_true he)
        rw [mem_range, h.size] at hb
        exact Nat.lt_asymm hlt hb
      have hnot : scope ≠ some (t.active + 1) := fun hs =>
        Nat.not_succ_le_self _ (hscope _ hs)
      obtain ⟨name'', pool', hall⟩ := block_startBlock t name scope exit node
      rw [hnone, hall, h.size, if_pos rfl]
      simp [hnot]

theorem setTarget (h : t.Wired waits) {b target : BlockId} (hlt : b < target)
    (htarget : target < t.blocks.size)
    (hkind : ∀ e, (t.block b).exit = some e → ∀ cond, e.kind ≠ .ifNonZero cond) :
    (t.modifyBlock b (·.setTarget target)).Wired fun x => waits x ∧ x ≠ b := by
  have hsize : (t.modifyBlock b (·.setTarget target)).blocks.size = t.blocks.size :=
    size_modifyBlock ..
  have hself : (t.modifyBlock b (·.setTarget target)).block b = (t.block b).setTarget target := by
    rw [block_modifyBlock, if_pos ⟨rfl, hlt.trans htarget⟩]
  have hother {x : BlockId} (hx : x ≠ b) :
      (t.modifyBlock b (·.setTarget target)).block x = t.block x := by
    rw [block_modifyBlock, if_neg fun h => hx h.1]
  have hfield (x : BlockId) :
      ((t.modifyBlock b (·.setTarget target)).block x).state = (t.block x).state ∧
      ((t.modifyBlock b (·.setTarget target)).block x).scope = (t.block x).scope ∧
      ((t.modifyBlock b (·.setTarget target)).block x).children = (t.block x).children := by
    rw [block_modifyBlock]
    split
    · rename_i hx
      rw [hx.1]
      exact ⟨rfl, rfl, rfl⟩
    · exact ⟨rfl, rfl, rfl⟩
  have hcases {x : BlockId} {e : Exit}
      (he : ((t.modifyBlock b (·.setTarget target)).block x).exit = some e) :
      x = b ∧ e.target = some target ∧ (∀ cond, e.kind ≠ .ifNonZero cond) ∨
        x ≠ b ∧ (t.block x).exit = some e := by
    by_cases hx : x = b
    · subst hx
      rw [hself] at he
      obtain ⟨e', he', rfl⟩ := Option.map_eq_some_iff.1 he
      exact .inl ⟨rfl, rfl, hkind e' he'⟩
    · rw [hother hx] at he
      exact .inr ⟨hx, he⟩
  have hactive : t.active ≠ b := by
    rw [h.size] at htarget
    exact ne_of_gt (hlt.trans_le (Nat.le_of_lt_succ htarget))
  refine ⟨hsize.trans h.size, ?_, ?_, ?_, ?_, ?_, ?_, ?_, ?_⟩
  · show (Tape.block _ t.active).isOpen = true
    rw [hother hactive]
    exact h.opened
  · show (Tape.block _ t.active).exit = none
    rw [hother hactive]
    exact h.exit_active
  · intro x hx
    rw [(hfield x).1]
    exact h.closed x hx
  · intro x kind he
    rcases hcases he with ⟨-, hnone, -⟩ | ⟨hx, he⟩
    · cases hnone
    · exact ⟨h.waiting x kind he, hx⟩
  · intro x cond y he
    rcases hcases he with ⟨-, -, hnot⟩ | ⟨-, he⟩
    · exact absurd rfl (hnot cond)
    · exact h.back x cond y he
  · intro x kind y he hnot
    rw [hsize]
    rcases hcases he with ⟨rfl, hy, -⟩ | ⟨-, he⟩
    · cases hy
      exact ⟨hlt, htarget⟩
    · exact h.ahead x kind y he hnot
  · intro x parent hscope
    exact h.scope_lt x parent ((hfield x).2.1 ▸ hscope)
  · intro parent hparent
    rw [hsize] at hparent ⊢
    rw [(hfield parent).2.2, h.children_eq parent hparent]
    simp only [(hfield _).2.1]

end Wired

end Tape

/-! ## What open scopes remember -/

/-- The blocks that an open scope remembers are there, with exits of the right kind. -/
def Scope.Fits (t : Tape) : Scope → Prop
  | .loop start entry _ _ => start ≤ t.active ∧ entry ≤ t.active
  | .branch cond _ _ none => ∃ c target, (t.block cond).exit = some ⟨.ifZero c, target⟩
  | .branch cond _ _ (some thenEnd) =>
    (∃ c target, (t.block cond).exit = some ⟨.ifZero c, some target⟩) ∧
      ∃ target, (t.block thenEnd).exit = some ⟨.always, target⟩
  | .function entry _ => entry ≤ t.active

theorem Scope.Fits.mono {t t' : Tape} {s : Scope} (h : s.Fits t) (hactive : t.active ≤ t'.active)
    (hexit : ∀ b kind target, (t.block b).exit = some ⟨kind, target⟩ →
      ∃ target', (t'.block b).exit = some ⟨kind, target'⟩ ∧ (target.isSome → target'.isSome)) :
    s.Fits t' := by
  cases s with
  | loop start entry outer counter => exact ⟨h.1.trans hactive, h.2.trans hactive⟩
  | function entry outer => exact h.trans hactive
  | branch cond group outer thenEnd =>
    cases thenEnd with
    | none =>
      obtain ⟨c, target, hc⟩ := h
      obtain ⟨target', hc', -⟩ := hexit cond _ _ hc
      exact ⟨c, target', hc'⟩
    | some thenEnd =>
      obtain ⟨⟨c, target, hc⟩, target₂, hend⟩ := h
      obtain ⟨target', hc', hsome⟩ := hexit cond _ _ hc
      obtain ⟨y, rfl⟩ := Option.isSome_iff_exists.1 (hsome rfl)
      obtain ⟨target₂', hend', -⟩ := hexit thenEnd _ _ hend
      exact ⟨⟨c, y, hc'⟩, target₂', hend'⟩

namespace Tape

/-- The blocks of the tape are well formed, and open scopes wait for the missing targets. -/
structure Graph (t : Tape) : Prop where
  wired : t.Wired t.Awaited
  fits : ∀ s ∈ t.scopes, s.Fits t

namespace Graph

variable {t : Tape}

theorem push (h : t.Graph) (op : Op) :
    (t.modifyBlock t.active fun b => { b with ops := b.ops ++ [op] }).Graph := by
  have hblock (b : BlockId) : ∃ ops,
      (t.modifyBlock t.active fun b => { b with ops := b.ops ++ [op] }).block b =
        { t.block b with ops } := by
    rw [block_modifyBlock]
    split
    · rename_i hb
      exact ⟨_, by rw [hb.1]⟩
    · exact ⟨_, rfl⟩
  have hexit (b : BlockId) :
      ((t.modifyBlock t.active fun b => { b with ops := b.ops ++ [op] }).block b).exit =
        (t.block b).exit := by
    obtain ⟨ops, hb⟩ := hblock b
    rw [hb]
  refine ⟨h.wired.congr rfl (size_modifyBlock ..) fun b => ?_, fun s hs => ?_⟩
  · obtain ⟨ops, hb⟩ := hblock b
    rw [hb]
    exact ⟨rfl, rfl, rfl, rfl⟩
  · refine (h.fits s hs).mono le_rfl fun b kind target he => ?_
    exact ⟨target, (hexit b).trans he, fun h => h⟩

variable {b : BlockId} {e : Exit}

theorem exit_startBlock_of_some (h : t.Graph) (name : String) (scope : Option BlockId)
    (exit : Option Exit) (node : NodeId) (he : (t.block b).exit = some e) :
    ((t.startBlock name scope exit node).2.block b).exit = some e := by
  have hlt := lt_size_of_exit he
  have hne : b ≠ t.active := by
    rintro rfl
    cases h.wired.exit_active.symm.trans he
  rw [h.wired.size] at hlt
  rw [exit_startBlock h.wired.size h.wired.opened, if_neg (hlt.ne), if_neg hne]
  exact he

theorem fits_startBlock (h : t.Graph) (name : String) (scope : Option BlockId) (exit : Option Exit)
    (node : NodeId) {s : Scope} (hs : s ∈ t.scopes) : s.Fits (t.startBlock name scope exit node).2 := by
  refine (h.fits s hs).mono ?_ fun b kind target he => ?_
  · rw [active_startBlock, h.wired.size]
    exact Nat.le_succ _
  · exact ⟨target, h.exit_startBlock_of_some name scope exit node he, fun h => h⟩

theorem le_active_of_exit (h : t.Graph) (he : (t.block b).exit = some e) : b ≤ t.active := by
  have hlt := lt_size_of_exit he
  rw [h.wired.size] at hlt
  exact Nat.le_of_lt_succ hlt

theorem started (h : t.Graph) (name : String) {scope : Option BlockId} {exit : Option Exit}
    (node : NodeId) {scopes : List Scope}
    (hscope : ∀ parent, scope = some parent → parent ≤ t.active)
    (hback : ∀ e, exit = some e → ∀ target, e.target = some target →
      (∃ cond, e.kind = .ifNonZero cond) ∧ target ≤ t.active)
    (hwait : ∀ e, exit = some e → e.target = none →
      (∃ s ∈ scopes, s.Awaits t.active) ∧ ∀ cond, e.kind ≠ .ifNonZero cond)
    (hold : ∀ s ∈ t.scopes, ∀ b, s.Awaits b → s ∈ scopes)
    (hnew : ∀ s ∈ scopes, s ∈ t.scopes ∨ s.Fits (t.startBlock name scope exit node).2) :
    Graph { (t.startBlock name scope exit node).2 with scopes } := by
  have himp (b : BlockId) (hb : t.Awaited b) : ∃ s ∈ scopes, s.Awaits b := by
    obtain ⟨s, hs, hawaits⟩ := hb
    exact ⟨s, hold s hs b hawaits, hawaits⟩
  refine ⟨(h.wired.startBlock name node himp hscope hback hwait).scopes scopes, fun s hs => ?_⟩
  refine (hnew s hs).elim (fun hs => ?_) fun hfits => hfits
  exact h.fits_startBlock name scope exit node hs

/-- A block starts as the target of a jump ahead, and the scopes that waited for it are closed. -/
theorem joined (h : t.Graph) (name : String) {scope : Option BlockId} {exit : Option Exit}
    (node : NodeId) {scopes : List Scope}
    (hb : (t.block b).exit = some e) (hkind : ∀ cond, e.kind ≠ .ifNonZero cond)
    (hscope : ∀ parent, scope = some parent → parent ≤ t.active)
    (hexit : ∀ e, exit = some e → e.target = none ∧ (∃ s ∈ scopes, s.Awaits t.active) ∧
      ∀ cond, e.kind ≠ .ifNonZero cond)
    (hold : ∀ s ∈ t.scopes, ∀ x, s.Awaits x → s ∈ scopes ∨ x = b)
    (hnew : ∀ s ∈ scopes, s ∈ t.scopes ∨ s.Fits
      ((t.startBlock name scope exit node).2.modifyBlock b (·.setTarget t.blocks.size))) :
    Graph { (t.startBlock name scope exit node).2.modifyBlock b (·.setTarget t.blocks.size) with
      scopes } := by
  have hstarted : (t.startBlock name scope exit node).2.Wired
      fun x => t.Awaited x ∨ ∃ s ∈ scopes, s.Awaits x := by
    refine h.wired.startBlock name node (fun x hx => .inl hx) hscope (fun e he target htarget => ?_)
      fun e he _ => (hexit e he).2.imp_left .inr
    cases (hexit e he).1.symm.trans htarget
  have hlt : b < t.blocks.size := lt_size_of_exit hb
  have hb' := h.exit_startBlock_of_some name scope exit node hb
  have hjoined := hstarted.setTarget hlt
    (by rw [size_startBlock]; exact Nat.lt_succ_self _) fun e' he' => by
      cases hb'.symm.trans he'
      exact hkind
  refine ⟨(hjoined.mono fun x hx => ?_).scopes scopes, fun s hs => ?_⟩
  · obtain ⟨⟨s, hs, hawaits⟩ | hx, hne⟩ := hx
    · exact ⟨s, (hold s hs x hawaits).resolve_right hne, hawaits⟩
    · exact hx
  · refine (hnew s hs).elim (fun hs => ?_) fun hfits => hfits
    refine (h.fits_startBlock name scope exit node hs).mono le_rfl fun x kind target he => ?_
    show ∃ target', (Tape.block (modifyBlock ..) x).exit = _ ∧ _
    rw [block_modifyBlock]
    split
    · rename_i hx
      rw [hx.1] at he
      refine ⟨some t.blocks.size, ?_, fun _ => rfl⟩
      rw [Block.setTarget, he]
      rfl
    · exact ⟨target, he, fun h => h⟩

theorem new (id : TapeId) (name : String) (kind : TapeKind) (singular : Bool) (root : NodeId) :
    (Tape.new id name kind singular root).Graph := by
  have hblock (b : BlockId) : ((Tape.new id name kind singular root).block b).exit = none ∧
      ((Tape.new id name kind singular root).block b).scope = none ∧
      ((Tape.new id name kind singular root).block b).children = [] := by
    refine forall_block (P := fun b => b.exit = none ∧ b.scope = none ∧ b.children = [])
      ⟨rfl, rfl, rfl⟩ (fun b hb => ?_) b
    rw [Array.mem_singleton.1 hb]
    exact ⟨rfl, rfl, rfl⟩
  have hexit {b : BlockId} {e : Exit}
      (he : ((Tape.new id name kind singular root).block b).exit = some e) : False := by
    cases (hblock b).1.symm.trans he
  refine ⟨⟨rfl, rfl, rfl, fun b hb => absurd hb b.not_lt_zero, fun _ _ he => (hexit he).elim,
    fun _ _ _ he => (hexit he).elim, fun _ _ _ he => (hexit he).elim, fun b parent he => ?_,
    fun parent _ => ?_⟩, nofun⟩
  · cases (hblock b).2.1.symm.trans he
  · rw [(hblock parent).2.2, eq_comm, filter_eq_nil_iff]
    intro b _ he
    cases (hblock b).2.1.symm.trans (of_decide_eq_true he)

end Graph

variable {options : Options} {calls : Prop} {t t' : Tape}

/-- Every edit keeps the blocks of a tape well formed as long as it is being built. -/
theorem Edit.graph (h : Edit options calls t t') (ht : t.state = .building → t.Graph)
    (hstate' : t'.state = .building) : t'.Graph := by
  cases h with
  | note h =>
    have hg := ht (h.state ▸ hstate')
    have hblock (b : BlockId) : t'.block b = t.block b := by rw [block, h.blocks, block]
    refine ⟨?_, fun s hs => ?_⟩
    · have hawaited : t'.Awaited = t.Awaited := by
        unfold Awaited
        rw [h.scopes]
      rw [hawaited]
      refine hg.wired.congr h.active (by rw [h.blocks]) fun b => ?_
      rw [hblock]
      exact ⟨rfl, rfl, rfl, rfl⟩
    · refine (hg.fits s (h.scopes ▸ hs)).mono h.active.symm.le fun b kind target he => ?_
      rw [hblock]
      exact ⟨target, he, fun h => h⟩
  | registers _ hg | prologue =>
    have hg := ht hstate'
    exact ⟨⟨hg.wired.size, hg.wired.opened, hg.wired.exit_active, hg.wired.closed, hg.wired.waiting,
      hg.wired.back, hg.wired.ahead, hg.wired.scope_lt, hg.wired.children_eq⟩, hg.fits⟩
  | @push op hb hopen hop hcall => exact (ht hstate').push op
  | @startBlock name scope node hb hscope =>
    have hg := ht (of_decide_eq_true hb)
    have hle : ∀ parent, scope = some parent → parent ≤ t.active := by
      intro parent hparent
      rcases hscope with rfl | rfl <;> cases hparent
      exact le_rfl
    have hstarted : Graph { (t.startBlock name scope none node).2 with scopes := t.scopes } :=
      hg.started name node hle (by simp) (by simp) (fun s hs _ _ => hs) fun s hs => .inl hs
    rwa [← scopes_startBlock t name scope none node] at hstarted
  | @openLoop name node outer counter hb =>
    have hg := ht (of_decide_eq_true hb)
    refine hg.started name node ?_ (by simp) (by simp) (fun s hs _ _ => mem_cons_of_mem _ hs)
      fun s hs => ?_
    · rintro _ ⟨⟩
      exact le_rfl
    · rcases mem_cons.1 hs with rfl | hs
      · refine .inr ?_
        rw [Scope.Fits, active_startBlock, hg.wired.size]
        exact ⟨le_rfl, Nat.le_succ _⟩
      · exact .inl hs
  | @endLoop name cond start entry outer counter rest hb hscopes hcond =>
    have hg := ht (of_decide_eq_true hb)
    have hloop := hg.fits (.loop start entry outer counter) (by rw [hscopes]; exact .head _)
    refine hg.started name outer ?_ ?_ ?_ (fun s hs b hawaits => ?_) fun s hs => ?_
    · rintro _ ⟨⟩
      exact hloop.2
    · rintro _ ⟨⟩ _ ⟨⟩
      exact ⟨⟨cond, rfl⟩, hloop.1⟩
    · rintro _ ⟨⟩ hnone
      cases hnone
    · rw [hscopes] at hs
      rcases mem_cons.1 hs with rfl | hs
      · exact hawaits.elim
      · exact hs
    · refine .inl ?_
      rw [hscopes]
      exact .tail _ hs
  | @beginIf name cond group node outer hb hcond =>
    have hg := ht (of_decide_eq_true hb)
    refine hg.started name node ?_ ?_ (by rintro _ ⟨⟩ -; exact ⟨⟨_, .head _, rfl⟩, by simp⟩)
      (fun s hs _ _ => .tail _ hs) fun s hs => ?_
    · rintro _ ⟨⟩
      exact le_rfl
    · rintro _ ⟨⟩ _ hsome
      cases hsome
    · rcases mem_cons.1 hs with rfl | hs
      · refine .inr ⟨cond, none, ?_⟩
        rw [exit_startBlock hg.wired.size hg.wired.opened, if_neg (ne_of_lt (Nat.lt_succ_self _)),
          if_pos rfl]
      · exact .inl hs
  | @beginElse name cond group node outer rest hb hscopes =>
    have hg := ht (of_decide_eq_true hb)
    obtain ⟨c, target, hexit⟩ :=
      hg.fits (.branch cond group outer none) (by rw [hscopes]; exact .head _)
    have hactive : t.active ≠ cond := by
      rintro rfl
      cases hg.wired.exit_active.symm.trans hexit
    refine hg.joined name node hexit (by simp) ?_ ?_ (fun s hs x hawaits => ?_) fun s hs => ?_
    · rintro _ ⟨⟩
      exact hg.le_active_of_exit hexit
    · rintro _ ⟨⟩
      exact ⟨rfl, ⟨_, .head _, rfl⟩, by simp⟩
    · rw [hscopes] at hs
      rcases mem_cons.1 hs with rfl | hs
      · exact .inr hawaits
      · exact .inl (.tail _ hs)
    · rcases mem_cons.1 hs with rfl | hs
      · refine .inr ⟨⟨c, t.blocks.size, ?_⟩, none, ?_⟩
        · have hlt :
              cond < (t.startBlock name (some cond) (some ⟨.always, none⟩) node).2.blocks.size := by
            rw [size_startBlock]
            exact Nat.lt_succ_of_lt (lt_size_of_exit hexit)
          rw [block_modifyBlock, if_pos ⟨rfl, hlt⟩, Block.setTarget,
            hg.exit_startBlock_of_some name _ _ node hexit]
          rfl
        · rw [block_modifyBlock, if_neg fun h => hactive h.1,
            exit_startBlock hg.wired.size hg.wired.opened,
            if_neg (ne_of_lt (Nat.lt_succ_self _)), if_pos rfl]
      · refine .inl ?_
        rw [hscopes]
        exact .tail _ hs
  | @endIf name cond group outer thenEnd rest hb hscopes =>
    have hg := ht (of_decide_eq_true hb)
    have hfits := hg.fits (.branch cond group outer thenEnd)
      (by rw [hscopes]; exact .head _)
    have hcond : ∃ e, (t.block cond).exit = some e := by
      cases thenEnd with
      | none => exact ⟨_, hfits.choose_spec.choose_spec⟩
      | some thenEnd => exact ⟨_, hfits.1.choose_spec.choose_spec⟩
    have hawaits : ∃ e, (t.block (thenEnd.getD cond)).exit = some e ∧
        (∀ c, e.kind ≠ .ifNonZero c) ∧
        ∀ x, (Scope.branch cond group outer thenEnd).Awaits x → x = thenEnd.getD cond := by
      cases thenEnd with
      | none => exact ⟨_, hfits.choose_spec.choose_spec, (by simp), fun x hx => hx⟩
      | some thenEnd => exact ⟨_, hfits.2.choose_spec, (by simp), fun x hx => hx⟩
    obtain ⟨e, hexit, hkind, hx⟩ := hawaits
    obtain ⟨e', hcond⟩ := hcond
    refine hg.joined name outer hexit hkind ?_ (by simp) (fun s hs x hawaits => ?_) fun s hs => ?_
    · rintro _ ⟨⟩
      exact hg.le_active_of_exit hcond
    · rw [hscopes] at hs
      rcases mem_cons.1 hs with rfl | hs
      · exact .inr (hx x hawaits)
      · exact .inl hs
    · refine .inl ?_
      rw [hscopes]
      exact .tail _ hs
  | @beginFunction name outer hb =>
    have hg := ht (of_decide_eq_true hb)
    refine hg.started name outer (by simp) (by simp) (by simp) (fun s hs _ _ => mem_cons_of_mem _ hs)
      fun s hs => ?_
    rcases mem_cons.1 hs with rfl | hs
    · refine .inr ?_
      rw [Scope.Fits, active_startBlock, hg.wired.size]
      exact Nat.le_succ _
    · exact .inl hs
  | @endFunction name entry outer rest hb hscopes =>
    have hg := ht (of_decide_eq_true hb)
    have hentry := hg.fits (.function entry outer) (by rw [hscopes]; exact .head _)
    refine hg.started name outer ?_ (by simp) (by simp) (fun s hs b hawaits => ?_) fun s hs => ?_
    · rintro _ ⟨⟩
      exact hentry
    · rw [hscopes] at hs
      rcases mem_cons.1 hs with rfl | hs
      · exact hawaits.elim
      · exact hs
    · refine .inl ?_
      rw [hscopes]
      exact .tail _ hs
  | close hb hscopes =>
    rw [closeTape_eq] at hstate'
    cases hstate'
  | setOps hstate | declare hstate | place hstate => cases hstate.symm.trans hstate'
  | allocate | encode => cases hstate'

theorem Edits.graph (h : Edits options calls t t') (ht : t.state = .building → t.Graph)
    (hstate' : t'.state = .building) : t'.Graph := by
  induction h with
  | refl => exact ht hstate'
  | tail _ h ih => exact h.graph ih hstate'

end Tape

/-! ## Programs under construction -/

namespace Program

variable {p q : Program}

def Graphs (p : Program) : Prop :=
  ∀ id, id < p.tapes.size → (p.tapeAt id).state = .building → (p.tapeAt id).Graph

theorem Evolves.graphs (h : Evolves p q) (hp : p.Graphs) : q.Graphs := by
  intro id hid hstate
  by_cases hold : id < p.tapes.size
  · exact (h.tape hold).graph (hp id hold) hstate
  · obtain ⟨name, kind, singular, root, hborn⟩ := h.born (not_lt.1 hold) hid
    exact hborn.graph (fun _ => .new ..) hstate

theorem graphs_of_new {name : String} {options : Options} (h : Program.new name options = .ok p) :
    p.Graphs := by
  unfold Program.new at h
  split at h
  · cases h
  · cases h
    intro id hid _
    obtain rfl : id = mainTape := Nat.lt_one_iff.1 hid
    exact .new ..

open BuildM in
/-- The program at any moment while it is built: after any calls, whether they failed or not, and
also inside the bodies of tapes and of macros, which are built on a tape of their own. -/
inductive Underway : Program → Prop
  | new {name : String} {options : Options} {p : Program} (h : Program.new name options = .ok p) :
      Underway p
  | call {p : Program} (h : Underway p) {α : Type} {act : BuildM α} (hact : act.Api) :
      Underway (act.run p).2
  | addTape {p : Program} (h : Underway p) (name : String) (kind : TapeKind) (singular : Bool) :
      Underway ((addTape name kind singular).run p).2
  | turnTo {p : Program} (h : Underway p) {id : TapeId} (hid : id < p.tapes.size) :
      Underway { p with current := id }
  | openTemplate {p : Program} (h : Underway p) {key : MacroKey} {signature : MacroSignature}
      {params : List Reg} {regs : RegisterFile} {root : NodeId} {tree : RequirementTree}
      (hregs : (createParams signature).run (.new p.tapes.size) = (.ok params, regs)) :
      Underway { p with
        tree, vectorSize := 1, domain := key.domain, current := p.tapes.size
        tapes := p.tapes.push { Tape.new p.tapes.size key.text .template true root with regs } }

namespace Underway

theorem of_reachable (h : p.Reachable) : p.Underway := by
  obtain ⟨name, options, start, α, act, hnew, hact, rfl⟩ := h
  exact .call (.new hnew) hact

theorem coherent_and_graphs (h : p.Underway) : p.Coherent ∧ p.Graphs := by
  induction h with
  | new h => exact ⟨coherent_of_new h, graphs_of_new h⟩
  | call _ hact ih =>
    have hends := (hact.lawful _ ih.1).ends
    exact ⟨hends.coherent, hends.graphs ih.2⟩
  | addTape _ name kind singular ih =>
    have hends := (BuildM.meets_addTape ih.1 name kind singular).ends
    exact ⟨hends.coherent, hends.graphs ih.2⟩
  | turnTo _ hid ih => exact ⟨ih.1.turnTo hid, ih.2⟩
  | @openTemplate p _ key signature params regs root tree hregs ih =>
    have haside : Evolves p { p with tree, vectorSize := 1, domain := key.domain } :=
      ih.1.beside rfl
    have hgrows := (BuildM.meets_createParams (valid_new p.tapes.size) signature).ends
    rw [hregs] at hgrows
    have hpush := haside.coherent.addTape (.single (.registers
      (t := Tape.new p.tapes.size key.text .template true root) (.inl rfl)
      ⟨hgrows.ext.keeps, hgrows.valid⟩))
    refine ⟨hpush.coherent.turnTo ?_, hpush.graphs (haside.graphs ih.2)⟩
    simp

end Underway

end Program

namespace BuildM

variable {p : Program}

inductive ControlCall : BuildM Unit → Prop
  | beginLoop (times : Count) : ControlCall (beginLoop times)
  | endLoop (cond : Reg) : ControlCall (endLoop cond)
  | beginIf (cond : Reg) : ControlCall (beginIf cond)
  | beginElse : ControlCall beginElse
  | endIf : ControlCall endIf
  | beginFunction : ControlCall beginFunction
  | endFunction : ControlCall endFunction

theorem Replaces.eq_of_error {α : Type} {act : BuildM α} {Q : Tape → RequirementTree → Prop}
    (h : Replaces act p Q) {e : CompileError} {q : Program} (hrun : act.run p = (.error e, q)) :
    q = p := by
  rcases h with ⟨e', herror⟩ | ⟨-, a, t, tree, hok, -⟩
  · cases herror.symm.trans hrun
    rfl
  · cases hok.symm.trans hrun

theorem ControlCall.eq_of_error {act : BuildM Unit} (h : ControlCall act)
    (hlt : p.current < p.tapes.size) {e : CompileError} {q : Program}
    (hrun : act.run p = (.error e, q)) : q = p := by
  cases h with
  | beginLoop times => exact (openLoop_cases p times none).eq_of_error hrun
  | endLoop cond => exact (endLoop_cases p hlt cond).eq_of_error hrun
  | beginIf cond => exact (beginIf_cases p cond).eq_of_error hrun
  | beginElse => exact (beginElse_cases p).eq_of_error hrun
  | endIf => exact (endIf_cases p hlt).eq_of_error hrun
  | beginFunction => exact (beginFunction_cases p).eq_of_error hrun
  | endFunction => exact (endFunction_cases p hlt).eq_of_error hrun

/-- At every moment while a program is built, the blocks of the tapes that are being built are well
formed, and targets are missing only where open scopes wait for them. A call that should open or
close a scope and fails changes nothing. -/
theorem wired_of_underway (hp : p.Underway) :
    (∀ id, id < p.tapes.size → (p.tapeAt id).state = .building →
      (p.tapeAt id).Wired (p.tapeAt id).Awaited ∧
      ((p.tapeAt id).scopes = [] → ∀ b e, ((p.tapeAt id).block b).exit = some e →
        e.target.isSome = true)) ∧
    ∀ act, ControlCall act → ∀ e q, act.run p = (.error e, q) → q = p := by
  obtain ⟨hcoherent, hgraphs⟩ := hp.coherent_and_graphs
  refine ⟨fun id hid hstate => ?_, fun act hact e q hrun => hact.eq_of_error hcoherent.current_lt hrun⟩
  have hwired := (hgraphs id hid hstate).wired
  refine ⟨hwired, fun hscopes b e hexit => ?_⟩
  obtain ⟨kind, _ | target⟩ := e
  · obtain ⟨s, hs, -⟩ := hwired.waiting b kind hexit
    rw [hscopes] at hs
    cases hs
  · rfl

/-- A loop with a branch in it, on the second side. -/
def branchInLoop : BuildM Unit := do
  let cond ← newInteger
  openLoop .unbounded none
  beginIf cond
  beginElse

theorem api_branchInLoop : branchInLoop.Api :=
  .bind .newInteger fun _ => .bind (.openLoop ..) fun _ => .bind (.beginIf _) fun _ => .beginElse

theorem wired_of_underway_branch :
    ((builtBy branchInLoop).tapeAt mainTape).blocks.toList.map (·.exit) =
      [none, some ⟨.ifZero ⟨mainTape, 0⟩, some 3⟩, some ⟨.always, none⟩, none] ∧
    ((builtBy branchInLoop).tapeAt mainTape).Wired ((builtBy branchInLoop).tapeAt mainTape).Awaited ∧
    ∃ e q, (endLoop ⟨mainTape, 0⟩).run (builtBy branchInLoop) = (.error e, q) ∧
      q = builtBy branchInLoop := by
  obtain ⟨hwired, hfails⟩ := wired_of_underway (.of_reachable (reachable_builtBy api_branchInLoop))
  refine ⟨by decide +kernel, (hwired mainTape (by decide +kernel) (by decide +kernel)).1, ?_⟩
  have hcheck : ((endLoop ⟨mainTape, 0⟩).run (builtBy branchInLoop)).1.toBool = false := by
    decide +kernel
  rcases hrun : (endLoop ⟨mainTape, 0⟩).run (builtBy branchInLoop) with ⟨e | _, q⟩
  · exact ⟨e, q, rfl, hfails _ (.endLoop _) e q hrun⟩
  · rw [hrun] at hcheck
    cases hcheck

end BuildM

end SecureTape
