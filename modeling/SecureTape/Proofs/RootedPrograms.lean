import SecureTape.Proofs.BuildSteps
import SecureTape.Proofs.CertifiedTrees
import SecureTape.Proofs.JumpTargets

/-!
# Programs and their requirement trees

The requirement tree of a program keeps right aggregates while the program is built and compiled,
and it only grows. Main statements:
1. `Tape.Below`: the nodes that a tape refers to are in the tree.
2. `Program.Rooted`: the tree comes from an earlier one by additions, and all tapes are below it.
3. `Program.tracked_rooted`: building a program maintains this, as long as loops run a valid number
   of times.
4. `BuildM.compiles_rooted`: so do all stages of compiling.
-/

open SecureTape.Action

namespace SecureTape

open List

open Program RequirementTree

/-! ## Nodes of a tape -/

variable {tree tree' t₀ : RequirementTree} {f : Block → Block} {node : NodeId} {t : Tape}
  {inner outer : Rules} {p q : Program} {id : TapeId}

/-- The nodes and groups that an open scope goes back to are in the tree. -/
def Scope.Below (tree : RequirementTree) : Scope → Prop
  | .loop _ _ outer _ => outer < tree.size
  | .branch _ group outer _ => outer < tree.size ∧ group < (tree.node outer).groups.length
  | .function _ outer => outer < tree.size

theorem Scope.Below.mono {s : Scope} (h : s.Below tree) (htree : Accrues tree tree') :
    s.Below tree' := by
  cases s with
  | loop | function => exact h.trans_le htree.size_le
  | branch cond group outer thenEnd =>
    exact ⟨h.1.trans_le htree.size_le, h.2.trans_le (htree.groups outer)⟩

namespace Tape

/-- The nodes that the tape refers to are in the tree. -/
structure Below (tree : RequirementTree) (t : Tape) : Prop where
  root : t.root < tree.size
  nodes : ∀ b ∈ t.blocks, b.node < tree.size
  scopes : ∀ s ∈ t.scopes, s.Below tree

variable {t' : Tape}

theorem mem_modify {b : Block} {bs : Array Block} {k : Nat} (h : b ∈ bs.modify k f) :
    b ∈ bs ∨ ∃ c ∈ bs, b = f c := by
  obtain ⟨i, hi⟩ := Array.mem_iff_getElem?.1 h
  rw [Array.getElem?_modify] at hi
  split at hi
  · obtain ⟨c, hc, rfl⟩ := Option.map_eq_some_iff.1 hi
    exact .inr ⟨c, Array.mem_of_getElem? hc, rfl⟩
  · exact .inl (Array.mem_of_getElem? hi)

namespace Below

theorem mono (h : t.Below tree) (htree : Accrues tree tree') : t.Below tree' :=
  ⟨h.root.trans_le htree.size_le,
    fun b hb => lt_of_lt_of_le (h.nodes b hb) htree.size_le, fun s hs => (h.scopes s hs).mono htree⟩

theorem block (h : t.Below tree) (k : BlockId) : (t.block k).node < tree.size := by
  rcases Nat.lt_or_ge k t.blocks.size with hk | hk
  · refine h.nodes _ ?_
    rw [Tape.block, Array.getD_eq_getD_getElem?, Array.getElem?_eq_getElem hk]
    exact Array.getElem_mem hk
  · rw [block_of_size_le hk]
    exact Nat.lt_of_le_of_lt (Nat.zero_le _) h.root

theorem of_eq (h : t.Below tree) (hroot : t'.root = t.root) (hblocks : t'.blocks = t.blocks)
    (hscopes : t'.scopes = t.scopes) : t'.Below tree :=
  ⟨hroot ▸ h.root, hblocks ▸ h.nodes, hscopes ▸ h.scopes⟩

theorem modifyBlock (h : t.Below tree) (k : BlockId) (hf : ∀ b, (f b).node = b.node) :
    (t.modifyBlock k f).Below tree := by
  refine ⟨h.root, fun b hb => ?_, h.scopes⟩
  rcases mem_modify hb with hb | ⟨c, hc, rfl⟩
  · exact h.nodes b hb
  · rw [hf]
    exact h.nodes c hc

theorem append (h : t.Below tree) (op : Op) : (t.append op).Below tree :=
  h.modifyBlock t.active fun _ => rfl

theorem withBlocks (h : t.Below tree) {blocks : Array Block}
    (hblocks : ∀ b ∈ blocks, ∃ c ∈ t.blocks, b.node = c.node) :
    ({ t with blocks } : Tape).Below tree := by
  refine ⟨h.root, fun b hb => ?_, h.scopes⟩
  obtain ⟨c, hc, heq⟩ := hblocks b hb
  exact heq ▸ h.nodes c hc

theorem withScopes (h : t.Below tree) {scopes : List Scope} (hscopes : ∀ s ∈ scopes, s.Below tree) :
    ({ t with scopes } : Tape).Below tree :=
  ⟨h.root, h.nodes, hscopes⟩

theorem startBlock (h : t.Below tree) (name : String) (scope : Option BlockId) (exit : Option Exit)
    (hnode : node < tree.size) : (t.startBlock name scope exit node).2.Below tree := by
  have hclose (b : Block) : (b.close exit).node = b.node := by
    unfold Block.close
    split
    · rfl
    · rfl
  obtain ⟨name', pool, heq⟩ := exists_startBlock_eq t name scope exit node
  have hpush : ((t.modifyBlock t.active (·.close exit)).pushBlock
      { name := name', scope, pool, node }).Below tree := by
    refine ⟨h.root, fun b hb => ?_, h.scopes⟩
    rcases Array.mem_push.1 hb with hb | rfl
    · exact (h.modifyBlock t.active hclose).nodes b hb
    · exact hnode
  rw [heq]
  cases scope with
  | none => exact hpush
  | some parent => exact hpush.modifyBlock parent fun _ => rfl

theorem new (id : TapeId) (name : String) (kind : TapeKind) (singular : Bool) {root : NodeId}
    (hroot : root < tree.size) : (Tape.new id name kind singular root).Below tree := by
  refine ⟨hroot, fun b hb => ?_, by simp [Tape.new]⟩
  rw [mem_singleton.1 (Array.mem_toList_iff.2 hb)]
  exact hroot

theorem default (h : 0 < tree.size) : (Inhabited.default : Tape).Below tree :=
  ⟨h, nofun, nofun⟩

theorem closeTape (h : t.Below tree) : (BuildM.closeTape t).Below tree := by
  have hfront : (t.modifyBlock 0 fun b => { b with ops := t.prologue ++ b.ops }).Below tree :=
    h.modifyBlock 0 fun _ => rfl
  refine closeTape_eq t ▸ ⟨h.root, fun b hb => ?_, h.scopes⟩
  obtain ⟨c, hc, rfl⟩ := Array.mem_map.1 hb
  obtain ⟨d, hd, rfl⟩ := Array.mem_map.1 hc
  have hd := hfront.nodes d hd
  unfold Block.close
  split
  · exact hd
  · exact hd

theorem declare (h : t.Below tree) (is : List Instruction) : (t.declare is).Below tree :=
  h.modifyBlock _ fun _ => rfl

end Below

end Tape

theorem Layout.map_node_resolve (bs : List Block) : (resolve bs).2.map (·.node) = bs.map (·.node) := by
  have hplace (offset : Nat) (bs : List Block) : (place offset bs).map (·.node) = bs.map (·.node) := by
    induction bs generalizing offset with
    | nil => rfl
    | cons b bs ih => exact congrArg (b.node :: ·) (ih _)
  have hblock {start : BlockId → Nat} {index : BlockId} {b b' : Block}
      (h : b.resolve start index = .ok b') : b'.node = b.node := by
    unfold Block.resolve at h
    split at h
    · cases h
      rfl
    · cases h
    · simp only [] at h
      split at h
      · cases h
      · cases h
        show (b.setJump _).node = b.node
        unfold Block.setJump
        split
        · rfl
        · rfl
  have hresolve (start : BlockId → Nat) (index : BlockId) (bs : List Block) :
      (resolveFrom start index bs).2.map (·.node) = bs.map (·.node) := by
    induction bs generalizing index with
    | nil => rfl
    | cons b bs ih =>
      unfold resolveFrom
      split
      · rfl
      · rename_i b' hb
        exact congrArg₂ List.cons (hblock hb) (ih _)
  exact (hresolve _ 0 _).trans (hplace 0 bs)

namespace Tape.Below

theorem place (h : t.Below tree) :
    ({ t with blocks := (Layout.resolve t.blocks.toList).2.toArray } : Tape).Below tree := by
  refine h.withBlocks fun b hb => ?_
  have hnode := mem_map_of_mem (f := (·.node)) (mem_toArray.1 hb)
  rw [Layout.map_node_resolve] at hnode
  obtain ⟨c, hc, heq⟩ := mem_map.1 hnode
  exact ⟨c, Array.mem_toList_iff.1 hc, heq.symm⟩

theorem purgeTape (h : t.Below tree) : (BuildM.purgeTape t).Below tree := by
  refine h.withBlocks fun b hb => ?_
  obtain ⟨c, hc, rfl⟩ := Array.mem_map.1 (Array.mem_filter.1 hb).1
  exact ⟨c, hc, rfl⟩

end Tape.Below

namespace Program

/-- The tree of the program comes from `t₀` by additions, and all tapes are below it. -/
structure Rooted (t₀ : RequirementTree) (p : Program) : Prop where
  tree : Accrues t₀ p.tree
  tapes : ∀ id, (p.tapeAt id).Below p.tree

namespace Rooted

theorem certified (h : Rooted t₀ p) : p.tree.Certified := h.tree.certified

theorem rebase (h : Rooted t₀ p) : Rooted p.tree p := ⟨h.certified.accrues, h.tapes⟩

theorem trans (h : Rooted t₀ p) (h' : Rooted p.tree q) : Rooted t₀ q :=
  ⟨h.tree.trans h'.tree, h'.tapes⟩

theorem size_pos (h : Rooted t₀ p) : 0 < p.tree.size :=
  Nat.lt_of_le_of_lt (Nat.zero_le _) (h.tapes 0).root

theorem onTree (h : Rooted t₀ p) (htree : Accrues p.tree tree) :
    Rooted t₀ { p with tree } :=
  ⟨h.tree.trans htree, fun id => (h.tapes id).mono htree⟩

theorem aside (h : Rooted t₀ p) (htapes : q.tapes = p.tapes) (htree : q.tree = p.tree) :
    Rooted t₀ q := by
  refine ⟨htree ▸ h.tree, fun id => ?_⟩
  rw [tapeAt, htapes, htree]
  exact h.tapes id

theorem modifyTape (h : Rooted t₀ p) (id : TapeId) {f : Tape → Tape}
    (hf : (f (p.tapeAt id)).Below p.tree) : Rooted t₀ (p.modifyTape id f) := by
  refine ⟨h.tree, fun j => ?_⟩
  rw [tapeAt_modifyTape]
  split
  · exact hf
  · exact h.tapes j

theorem push (h : Rooted t₀ p) (ht : t.Below p.tree) :
    Rooted t₀ { p with tapes := p.tapes.push t } := by
  refine ⟨h.tree, fun j => ?_⟩
  rw [tapeAt_push]
  split
  · exact ht
  · exact h.tapes j

theorem take (h : Rooted t₀ p) (n : Nat) : Rooted t₀ { p with tapes := p.tapes.take n } := by
  refine ⟨h.tree, fun j => ?_⟩
  rcases Nat.lt_or_ge j n with hj | hj
  · rw [tapeAt_take p hj]
    exact h.tapes j
  · rw [tapeAt_of_size_le (by simp only [Array.take, Array.size_extract]; omega)]
    exact .default h.size_pos

theorem replace (h : Rooted t₀ p) (htree : Accrues p.tree tree) (ht : t.Below tree) :
    Rooted t₀ (p.replace t tree) := by
  have hcurrent : Rooted t₀ ({ p with tree }.modifyTape p.current fun _ => t) :=
    (h.onTree htree).modifyTape p.current ht
  exact hcurrent

end Rooted

/-! ## Building -/

theorem quiet_rooted : Quiet (Rooted t₀) where
  aside h hsame := h.aside hsame.tapes hsame.tree
  note h hf := h.modifyTape _ ((h.tapes _).of_eq hf.root hf.blocks hf.scopes)
  push h _ _ := h.modifyTape _ ((h.tapes _).append _)
  prologue h _ := h.modifyTape _ ((h.tapes _).of_eq rfl rfl rfl)
  increment r n h _ := h.onTree (accrues_increment h.certified ((h.tapes _).block _) r n)
  aggregate h _ := h.onTree (accrues_aggregate h.certified (h.tapes _).root)

end Program

/-- The loops of the rules run a valid number of times. -/
def Rules.Counted (r : Rules) : Prop := ∀ n, r.loops n → n.Valid

namespace Program

theorem Rooted.advance {r : Rules} (hr : r.Counted) (h : Rooted t₀ p) {c : BuildM.Control}
    (hc : r.Permits c) (hadvance : BuildM.Advance p c t tree) :
    Accrues p.tree tree ∧ t.Below tree := by
  have ht : p.currentTape.Below p.tree := h.tapes p.current
  have hnode : p.currentTape.activeBlock.node < p.tree.size := ht.block p.currentTape.active
  have hcertified := h.certified
  have hscope {s : Scope} {rest : List Scope} (hscopes : p.currentTape.scopes = s :: rest) :
      s.Below p.tree ∧ ∀ s ∈ rest, s.Below p.tree := forall_mem_cons.1 (hscopes ▸ ht.scopes)
  have hroots (ids : List TapeId) : ∀ m ∈ ids.map (fun id => (p.tapeAt id).root), m < p.tree.size := by
    intro m hm
    obtain ⟨id, -, rfl⟩ := mem_map.1 hm
    exact (h.tapes id).root
  cases hadvance with
  | next name => exact ⟨hcertified.accrues, ht.startBlock name _ _ hnode⟩
  | openLoop times counter =>
    have htree := accrues_addNode_addGroup hcertified "loop" hnode (c := .times times) (hr times hc)
    refine ⟨htree, ((ht.mono htree).startBlock _ _ _ ?_).withScopes (forall_mem_cons.2 ⟨?_, ?_⟩)⟩
    · exact Nat.lt_of_lt_of_eq (Nat.lt_succ_self _) (size_addNode_addGroup "loop").symm
    · exact hnode.trans_le htree.size_le
    · exact (ht.mono htree).scopes
  | endLoop hscopes | endFunction hscopes =>
    obtain ⟨houter, hrest⟩ := hscope hscopes
    exact ⟨hcertified.accrues, (ht.startBlock _ _ _ houter).withScopes hrest⟩
  | beginIf cond =>
    have htree := accrues_addNode_addGroup hcertified "if" hnode (c := .max) trivial
    refine ⟨htree, ((ht.mono htree).startBlock _ _ _ ?_).withScopes (forall_mem_cons.2 ⟨?_, ?_⟩)⟩
    · exact Nat.lt_of_lt_of_eq (Nat.lt_succ_self _) (size_addNode_addGroup "if").symm
    · obtain ⟨group, hgroup, -⟩ := hasMember_addNode_addGroup (c := .max) hnode "if"
      refine ⟨hnode.trans_le htree.size_le, ?_⟩
      exact (fst_addNode_addGroup "if").symm ▸ (List.getElem?_eq_some_iff.1 hgroup).1
    · exact (ht.mono htree).scopes
  | beginElse hscopes =>
    obtain ⟨⟨houter, hgroup⟩, hrest⟩ := hscope hscopes
    have hadd := accrues_addNode hcertified "else"
    have hlt := size_lt_addNode (t := p.tree) "else"
    have houter' := houter.trans_le hadd.size_le
    have hextend := accrues_extendGroup hadd.certified houter'
      (hgroup.trans_le (hadd.groups _)) hlt
    have htree := hadd.trans hextend
    refine ⟨htree, (((ht.mono htree).startBlock _ _ _ ?_).modifyBlock _ ?_).withScopes
      (forall_mem_cons.2 ⟨?_, ?_⟩)⟩
    · exact Nat.lt_of_lt_of_eq hlt (size_extendGroup hlt).symm
    · exact fun _ => rfl
    · exact ⟨houter.trans_le htree.size_le, hgroup.trans_le (htree.groups _)⟩
    · exact fun s hs => (hrest s hs).mono htree
  | endIf hscopes =>
    obtain ⟨⟨houter, -⟩, hrest⟩ := hscope hscopes
    refine ⟨hcertified.accrues, ((ht.startBlock _ _ _ houter).modifyBlock _ ?_).withScopes hrest⟩
    exact fun _ => rfl
  | beginFunction =>
    refine ⟨hcertified.accrues, (ht.startBlock _ _ _ hnode).withScopes ?_⟩
    exact forall_mem_cons.2 ⟨hnode, ht.scopes⟩
  | @callTape id =>
    have htree := accrues_addGroup hcertified hnode (c := .sum) trivial (hroots [id])
    exact ⟨htree, ((ht.mono htree).append _).of_eq rfl rfl rfl⟩
  | @runTapes ids =>
    have htree := accrues_addGroup hcertified hnode (c := .max) trivial (hroots ids)
    exact ⟨htree, (ht.mono htree).of_eq rfl rfl rfl⟩

theorem tracked_rooted (houter : outer.Counted) (hinner : inner.Counted) :
    Tracked outer inner fun _ => Rooted t₀ where
  quiet _ := quiet_rooted
  push h _ _ _ := h.sane.2.2.modifyTape _ ((h.sane.2.2.tapes _).append _)
  pushCall h _ _ := h.sane.2.2.modifyTape _ ((h.sane.2.2.tapes _).append _)
  advance {floors p r c t tree} h hr _ hadvance hc := by
    have hcounted : r.Counted := by
      rcases hr with rfl | ⟨rfl, -⟩
      · exact hinner
      · exact houter
    obtain ⟨htree, ht⟩ := h.sane.2.2.advance hcounted hc hadvance
    exact h.sane.2.2.replace htree ht
  sprout name h := h.sane.2.2.onTree (accrues_addNode h.sane.2.2.certified name)
  addTape name _ _ h _ :=
    (h.sane.2.2.onTree (accrues_addNode h.sane.2.2.certified name)).push
      (.new _ _ _ _ (size_lt_addNode name))
  turn h _ _ := h.aside rfl rfl
  enter name key regs h _ := by
    have hnode := h.sane.2.2.onTree (accrues_addNode h.sane.2.2.certified name)
    refine (hnode.push ?_).aside rfl rfl
    exact (Tape.Below.new _ key .template true (size_lt_addNode name)).of_eq rfl rfl rfl
  leave h _ _ _ _ := (h.sane.2.2.take _).aside rfl rfl

end Program

/-! ## Compiling -/

theorem Tally.valid_scale (t : Tally) (n : Count) : (t.scale n).Valid := by
  unfold scale
  have hfold (es : List (Resource × Count)) {acc : Tally} (hacc : acc.Valid) :
      (es.foldl (fun acc e => acc.increment e.1 (e.2.mul n)) acc).Valid := by
    induction es generalizing acc with
    | nil => exact hacc
    | cons e es ih => exact ih (valid_increment hacc)
  exact hfold t.entries valid_empty

namespace BuildM

theorem fills_rooted (id : TapeId) : Fills (Rooted t₀) id where
  note h hf := h.modifyTape id (hf _ ▸ (h.tapes id).of_eq rfl rfl rfl)
  push _ h := h.modifyTape id ((h.tapes id).append _)

theorem rooted_addUsage (hnode : node < t₀.size) {usage : Tally} (husage : usage.Valid) :
    Maintains (Rooted t₀) (onTree fun tree => ((), tree.addUsage node usage)) :=
  fun _ h => h.onTree (accrues_addUsage h.certified (hnode.trans_le h.tree.size_le) husage)

/-! ### Macro calls -/

theorem rooted_addTape (name : String) (kind : TapeKind) (singular : Bool) :
    Maintains (Rooted t₀) (addTape name kind singular) :=
  fun p h => (h.onTree (accrues_addNode h.certified (p.name ++ "-" ++ name))).push
    (.new _ _ _ _ (size_lt_addNode _))

theorem rooted_macroTape (t : Template) (width : Nat) :
    Maintains (Rooted t₀) (macroTape t width) := by
  rw [macroTape_eq]
  exact (rooted_addTape _ _ _).bind fun id => (fills_rooted id).fillTape fun _ h =>
    h.onTree (accrues_addUsage h.certified (h.tapes id).root (t.extra.valid_scale _))

theorem rooted_batchTape (t : Template) (width : Nat) :
    Maintains (Rooted t₀) (batchTape t width) := by
  refine .get_bind fun q => ?_
  split
  · exact .pure _
  · refine (rooted_macroTape t width).bind fun entry => ?_
    exact Maintains.bind (.modify fun _ h => h.aside rfl rfl) fun _ => .pure _

theorem rooted_batchedCall (hnode : node < t₀.size) (c : MacroCall) :
    Maintains (Rooted t₀) (batchedCall id node c) := by
  refine .get_bind fun q => .ite _ .throw_bind ?_
  refine (rooted_batchTape _ _).bind fun entry => ((fills_rooted id).onRegisters _).bind fun code => ?_
  refine Reads.get.maintains_bind fun q _ hq h => ?_
  cases hq
  have hgroup := h.onTree (accrues_addGroup h.certified (hnode.trans_le h.tree.size_le)
    (c := .sum) trivial (forall_mem_singleton.2 (h.tapes entry.1).root))
  rw [run_bind_ok (run_discard_ok (run_onTree _ q))]
  exact hgroup.modifyTape id ((hgroup.tapes id).of_eq rfl rfl rfl)

theorem expands_rooted (hnode : node < t₀.size) : Expands (Maintains (Rooted t₀)) id node where
  toSequential := sequential_maintains _
  onRegisters := (fills_rooted id).onRegisters
  addUsage usage n := rooted_addUsage hnode (usage.valid_scale n)
  batchedCall c := rooted_batchedCall hnode c

/-! ### Scheduling -/

theorem rooted_scheduleBlock (options : MergeOptions) (index : BlockId) :
    Maintains (Rooted t₀) (scheduleBlock id options index) := by
  intro p h
  refine h.trans ?_
  have hnode := (h.tapes id).block index
  rw [scheduleBlock_eq, run_get_bind]
  have hrest : Maintains (Rooted p.tree) (do
      modify fun p => p.modifyTape id fun t => t.modifyBlock index ({ · with ops := [] })
      let result ← optimizeBlock id options (p.tapeAt id).regs ((p.tapeAt id).block index)
      storeBlock id index ((p.tapeAt id).block index) result : BuildM Unit) := by
    refine Maintains.bind (.modify fun _ h => h.modifyTape id ((h.tapes id).modifyBlock _ fun _ => rfl))
      fun _ => ((expands_rooted hnode).optimizeBlock options _).bind fun result =>
        (reads_appendJump _ _ _).maintains.bind fun ops => ?_
    exact Maintains.bind (.modify fun _ h => h.modifyTape id ((h.tapes id).modifyBlock _ fun _ => rfl))
      fun _ => rooted_addUsage hnode (valid_blockUsage _ _)
  exact hrest p h.rebase

theorem rooted_scheduleTape (id : TapeId) : Maintains (Rooted t₀) (scheduleTape id) := by
  refine .get_bind fun q => .ite _ ?_ (.pure _)
  refine (reads_checkScopes id).maintains.bind fun _ => ?_
  refine Maintains.bind (.modify fun _ h => h.modifyTape id (h.tapes id).closeTape) fun _ => ?_
  exact .get_bind fun _ => .forM (rooted_scheduleBlock _) _

theorem rooted_closeMain : Maintains (Rooted t₀) closeMain :=
  (fills_rooted mainTape).closeMain fun _ h =>
    h.modifyTape mainTape ((h.tapes mainTape).startBlock _ _ _ (h.tapes mainTape).root)

/-! ### Allocation and bytecode -/

theorem rooted_assignAndPlace (h : Rooted t₀ p) (options : Options) (ht : t.Below p.tree)
    (requirements : Tally) : Rooted t₀ ((assignAndPlace id options t requirements).run p).2 := by
  unfold assignAndPlace
  have hassign := h.modifyTape id (f := fun _ =>
    { t with regs := (assignRegisters options t.regs t.blocks).2 }) (ht.of_eq rfl rfl rfl)
  rw [run_bind_ok (run_modify _ _)]
  refine (Reads.liftM _).bind_cases (Rooted t₀) hassign fun usage _ => ?_
  have hplace := hassign.modifyTape id (f := fun s =>
      { s with blocks := (Layout.resolve t.blocks.toList).2.toArray })
    ⟨(hassign.tapes id).root, ht.place.nodes, (hassign.tapes id).scopes⟩
  rw [run_bind_ok (run_modify _ _)]
  refine (Reads.liftM _).bind_cases (Rooted t₀) hplace fun _ _ => ?_
  exact hplace.modifyTape id ((hplace.tapes id).of_eq rfl rfl rfl)

theorem rooted_ensureAllocated (id : TapeId) : Maintains (Rooted t₀) (ensureAllocated id) := by
  refine .get_bind fun q => .ite _ (fun p h => ?_) (.pure _)
  rw [allocateTape_eq, run_get_bind, run_bind_ok (run_onTree _ p)]
  have hask := h.onTree (accrues_aggregate h.certified (h.tapes id).root)
  rw [run_get_bind, run_get_bind]
  refine (Reads.liftM _).bind_cases (Rooted t₀) hask fun declared _ => ?_
  exact rooted_assignAndPlace hask _ ((hask.tapes id).declare declared) _

theorem rooted_encodeTape (id : TapeId) : Maintains (Rooted t₀) (encodeTape id) := by
  refine .get_bind fun q => ?_
  simp only []
  split
  · exact .pure _
  · exact .throw _
  · exact .throw _
  · exact .modify fun _ h => h.modifyTape id ((h.tapes id).purgeTape.of_eq rfl rfl rfl)

theorem compiles_rooted : Compiles (Maintains (Rooted t₀)) where
  toSequential := sequential_maintains _
  closeMain := rooted_closeMain
  scheduleTape := rooted_scheduleTape
  ensureAllocated := rooted_ensureAllocated
  encodeTape := rooted_encodeTape

end BuildM

namespace Program

theorem rooted_of_new {name : String} {options : Options} (h : Program.new name options = .ok p) :
    Rooted .empty p := by
  unfold Program.new at h
  split at h
  · cases h
  · cases h
    have htree := accrues_addNode Certified.empty name
    refine ⟨htree, fun id => ?_⟩
    rcases Nat.eq_zero_or_pos id with rfl | hid
    · exact .new mainTape name .main true (size_lt_addNode name)
    · rw [tapeAt_of_size_le hid]
      exact .default (size_lt_addNode (t := .empty) name)

theorem BuiltUnder.rooted (h : p.BuiltUnder outer inner) (houter : outer.Counted)
    (hinner : inner.Counted) : Rooted .empty p := by
  refine (h.within (I := fun _ => Rooted .empty) (tracked_rooted houter hinner) ?_ ?_
    rooted_of_new).sane.2.2
  · exact fun _ _ id => within_of_maintains (.finalizeTape id) (BuildM.compiles_rooted.finalizeTape id)
  · intro floors r _ _
    exact ⟨within_of_maintains .closeMain BuildM.rooted_closeMain,
      fun id => within_of_maintains (.scheduleTape id) (BuildM.rooted_scheduleTape id),
      fun id => within_of_maintains (.ensureAllocated id) (BuildM.rooted_ensureAllocated id),
      within_of_maintains .finish BuildM.compiles_rooted.finish⟩

end Program

end SecureTape
