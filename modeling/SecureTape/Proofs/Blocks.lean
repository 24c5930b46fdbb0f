import SecureTape.Layout
import SecureTape.Proofs.Merged
import SecureTape.Proofs.Typing
import SecureTape.Tape

/-!
# Blocks of a tape

Main statements:
1. `Tape.block_startBlock`: what becomes of the blocks of a tape when another starts.
2. `Layout.placed_resolve`: laying out the blocks of a tape fills in where they stand and jump, and
   changes nothing else.
-/

namespace SecureTape

open RegisterFile List

/-! ## Code on the registers of a file -/

variable {op : Op} {f g regs : RegisterFile} {b b' : Block}

/-- The file `g` is valid and has the registers of `f`. -/
structure RegisterFile.Covers (f g : RegisterFile) : Prop extends Keeps f g where
  valid : g.Valid

theorem RegisterFile.Valid.covers (hf : f.Valid) : Covers f f := ⟨.refl f, hf⟩

theorem RegisterFile.SameShape.covers (h : SameShape f g) (hf : f.Valid) :
    Covers f g := ⟨h.keeps, h.valid hf⟩

/-- The operation has a layout, its registers belong to the file, and an instruction fits them. -/
structure Op.Owned (regs : RegisterFile) (op : Op) : Prop where
  layout : op.HasLayout
  owns : ∀ r ∈ op.registers, regs.owns r = true
  typed : ∀ i, op = .inst i → i.Typed regs

theorem Op.Owned.keeps (h : op.Owned f) (hg : Keeps f g) :
    op.Owned g :=
  ⟨h.layout, fun r hr => hg.owns (h.owns r hr), fun i hi => (h.typed i hi).keeps hg⟩

theorem Instruction.Typed.owned {i : Instruction} (h : i.Typed regs) : (Op.inst i).Owned regs := by
  refine ⟨h.layout, ?_, ?_⟩
  · intro r hr
    obtain ⟨⟨q, a⟩, ha, rfl⟩ := mem_map.1 hr
    exact h.owns ha
  · rintro _ ⟨⟩
    exact h

/-- The register can decide a jump: it is a single integer of the file. -/
structure RegisterFile.Decides (regs : RegisterFile) (cond : Reg) : Prop where
  owns : regs.owns cond = true
  cls : regs.classOf cond = .int
  size : regs.sizeOf cond = 1

theorem RegisterFile.Decides.keeps {cond : Reg} (h : f.Decides cond) (hg : Keeps f g) :
    g.Decides cond := by
  have hlt := (owns_iff.1 h.owns).2
  exact ⟨hg.owns h.owns, (hg.cls hlt).trans h.cls, (hg.width hlt).trans h.size⟩

/-- Operations, exit and inherited registers of a block belong to the file. -/
structure Block.Sound (regs : RegisterFile) (b : Block) : Prop where
  ops : ∀ op ∈ b.ops, op.Owned regs
  exit : ∀ cond, b.exit.bind (·.kind.condition?) = some cond → regs.Decides cond
  inherited : ∀ r ∈ b.inherited, regs.owns r = true

theorem Block.ops_close (b : Block) (exit : Option Exit) : (b.close exit).ops = b.ops := by
  unfold Block.close
  split <;> rfl

namespace Block.Sound

theorem default (regs : RegisterFile) : (Inhabited.default : Block).Sound regs :=
  ⟨nofun, nofun, nofun⟩

theorem covers (h : b.Sound f) (hg : Covers f g) : b.Sound g :=
  ⟨fun op hop => (h.ops op hop).keeps hg.toKeeps, fun cond hcond =>
    (h.exit cond hcond).keeps hg.toKeeps,
    fun r hr => hg.owns (h.inherited r hr)⟩

theorem owned (h : b.Sound f) : b.Owned f :=
  ⟨fun op hop => (h.ops op hop).owns, fun cond hcond => (h.exit cond hcond).owns⟩

theorem close (h : b.Sound f) {exit : Option Exit}
    (hexit : ∀ cond, exit.bind (·.kind.condition?) = some cond → f.Decides cond) :
    (b.close exit).Sound f := by
  unfold Block.close
  split
  · exact ⟨h.ops, hexit, h.inherited⟩
  · exact h

theorem setTarget (h : b.Sound f) (target : BlockId) : (b.setTarget target).Sound f := by
  refine ⟨h.ops, ?_, h.inherited⟩
  intro cond hcond
  refine h.exit cond ?_
  rw [← hcond]
  show _ = (b.exit.map _).bind _
  cases b.exit <;> rfl

end Block.Sound

/-! ## Blocks of a tape -/

namespace Tape

variable {t : Tape}

theorem block_modifyBlock (t : Tape) (id : BlockId) (f : Block → Block) (i : BlockId) :
    (t.modifyBlock id f).block i =
      if i = id ∧ id < t.blocks.size then f (t.block id) else t.block i :=
  getD_modify t.blocks default id i f

theorem size_modifyBlock (t : Tape) (id : BlockId) (f : Block → Block) :
    (t.modifyBlock id f).blocks.size = t.blocks.size := Array.size_modify

theorem modifyBlock_congr {id : BlockId} {f g : Block → Block} (h : f (t.block id) = g (t.block id)) :
    t.modifyBlock id f = t.modifyBlock id g := by
  unfold modifyBlock
  congr 1
  refine Array.ext_getElem? fun i => ?_
  rw [Array.getElem?_modify, Array.getElem?_modify]
  by_cases hi : id = i ∧ i < t.blocks.size
  · obtain ⟨rfl, hi⟩ := hi
    have hblock : t.block id = t.blocks[id] := by simp [block, hi]
    simpa [hi, ← hblock] using h
  · by_cases hid : id = i
    · have hsize : t.blocks.size ≤ i := Nat.le_of_not_lt fun hlt => hi ⟨hid, hlt⟩
      simp [hsize]
    · simp [hid]

theorem block_of_size_le {i : BlockId} (h : t.blocks.size ≤ i) : t.block i = default := by
  simp [block, h]

theorem forall_block {P : Block → Prop} (hdefault : P default) (h : ∀ b ∈ t.blocks, P b)
    (i : BlockId) : P (t.block i) := by
  by_cases hi : i < t.blocks.size
  · have hblock : t.block i = t.blocks[i] := by simp [block, hi]
    rw [hblock]
    exact h _ (Array.getElem_mem hi)
  · rw [block_of_size_le (Nat.le_of_not_lt hi)]
    exact hdefault

theorem exists_block_of_mem (h : b ∈ t.blocks) : ∃ i < t.blocks.size, t.block i = b := by
  obtain ⟨i, hi, rfl⟩ := Array.mem_iff_getElem.1 h
  exact ⟨i, hi, by simp [block, hi]⟩

/-! The block that starts, and what becomes of the others. -/

section StartBlock

variable (t : Tape) (name : String) (scope : Option BlockId) (exit : Option Exit) (node : NodeId)

theorem regs_startBlock : (t.startBlock name scope exit node).2.regs = t.regs := by
  cases scope <;> rfl

theorem id_startBlock : (t.startBlock name scope exit node).2.id = t.id := by
  cases scope <;> rfl

theorem name_startBlock : (t.startBlock name scope exit node).2.name = t.name := by
  cases scope <;> rfl

theorem root_startBlock : (t.startBlock name scope exit node).2.root = t.root := by
  cases scope <;> rfl

theorem kind_startBlock : (t.startBlock name scope exit node).2.kind = t.kind := by
  cases scope <;> rfl

theorem state_startBlock : (t.startBlock name scope exit node).2.state = t.state := by
  cases scope <;> rfl

theorem scopes_startBlock : (t.startBlock name scope exit node).2.scopes = t.scopes := by
  cases scope <;> rfl

theorem prologue_startBlock : (t.startBlock name scope exit node).2.prologue = t.prologue := by
  cases scope <;> rfl

theorem params_startBlock : (t.startBlock name scope exit node).2.params = t.params := by
  cases scope <;> rfl

theorem active_startBlock : (t.startBlock name scope exit node).2.active = t.blocks.size := by
  cases scope <;> exact size_modifyBlock _ _ _

theorem fst_startBlock : (t.startBlock name scope exit node).1 = t.blocks.size :=
  size_modifyBlock _ _ _

theorem size_startBlock :
    (t.startBlock name scope exit node).2.blocks.size = t.blocks.size + 1 := by
  cases scope <;> simp [startBlock, modifyBlock]

def pushBlock (b : Block) : Tape :=
  { t with blocks := t.blocks.push b, blockCounter := t.blockCounter + 1, active := t.blocks.size }

theorem block_pushBlock (b : Block) (i : BlockId) :
    (t.pushBlock b).block i = if i = t.blocks.size then b else t.block i :=
  getD_push t.blocks default b i

/-- A new block, if it has a scope, becomes a child there. -/
def adopt (scope : Option BlockId) (child : BlockId) : Tape :=
  match scope with
  | some parent => t.modifyBlock parent fun b => { b with children := b.children ++ [child] }
  | none => t

theorem exists_startBlock_eq : ∃ name' pool, (t.startBlock name scope exit node).2 =
    ((t.modifyBlock t.active (·.close exit)).pushBlock { name := name', scope, pool, node }).adopt
      scope t.blocks.size := by
  rw [← size_modifyBlock t t.active (·.close exit)]
  cases scope <;> exact ⟨_, _, rfl⟩

theorem block_adopt (child i : BlockId) : (t.adopt scope child).block i =
    if scope = some i ∧ i < t.blocks.size then
      { t.block i with children := (t.block i).children ++ [child] } else t.block i := by
  cases scope with
  | none => simp [adopt]
  | some parent =>
    rw [adopt, block_modifyBlock]
    by_cases h : parent = i
    · simp [h]
    · simp [h, Ne.symm h]

/-- The block with a number once a block has started: the active block is closed, the new one is
empty, and the block of the scope gets a child. -/
theorem block_startBlock : ∃ name' pool, ∀ i,
    (t.startBlock name scope exit node).2.block i =
      let b := if i = t.blocks.size then { name := name', scope, pool, node }
        else if i = t.active ∧ t.active < t.blocks.size then (t.block t.active).close exit
        else t.block i
      if scope = some i ∧ i ≤ t.blocks.size then
        { b with children := b.children ++ [t.blocks.size] } else b := by
  obtain ⟨name', pool, heq⟩ := exists_startBlock_eq t name scope exit node
  refine ⟨name', pool, fun i => ?_⟩
  rw [heq, block_adopt, block_pushBlock, block_modifyBlock, size_modifyBlock]
  simp [pushBlock, size_modifyBlock, Nat.lt_succ_iff]

theorem scope_startBlock (b : BlockId) :
    ((t.startBlock name scope exit node).2.block b).scope =
      if b = t.blocks.size then scope else (t.block b).scope := by
  obtain ⟨name', pool, hblock⟩ := block_startBlock t name scope exit node
  have hclose : ((t.block t.active).close exit).scope = (t.block t.active).scope := by
    unfold Block.close
    split <;> rfl
  rw [hblock b]
  by_cases hsize : b = t.blocks.size
  · simp only [hsize, if_true]
    split <;> rfl
  · by_cases hactive : b = t.active ∧ t.active < t.blocks.size
    · simp only [if_neg hsize, if_pos hactive]
      rw [← hactive.1] at hclose
      split <;> exact hactive.1 ▸ hclose
    · simp only [if_neg hsize, if_neg hactive]
      split <;> rfl

theorem children_startBlock {b : BlockId} (hb : b < t.blocks.size) :
    ((t.startBlock name scope exit node).2.block b).children =
      (t.block b).children ++ if scope = some b then [t.blocks.size] else [] := by
  obtain ⟨name', pool, hblock⟩ := block_startBlock t name scope exit node
  have hclose : ((t.block t.active).close exit).children = (t.block t.active).children := by
    unfold Block.close
    split <;> rfl
  have hbase : (if b = t.blocks.size then { name := name', scope, pool, node }
      else if b = t.active ∧ t.active < t.blocks.size then (t.block t.active).close exit
      else t.block b : Block).children = (t.block b).children := by
    rw [if_neg (Nat.ne_of_lt hb)]
    split
    · rename_i hactive
      rw [hclose, hactive.1]
    · rfl
  rw [hblock b]
  by_cases hscope : scope = some b
  · simp only [hscope, Nat.le_of_lt hb, and_self, if_true]
    rw [← hscope, hbase]
  · simp only [hscope, false_and, if_false, append_nil]
    exact hbase

end StartBlock

end Tape

/-! ## Blocks that are laid out -/

/-- The operation `op'` is `op`, perhaps with another jump offset. -/
def Op.SameUse (op op' : Op) : Prop :=
  op' = op ∨ ∃ i offset, op = .inst i ∧ op' = .inst (i.withJumpOffset offset)

namespace Op.SameUse

variable {op' : Op}

theorem owned (h : SameUse op op') (ho : op.Owned regs) : op'.Owned regs := by
  rcases h with rfl | ⟨i, offset, rfl, rfl⟩
  · exact ho
  · exact ((ho.typed i rfl).withJumpOffset offset).owned

end Op.SameUse

/-- The block `b'` is `b` with its place and jump filled in. -/
structure Block.Placed (b b' : Block) : Prop where
  ops : List.Forall₂ Op.SameUse b.ops b'.ops
  scope : b'.scope = b.scope
  children : b'.children = b.children
  pool : b'.pool = b.pool
  exit : b'.exit = b.exit
  inherited : b'.inherited = b.inherited

namespace Block

theorem forall₂_sameUse (ops : List Op) : Forall₂ Op.SameUse ops ops :=
  forall₂_same.2 fun _ _ => .inl rfl

theorem Placed.refl (b : Block) : Placed b b := ⟨forall₂_sameUse b.ops, rfl, rfl, rfl, rfl, rfl⟩

theorem Sound.placed (h : b.Sound regs) (hp : Placed b b') : b'.Sound regs := by
  refine ⟨?_, by rw [hp.exit]; exact h.exit, by rw [hp.inherited]; exact h.inherited⟩
  intro op' hop'
  obtain ⟨op, hop, huse⟩ := exists_left_of_forall₂ hp.ops hop'
  exact huse.owned (h.ops op hop)

theorem placed_setJump (b : Block) (offset : Int) : Placed b (b.setJump offset) := by
  unfold setJump
  split
  · rename_i i hlast
    refine ⟨?_, rfl, rfl, rfl, rfl, rfl⟩
    have hops : b.ops = b.ops.dropLast ++ [.inst i] := by
      rw [dropLast_append_getLast?]
      exact hlast
    conv_lhs => rw [hops]
    exact rel_append (forall₂_sameUse _) (.cons (.inr ⟨i, offset, rfl, rfl⟩) .nil)
  · exact .refl b

theorem placed_resolve {start : BlockId → Nat} {index : BlockId}
    (h : b.resolve start index = .ok b') : Placed b b' := by
  unfold resolve at h
  split at h
  · cases h
    exact ⟨forall₂_sameUse _, rfl, rfl, rfl, rfl, rfl⟩
  · cases h
  · simp only [] at h
    split at h
    · cases h
    · cases h
      obtain ⟨hops, hs, hc, hp, he, hi⟩ := placed_setJump b _
      exact ⟨hops, hs, hc, hp, he, hi⟩

end Block

namespace Layout

theorem placed_resolveFrom (start : BlockId → Nat) (index : BlockId) (bs : List Block) :
    Forall₂ Block.Placed bs (resolveFrom start index bs).2 := by
  induction bs generalizing index with
  | nil => exact .nil
  | cons b bs ih =>
    unfold resolveFrom
    split
    · exact forall₂_same.2 fun b _ => .refl b
    · rename_i b' hb
      exact .cons (Block.placed_resolve hb) (ih (index + 1))

theorem placed_resolve (bs : List Block) : Forall₂ Block.Placed bs (resolve bs).2 := by
  have hplace (offset : Nat) (ds : List Block) (h : Forall₂ Block.Placed (place offset bs) ds) :
      Forall₂ Block.Placed bs ds := by
    induction bs generalizing offset ds with
    | nil => exact h
    | cons b bs ih =>
      obtain ⟨d, ds, hd, hds, rfl⟩ := forall₂_cons_left_iff.1 h
      exact .cons ⟨hd.ops, hd.scope, hd.children, hd.pool, hd.exit, hd.inherited⟩ (ih _ ds hds)
  exact hplace 0 _ (placed_resolveFrom _ 0 _)

end Layout

end SecureTape
