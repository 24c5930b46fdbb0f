import SecureTape.Proofs.OpenRegions
import SecureTape.Proofs.QuietActions
import SecureTape.Proofs.TreeExtensions

/-!
# Regions of tapes

The code of a tape that is being built forms open regions, and every call in it is charged to a
group of the requirement node of its block. Main statements:
1. `Tape.flow_startBlock`: the flow of a tape in which a block starts.
2. `Tape.Laid`: what holds of a tape while it is built.
3. `Tape.Laid.push`, `Tape.Laid.pushCall`, `Tape.Laid.started`, `Tape.Laid.joined`: what the steps
   of building do keeps it.
-/

namespace SecureTape

open RequirementTree List

/-! ## Calls -/

variable {f : TapeId} {i : Instruction} {t' : Tape} {op : Op} {node root : NodeId}
  {exit : Option Exit} {n : Nat}

namespace Op

def callee? (op : Op) : Option TapeId := op.inst?.bind Instruction.callee?

/-- An instruction that is no jump; if it calls a tape, then one of the first `n`. -/
def Direct (n : Nat) (op : Op) : Prop :=
  ∃ i, op = .inst i ∧ i.opcode.isJump = false ∧
    (i.opcode = .callTape → ∃ f, i.callee? = some f ∧ f < n)

variable {m : Nat}

theorem Direct.mono (h : op.Direct n) (hnm : n ≤ m) : op.Direct m := by
  obtain ⟨i, rfl, hjump, hcall⟩ := h
  refine ⟨i, rfl, hjump, fun hop => ?_⟩
  obtain ⟨f, hf, hlt⟩ := hcall hop
  exact ⟨f, hf, hlt.trans_le hnm⟩

theorem Direct.callee_lt (h : op.Direct n) (hf : op.callee? = some f) : f < n := by
  obtain ⟨i, rfl, -, hcall⟩ := h
  have hi : i.callee? = some f := hf
  have hop : i.opcode = .callTape := by
    by_contra hne
    rw [Instruction.callee?, if_neg hne] at hi
    cases hi
  obtain ⟨g, hg, hlt⟩ := hcall hop
  cases hg.symm.trans hi
  exact hlt

theorem Direct.of_plain (h : i.Plain) (n : Nat) : (Op.inst i).Direct n :=
  ⟨i, rfl, h.1, fun hop => absurd hop h.2⟩

end Op

namespace Tape

variable {t : Tape} {roots roots' : TapeId → NodeId}

/-! ## Flows of tapes -/

/-- The flow of control through a tape, where each tape has the requirement root that `roots`
says. -/
def flow (roots : TapeId → NodeId) (t : Tape) : Flow where
  exit b := (t.block b).exit
  node b := (t.block b).node
  calls b := ((t.block b).ops.filterMap Op.callee?).map roots

section StartBlock

variable (hsize : t.blocks.size = t.active + 1) (hopen : t.activeBlock.isOpen) (name : String)
  (scope : Option BlockId) (exit : Option Exit) (node : NodeId)

include hsize hopen

theorem exists_block_startBlock : ∃ name' pool, ∀ b, ∃ children,
      (t.startBlock name scope exit node).2.block b =
        { (if b = t.active + 1 then { name := name', scope, pool, node }
          else if b = t.active then { t.block t.active with exit, state := .closed }
          else t.block b) with children } := by
  obtain ⟨name', pool, hblock⟩ := block_startBlock t name scope exit node
  refine ⟨name', pool, fun b => ?_⟩
  have hclose : (t.block t.active).close exit =
      { t.block t.active with exit, state := .closed } := if_pos hopen
  rw [hblock b, hsize]
  simp only [hclose, Nat.lt_succ_self, and_true]
  split
  · exact ⟨_, rfl⟩
  · exact ⟨_, rfl⟩

theorem flow_startBlock :
    (t.startBlock name scope exit node).2.flow roots = (t.flow roots).extend t.active exit node := by
  obtain ⟨name', pool, hblock⟩ := exists_block_startBlock hsize hopen name scope exit node
  unfold flow Flow.extend
  congr 1
  all_goals
    funext b
    obtain ⟨children, hb⟩ := hblock b
    rw [hb]
    by_cases h1 : b = t.active + 1
    · simp [h1]
    · by_cases h2 : b = t.active
      · simp [h2]
      · simp [h1, h2]

theorem exit_startBlock (b : BlockId) :
    ((t.startBlock name scope exit node).2.block b).exit =
      if b = t.active + 1 then none else if b = t.active then exit else (t.block b).exit := by
  obtain ⟨name', pool, hblock⟩ := exists_block_startBlock hsize hopen name scope exit node
  obtain ⟨children, hb⟩ := hblock b
  rw [hb]
  split
  · rfl
  · split <;> rfl

end StartBlock

theorem flow_setTarget (b target : BlockId) :
    (t.modifyBlock b (·.setTarget target)).flow roots = (t.flow roots).redirect b target := by
  have hother {x : BlockId} (hx : x ≠ b) :
      (t.modifyBlock b (·.setTarget target)).block x = t.block x := by
    rw [block_modifyBlock, if_neg fun h => hx h.1]
  have hself : (t.modifyBlock b (·.setTarget target)).block b = (t.block b).setTarget target := by
    rw [block_modifyBlock]
    split
    · rfl
    · rename_i hlt
      rw [block_of_size_le (not_lt.1 fun h => hlt ⟨rfl, h⟩)]
      rfl
  unfold flow Flow.redirect
  congr 1
  all_goals
    funext x
    by_cases hx : x = b
    · subst hx
      rw [hself]
      simp [Block.setTarget]
    · simp [hother hx, hx]

theorem flow_push (hlt : t.active < t.blocks.size) (op : Op) :
    (t.append op).flow roots =
      { t.flow roots with
        calls := Function.update (t.flow roots).calls t.active
          ((t.flow roots).calls t.active ++ op.callee?.toList.map roots) } := by
  have hother {x : BlockId} (hx : x ≠ t.active) : (t.append op).block x = t.block x := by
    rw [append, block_modifyBlock, if_neg fun h => hx h.1]
  have hself : (t.append op).block t.active =
      { t.block t.active with ops := (t.block t.active).ops ++ [op] } := by
    rw [append, block_modifyBlock, if_pos ⟨rfl, hlt⟩]
  unfold flow
  congr 1
  all_goals
    funext x
    by_cases hx : x = t.active
    · subst hx
      cases h : op.callee? <;> simp [hself, h]
    · simp [hother hx, hx]

/-! ## Tapes under construction -/

/-- The tape is being built: its last block is open, its code is on the tapes and nodes there are,
and it jumps only at the end of blocks. -/
structure Framed (tree : RequirementTree) (n : Nat) (t : Tape) : Prop where
  building : t.isBuilding = true
  size : t.blocks.size = t.active + 1
  opened : t.activeBlock.isOpen = true
  exit_eq : ∀ b, (t.block b).isOpen = true → (t.block b).exit = none
  root_lt : t.root < tree.size
  node_lt : ∀ b, b < t.blocks.size → (t.block b).node < tree.size
  direct : ∀ b, ∀ op ∈ (t.block b).ops, op.Direct n
  prologue : ∀ op ∈ t.prologue, ∃ i, op = .inst i ∧ i.Plain

/-- The tape is being built, and its code forms open regions. -/
structure Laid (tree : RequirementTree) (roots : TapeId → NodeId) (n : Nat)
    (bound : BlockId → Count → Prop) (t : Tape) : Prop extends Framed tree n t where
  regions : (t.flow roots).Open tree bound t.root t.scopes t.activeBlock.node t.active

variable {tree tree' : RequirementTree} {n' : Nat} {bound bound' : BlockId → Count → Prop}

theorem Framed.active_lt (h : t.Framed tree n) : t.active < t.blocks.size := by
  rw [h.size]
  exact Nat.lt_succ_self _

theorem Framed.activeNode_lt (h : t.Framed tree n) : t.activeBlock.node < tree.size :=
  h.node_lt t.active h.active_lt

theorem Framed.grown (h : t.Framed tree n) (hsize : tree.size ≤ tree'.size) (hn : n ≤ n') :
    t.Framed tree' n' :=
  { h with
    root_lt := h.root_lt.trans_le hsize
    node_lt := fun b hb => lt_of_lt_of_le (h.node_lt b hb) hsize
    direct := fun b op hop => (h.direct b op hop).mono hn }

theorem Framed.note (h : t.Framed tree n) (hsame : SameFrame t t') : t'.Framed tree n := by
  refine ⟨?_, ?_, ?_, ?_, hsame.root ▸ h.root_lt, ?_, ?_, hsame.prologue ▸ h.prologue⟩
  · rw [isBuilding, hsame.state]
    exact h.building
  · rw [hsame.blocks, hsame.active]
    exact h.size
  · rw [activeBlock, hsame.block_eq, hsame.active]
    exact h.opened
  · rw [hsame.block_eq]
    exact h.exit_eq
  · rw [hsame.block_eq, hsame.blocks]
    exact h.node_lt
  · rw [hsame.block_eq]
    exact h.direct

theorem Framed.push (h : t.Framed tree n) (hop : op.Direct n) : (t.append op).Framed tree n := by
  have hblock (b : BlockId) : ∃ ops, (∀ op ∈ ops, op.Direct n) ∧
      (t.append op).block b = { t.block b with ops } := by
    rw [append, block_modifyBlock]
    split
    · rename_i hb
      refine ⟨(t.block t.active).ops ++ [op], fun o ho => ?_, by rw [hb.1]⟩
      rcases mem_append.1 ho with ho | ho
      · exact h.direct _ o ho
      · rw [mem_singleton.1 ho]
        exact hop
    · exact ⟨_, h.direct b, rfl⟩
  refine ⟨h.building, (size_modifyBlock ..).trans h.size, ?_, ?_, h.root_lt, ?_, ?_, h.prologue⟩
  · obtain ⟨ops, -, heq⟩ := hblock t.active
    show ((t.append op).block t.active).isOpen = true
    rw [heq]
    exact h.opened
  · intro b
    obtain ⟨ops, -, heq⟩ := hblock b
    rw [heq]
    exact h.exit_eq b
  · intro b hb
    obtain ⟨ops, -, heq⟩ := hblock b
    rw [heq]
    exact h.node_lt b (size_modifyBlock .. ▸ hb)
  · intro b
    obtain ⟨ops, hops, heq⟩ := hblock b
    rw [heq]
    exact hops

theorem Framed.startBlock (h : t.Framed tree n) (name : String) (scope : Option BlockId)
    (exit : Option Exit) (hnode : node < tree.size) :
    (t.startBlock name scope exit node).2.Framed tree n := by
  obtain ⟨name', pool, hblock⟩ := exists_block_startBlock h.size h.opened name scope exit node
  refine ⟨?_, ?_, ?_, ?_, root_startBlock t .. ▸ h.root_lt, ?_, ?_, ?_⟩
  · rw [isBuilding, state_startBlock]
    exact h.building
  · rw [size_startBlock, active_startBlock]
  · obtain ⟨children, heq⟩ := hblock (t.active + 1)
    rw [activeBlock, active_startBlock, h.size, heq, if_pos rfl]
    rfl
  · intro b
    obtain ⟨children, heq⟩ := hblock b
    rw [heq]
    split
    · exact fun _ => rfl
    · split
      · exact fun hopen => (by cases hopen)
      · exact h.exit_eq b
  · intro b hlt
    obtain ⟨children, heq⟩ := hblock b
    rw [size_startBlock, h.size] at hlt
    rw [heq]
    by_cases h1 : b = t.active + 1
    · rw [if_pos h1]
      exact hnode
    · rw [if_neg h1]
      split
      · exact h.activeNode_lt
      · refine h.node_lt b ?_
        rw [h.size]
        omega
  · intro b op hop
    obtain ⟨children, heq⟩ := hblock b
    rw [heq] at hop
    split at hop
    · cases hop
    · split at hop
      · exact h.direct _ op hop
      · exact h.direct b op hop
  · rw [prologue_startBlock]
    exact h.prologue

theorem Framed.setTarget (h : t.Framed tree n) (b target : BlockId) :
    (t.modifyBlock b (·.setTarget target)).Framed tree n := by
  have hblock (x : BlockId) : ∃ exit, ((t.block x).exit = none → exit = none) ∧
      (t.modifyBlock b (·.setTarget target)).block x = { t.block x with exit } := by
    rw [block_modifyBlock]
    split
    · rename_i hx
      rw [hx.1]
      refine ⟨_, fun hnone => ?_, rfl⟩
      rw [hnone]
      rfl
    · exact ⟨_, fun h => h, rfl⟩
  refine ⟨h.building, (size_modifyBlock ..).trans h.size, ?_, ?_, h.root_lt, ?_, ?_, h.prologue⟩
  · obtain ⟨exit, -, heq⟩ := hblock t.active
    show (Tape.block _ t.active).isOpen = true
    rw [heq]
    exact h.opened
  · intro x
    obtain ⟨exit, hexit, heq⟩ := hblock x
    rw [heq]
    exact fun hopen => hexit (h.exit_eq x hopen)
  · intro x hx
    obtain ⟨exit, -, heq⟩ := hblock x
    rw [heq]
    exact h.node_lt x (size_modifyBlock .. ▸ hx)
  · intro x
    obtain ⟨exit, -, heq⟩ := hblock x
    rw [heq]
    exact h.direct x

theorem Framed.scopes (h : t.Framed tree n) (scopes : List Scope) :
    ({ t with scopes } : Tape).Framed tree n :=
  ⟨h.building, h.size, h.opened, h.exit_eq, h.root_lt, h.node_lt, h.direct, h.prologue⟩

theorem Framed.flow_eq (h : t.Framed tree n) (hroots : ∀ f, f < n → roots' f = roots f) :
    t.flow roots' = t.flow roots := by
  unfold flow
  congr 1
  funext b
  refine map_congr_left fun f hf => hroots f ?_
  obtain ⟨op, hop, hcallee⟩ := mem_filterMap.1 hf
  exact (h.direct b op hop).callee_lt hcallee

namespace Laid

theorem grown (h : t.Laid tree roots n bound) (htree : Extends tree tree') (hn : n ≤ n')
    (hroots : ∀ f, f < n → roots' f = roots f) (hbound : ∀ {head k}, bound head k → bound' head k) :
    t.Laid tree' roots' n' bound' where
  toFramed := h.toFramed.grown htree.size_le hn
  regions := by
    rw [h.flow_eq hroots]
    exact h.regions.agree ⟨htree.member, hbound⟩ fun _ _ _ => ⟨rfl, rfl, rfl⟩

theorem note (h : t.Laid tree roots n bound) (hsame : SameFrame t t') :
    t'.Laid tree roots n bound where
  toFramed := h.toFramed.note hsame
  regions := by
    rw [flow, activeBlock, hsame.block_eq, hsame.active, hsame.root, hsame.scopes]
    exact h.regions

variable {scopes : List Scope}

theorem pushPrologue (h : t.Laid tree roots n bound) (hi : i.Plain) :
    ({ t with prologue := t.prologue ++ [.inst i] } : Tape).Laid tree roots n bound := by
  refine ⟨⟨h.building, h.size, h.opened, h.exit_eq, h.root_lt, h.node_lt, h.direct, ?_⟩, h.regions⟩
  intro op hop
  rcases mem_append.1 hop with hop | hop
  · exact h.prologue op hop
  · exact ⟨i, mem_singleton.1 hop, hi⟩

theorem push (h : t.Laid tree roots n bound) (hi : i.Plain) :
    (t.append (.inst i)).Laid tree roots n bound where
  toFramed := h.toFramed.push (.of_plain hi n)
  regions := by
    have hnone : (Op.inst i).callee? = none := hi.callee?_eq_none
    rw [flow_push h.active_lt, node_push, hnone, Option.toList_none, map_nil, append_nil,
      Function.update_eq_self]
    exact h.regions

theorem pushCall (h : t.Laid tree roots n bound)
    (hop : i.opcode = .callTape) (hf : i.callee? = some f) (hlt : f < n) (htree : Extends tree tree')
    (hgroup : tree'.HasMember t.activeBlock.node (tree.node t.activeBlock.node).groups.length .sum
      (roots f)) :
    (t.append (.inst i)).Laid tree' roots n bound where
  toFramed := by
    refine (h.toFramed.grown htree.size_le le_rfl).push ⟨i, rfl, ?_, fun _ => ⟨f, hf, hlt⟩⟩
    rw [hop]
    rfl
  regions := by
    have hsome : (Op.inst i).callee? = some f := hf
    rw [flow_push h.active_lt, node_push, hsome]
    exact h.regions.call ⟨htree.member, fun h => h⟩ hgroup

theorem of_open {active : BlockId} {s : Flow} (h : t.Framed tree n) (hflow : t.flow roots = s)
    (hactive : t.active = active) (hroot : t.root = root) (hscopes : t.scopes = scopes)
    (hopen : s.Open tree bound root scopes node active) : t.Laid tree roots n bound := by
  subst hflow hactive hroot hscopes
  have hnode : t.activeBlock.node = node := hopen.node_eq
  exact ⟨h, hnode ▸ hopen⟩

theorem started (h : t.Laid tree roots n bound) (hsize : tree.size ≤ tree'.size) (name : String)
    (scope : Option BlockId) (hnode : node < tree'.size)
    (hopen : ((t.flow roots).extend t.active exit node).Open tree' bound' t.root scopes node
      (t.active + 1)) :
    ({ (t.startBlock name scope exit node).2 with scopes } : Tape).Laid tree' roots n bound' := by
  have hframed := (h.toFramed.grown hsize le_rfl).startBlock name scope exit hnode
  exact of_open (hframed.scopes scopes) (flow_startBlock h.size h.opened name scope exit node)
    ((active_startBlock ..).trans h.size) (root_startBlock ..) rfl hopen

theorem joined (h : t.Laid tree roots n bound) (hsize : tree.size ≤ tree'.size) (name : String)
    (scope : Option BlockId) (hnode : node < tree'.size) {b : BlockId}
    (hopen : (((t.flow roots).extend t.active exit node).redirect b (t.active + 1)).Open tree' bound'
      t.root scopes node (t.active + 1)) :
    ({ (t.startBlock name scope exit node).2.modifyBlock b (·.setTarget t.blocks.size) with
      scopes } : Tape).Laid tree' roots n bound' := by
  have hframed := (h.toFramed.grown hsize le_rfl).startBlock name scope exit hnode
  refine of_open ((hframed.setTarget b _).scopes scopes) ?_ ((active_startBlock ..).trans h.size)
    (root_startBlock t name scope exit node) rfl hopen
  rw [← flow_startBlock h.size h.opened name scope exit node, ← h.size]
  exact flow_setTarget b t.blocks.size

theorem next (h : t.Laid tree roots n bound) (name : String) (scope : Option BlockId) :
    (t.startBlock name scope none t.activeBlock.node).2.Laid tree roots n bound := by
  have hlaid := h.started le_rfl name scope h.activeNode_lt h.regions.next
  rwa [← scopes_startBlock t name scope none t.activeBlock.node] at hlaid

theorem new (id : TapeId) (name : String) (kind : TapeKind) (singular : Bool)
    (hroot : root < tree.size) : (Tape.new id name kind singular root).Laid tree roots n bound := by
  have hempty (b : BlockId) : ((Tape.new id name kind singular root).block b).ops = [] ∧
      ((Tape.new id name kind singular root).block b).exit = none := by
    refine forall_block (P := fun b => b.ops = [] ∧ b.exit = none) ⟨rfl, rfl⟩ (fun b hb => ?_) b
    rw [Array.mem_singleton.1 hb]
    exact ⟨rfl, rfl⟩
  refine ⟨⟨rfl, rfl, rfl, fun b _ => (hempty b).2, hroot, ?_, ?_, ?_⟩, .first rfl rfl rfl⟩
  · intro b hb
    obtain rfl := Nat.lt_one_iff.1 hb
    exact hroot
  · intro b op hop
    rw [(hempty b).1] at hop
    cases hop
  · intro op hop
    cases hop

end Laid

end Tape

end SecureTape
