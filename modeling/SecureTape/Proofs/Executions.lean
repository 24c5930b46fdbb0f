import Mathlib
import SecureTape.Proofs.ArrangedCalls

/-!
# Executions of code

The code of a tape is run instruction by instruction: jumps go where their offsets say, conditions
may come out either way, and a call runs the code of the callee. Main statements:
1. `Places.exists_leads`: a walk through placed code passes through blocks.
2. `Places.repeats`: a loop that runs at most `n` times in the code does so in the flow of its
   blocks.
3. `Places.cost_le`: a walk through the whole code costs no more than the root needs.
4. `Runs.le_cost`: an execution uses no more than its walks cost, calls included.
-/

namespace SecureTape

open List

/-! ## Walks -/

variable {pc : Nat} {code : List Instruction} {path : List Nat} {b : BlockId}

/-- Control may go on at `next` after the instruction at `pc`. -/
def Instruction.Follows (i : Instruction) (pc next : Nat) : Prop :=
  match i.jumpOperand? with
  | none => next = pc + 1
  | some k => i.opcode ≠ .jmp ∧ next = pc + 1 ∨
      ∃ offset, i.operands[k]? = some (.number offset) ∧ (next : Int) = pc + 1 + offset

theorem Instruction.Follows.of_not_jump {i : Instruction} {next : Nat} (h : i.Follows pc next)
    (hi : i.opcode.isJump = false) : next = pc + 1 := by
  have hnone : i.jumpOperand? = none := by
    unfold jumpOperand?
    split
    · rename_i hop
      rw [hop] at hi
      cases hi
    · rename_i hop
      rw [hop] at hi
      cases hi
    · rename_i hop
      rw [hop] at hi
      cases hi
    · rfl
  rwa [Follows, hnone] at h

/-- The positions of `path` are passed on a way to the end of the code. -/
def Walks (code : List Instruction) : Nat → List Nat → Prop
  | pc, [] => pc = code.length
  | pc, x :: path => x = pc ∧ ∃ i next, code[pc]? = some i ∧ i.Follows pc next ∧ Walks code next path

theorem Walks.cases (h : Walks code pc path) (hlt : pc < code.length) :
    ∃ i next rest, path = pc :: rest ∧ code[pc]? = some i ∧
      i.Follows pc next ∧ Walks code next rest := by
  cases path with
  | nil => exact absurd h (hlt.ne)
  | cons x rest =>
    obtain ⟨rfl, i, next, hi, hnext, hrest⟩ := h
    exact ⟨i, next, rest, rfl, hi, hnext, hrest⟩

/-! ## Placed code -/

def segment (start : BlockId → Nat) (b : BlockId) : List Nat :=
  List.range' (start b) (start (b + 1) - start b)

/-- The code of `size` blocks, one behind the other. Only the last instruction of a block with an
exit jumps, and it goes where the exit goes. -/
structure Places (s : Flow) (size : Nat) (start : BlockId → Nat) (code : List Instruction) : Prop where
  first : start 0 = 0
  last : start size = code.length
  mono : Monotone start
  inside : ∀ b, b < size → ∀ pc i, start b ≤ pc → pc < start (b + 1) →
    s.exit b = none ∨ pc + 1 < start (b + 1) → code[pc]? = some i → i.opcode.isJump = false
  nonempty : ∀ b, b < size → s.exit b ≠ none → start b < start (b + 1)
  jump : ∀ b, b < size → s.exit b ≠ none → ∀ pc i next, pc + 1 = start (b + 1) →
    code[pc]? = some i → i.Follows pc next → ∃ y, y ≤ size ∧ s.Goes b y ∧ next = start y

namespace Places

variable {s : Flow} {size : Nat} {start : BlockId → Nat}

theorem start_le (h : Places s size start code) (hb : b ≤ size) : start b ≤ code.length :=
  h.last ▸ h.mono hb

/-- The rest of a block is passed, and control goes on where the flow of the block goes. -/
theorem walks_block (h : Places s size start code) (hb : b < size) (hpc : start b ≤ pc)
    (hle : pc ≤ start (b + 1)) (hexit : s.exit b = none ∨ pc < start (b + 1))
    (hwalk : Walks code pc path) :
    ∃ y rest, y ≤ size ∧ s.Goes b y ∧ path = List.range' pc (start (b + 1) - pc) ++ rest ∧
      Walks code (start y) rest := by
  induction hlen : start (b + 1) - pc generalizing pc path with
  | zero =>
    have heq : pc = start (b + 1) := by omega
    have hnone := hexit.resolve_right (by omega)
    refine ⟨b + 1, path, hb, ?_, rfl, heq ▸ hwalk⟩
    rw [Flow.Goes, hnone]
  | succ len ih =>
    have hlt : pc < start (b + 1) := by omega
    obtain ⟨i, next, rest, rfl, hi, hnext, hrest⟩ :=
      hwalk.cases (hlt.trans_le (h.start_le hb))
    by_cases hmore : s.exit b = none ∨ pc + 1 < start (b + 1)
    · obtain rfl := hnext.of_not_jump (h.inside b hb pc i hpc hlt hmore hi)
      obtain ⟨y, rest', hy, hgoes, rfl, hwalk'⟩ :=
        ih (Nat.le_succ_of_le hpc) hlt hmore hrest (by omega)
      exact ⟨y, rest', hy, hgoes, rfl, hwalk'⟩
    · -- the jump at the end of the block
      rw [not_or] at hmore
      obtain rfl : len = 0 := by omega
      obtain ⟨y, hy, hgoes, rfl⟩ := h.jump b hb hmore.1 pc i next (by omega) hi hnext
      exact ⟨y, rest, hy, hgoes, rfl, hrest⟩

theorem exit_eq_none (h : Places s size start code) (hb : b < size)
    (hempty : start (b + 1) ≤ start b) : s.exit b = none := by
  by_contra hexit
  exact Nat.not_lt.2 hempty (h.nonempty b hb hexit)

theorem exists_leads {b : BlockId} {path : List Nat} (h : Places s size start code) (hb : b ≤ size)
    (hwalk : Walks code (start b) path) :
    ∃ blocks, s.Leads size b blocks ∧ path = blocks.flatMap (segment start) := by
  by_cases hlt : b < size
  · obtain ⟨y, rest, hy, hgoes, hpath, hrest⟩ :=
      h.walks_block hlt le_rfl (h.mono b.le_succ)
        ((lt_or_ge (start b) (start (b + 1))).symm.imp_left (h.exit_eq_none hlt)) hwalk
    have hless : rest.length < path.length ∨ rest.length = path.length ∧ size - y < size - b := by
      rw [hpath, length_append, length_range']
      rcases lt_or_ge (start b) (start (b + 1)) with hsome | hempty
      · exact .inl (by omega)
      · -- an empty block is left without a step
        rw [Flow.Goes, h.exit_eq_none hlt hempty] at hgoes
        have hnext : y = b + 1 := hgoes
        exact .inr (by omega)
    obtain ⟨blocks, hleads, hblocks⟩ := h.exists_leads hy hrest
    refine ⟨b :: blocks, ⟨rfl, hlt, y, hgoes, hleads⟩, ?_⟩
    rw [flatMap_cons, ← hblocks]
    exact hpath
  · obtain rfl : b = size := le_antisymm hb (not_lt.1 hlt)
    rw [h.last] at hwalk
    cases path with
    | nil => exact ⟨[], rfl, rfl⟩
    | cons x path =>
      obtain ⟨rfl, i, next, hi, -⟩ := hwalk
      exact absurd (List.getElem?_eq_some_iff.1 hi).1 (lt_irrefl _)
termination_by (path.length, size - b)
decreasing_by
  rw [Prod.lex_def]
  exact hless

/-! ## Loops -/

variable {blocks : List BlockId}

theorem head?_segments (h : Places s size start code) (hleads : s.Leads size b blocks) {x : Nat}
    (hx : (blocks.flatMap (segment start)).head? = some x) : x = start b := by
  induction blocks generalizing b with
  | nil => cases hx
  | cons c blocks ih =>
    obtain ⟨rfl, hlt, y, hgoes, hrest⟩ := hleads
    rcases lt_or_ge (start c) (start (c + 1)) with hsome | hempty
    · obtain ⟨len, hlen⟩ := Nat.exists_eq_succ_of_ne_zero (Nat.sub_ne_zero_of_lt hsome)
      rw [flatMap_cons, segment, hlen, range'_succ] at hx
      exact (Option.some.inj hx).symm
    · have hnil : segment start c = [] := by
        rw [segment, Nat.sub_eq_zero_of_le hempty]
        rfl
      rw [Flow.Goes, h.exit_eq_none hlt hempty] at hgoes
      rw [flatMap_cons, hnil, nil_append] at hx
      rw [ih hrest hx, hgoes]
      exact le_antisymm hempty (h.mono c.le_succ)

theorem heads (h : Places s size start code) (hleads : s.Leads size b blocks) {c : BlockId}
    (hc : c ∈ blocks) (hsome : start c < start (c + 1)) :
    blocks.head? = some b ∧ (blocks.flatMap (segment start)).head? = some (start b) := by
  constructor
  · cases blocks with
    | nil => cases hc
    | cons x blocks =>
      obtain ⟨rfl, -⟩ := hleads
      rfl
  · cases hhead : (blocks.flatMap (segment start)).head? with
    | none =>
      have hmem : start c ∈ blocks.flatMap (segment start) := by
        refine mem_flatMap.2 ⟨c, hc, ?_⟩
        rw [segment, mem_range'_1]
        omega
      rw [head?_eq_none_iff.1 hhead] at hmem
      cases hmem
    | some x => rw [h.head?_segments hleads hhead]

/-- A loop that runs at most `n` times in the code does so in the flow of the blocks. -/
theorem repeats (h : Places s size start code) {e head : BlockId} (he : e < size)
    (hclose : s.Closes e head) (hback : head ≤ e) {n : ℕ∞} {done : Nat}
    (hleads : s.Leads size b blocks)
    (hr : Repeats n (start (e + 1) - 1) done (blocks.flatMap (segment start))) :
    Repeats n e done blocks := by
  obtain ⟨cond, hexit⟩ := hclose
  have hsome := h.nonempty e he (by rw [hexit]; exact Option.some_ne_none _)
  induction blocks generalizing b done with
  | nil => trivial
  | cons c blocks ih =>
    obtain ⟨rfl, hlt, y, hgoes, hrest⟩ := hleads
    rw [flatMap_cons] at hr
    by_cases hc : c = e
    · subst hc
      have hsplit : segment start c =
          List.range' (start c) (start (c + 1) - 1 - start c) ++ [start (c + 1) - 1] := by
        rw [segment, show start (c + 1) - start c = start (c + 1) - 1 - start c + 1 by omega,
          range'_1_concat, show start c + (start (c + 1) - 1 - start c) = start (c + 1) - 1 by omega]
      have hnot : start (c + 1) - 1 ∉ List.range' (start c) (start (c + 1) - 1 - start c) := by
        rw [mem_range'_1]
        omega
      rw [hsplit, append_assoc, repeats_append_of_not_mem hnot, singleton_append,
        repeats_cons_self, Nat.sub_add_cancel (Nat.one_le_of_lt hsome)] at hr
      rw [repeats_cons_self]
      refine ⟨hr.1, ?_⟩
      by_cases hmem : c ∈ blocks
      · obtain ⟨hblocks, hcode⟩ := h.heads hrest hmem hsome
        rw [hblocks]
        rw [hcode] at hr
        rw [Flow.Goes, hexit] at hgoes
        rcases hgoes with hagain | ⟨-, rfl⟩
        · -- the loop runs again
          obtain rfl : head = y := Option.some.inj hagain
          have hhead : start head < start (c + 1) := lt_of_le_of_lt (h.mono hback) hsome
          rw [if_neg fun heq => hhead.ne (Option.some.inj heq)] at hr
          rw [if_neg fun heq => ne_of_lt (Nat.lt_succ_of_le hback) (Option.some.inj heq)]
          exact ih hrest hr.2
        · rw [if_pos rfl] at hr ⊢
          exact ih hrest hr.2
      · exact repeats_of_not_mem hmem
    · have hnot : start (e + 1) - 1 ∉ segment start c := by
        rw [segment, mem_range'_1]
        rcases Nat.lt_or_gt_of_ne hc with hlt | hgt
        · have hle : start (c + 1) ≤ start e := h.mono hlt
          omega
        · have hle : start (e + 1) ≤ start c := h.mono hgt
          omega
      rw [repeats_cons_of_ne hc]
      exact ih hrest ((repeats_append_of_not_mem hnot).1 hr)

/-! ## Costs -/

theorem sum_map_flatMap {α : Type} (f : α → ℕ∞) (part : BlockId → List α) (blocks : List BlockId) :
    ((blocks.flatMap part).map f).sum = (blocks.map fun b => ((part b).map f).sum).sum := by
  induction blocks with
  | nil => rfl
  | cons b blocks ih =>
    rw [flatMap_cons, map_append, sum_append, ih, map_cons, sum_cons]

/-- A walk through the whole code costs no more than the root needs. -/
theorem cost_le {last : BlockId} (h : Places s (last + 1) start code) {t : RequirementTree}
    {bound : BlockId → Count → Prop} {root : NodeId} (hwhole : s.Whole t bound root last)
    {cost : Nat → ℕ∞} {use : BlockId → ℕ∞} {need : NodeId → ℕ∞}
    (hcharged : s.Charged t (last + 1) (fun b => ((segment start b).map cost).sum) use need)
    (hwalk : Walks code 0 path)
    (hr : ∀ e head n, e ≤ last → bound head n → s.Closes e head →
      Repeats n.value (start (e + 1) - 1) 0 path) :
    (path.map cost).sum ≤ need root := by
  rw [← h.first] at hwalk
  obtain ⟨blocks, hleads, rfl⟩ := h.exists_leads (Nat.zero_le _) hwalk
  rw [sum_map_flatMap]
  refine hwhole.cost_le hcharged hleads fun e head n hbound hclose => ?_
  by_cases he : e ≤ last
  · exact h.repeats (Nat.lt_succ_of_le he) hclose (hwhole.back he hclose) hleads
      (hr e head n he hbound hclose)
  · refine repeats_of_not_mem fun hmem => he ?_
    exact Nat.le_of_lt_succ (hleads.lt_of_mem hmem)

end Places

/-! ## Executions -/

/-- What an instruction costs: what it uses of a resource, and what the tape that it calls needs. -/
noncomputable def Instruction.cost (key : Resource) (need : TapeId → ℕ∞) (i : Instruction) : ℕ∞ :=
  i.uses key + (i.callee?.map need).getD 0

noncomputable def Op.cost (key : Resource) (need : TapeId → ℕ∞) (op : Op) : ℕ∞ :=
  (op.inst?.map (Instruction.cost key need)).getD 0

theorem sum_cost (key : Resource) (need : TapeId → ℕ∞) (ops : List Op) :
    (ops.map (Op.cost key need)).sum =
      ((ops.map (Op.uses key)).sum : Nat) + ((ops.filterMap Op.callee?).map need).sum := by
  induction ops with
  | nil => rfl
  | cons op ops ih =>
    have hop : op.cost key need = (op.uses key : Nat) + (op.callee?.map need).getD 0 := by
      cases op <;> rfl
    have hcalls : ((List.filterMap Op.callee? (op :: ops)).map need).sum =
        (op.callee?.map need).getD 0 + ((ops.filterMap Op.callee?).map need).sum := by
      rw [filterMap_cons]
      cases op.callee? <;> simp
    rw [map_cons, sum_cons, ih, hop, hcalls, map_cons, sum_cons, Nat.cast_add,
      add_add_add_comm]

noncomputable def costAt (key : Resource) (need : TapeId → ℕ∞) (code : List Instruction) (pc : Nat) :
    ℕ∞ :=
  (code[pc]?.map (Instruction.cost key need)).getD 0

/-- Control that is at `pc` in the code of a tape comes to its end by way of `path`, and `n` of the
resource are used on the way. Calls run the code of the callee, on ways that are admitted. -/
inductive Runs (codes : TapeId → List Instruction) (admits : TapeId → List Nat → Prop)
    (key : Resource) : TapeId → Nat → List Nat → Nat → Prop
  | done (id : TapeId) : Runs codes admits key id (codes id).length [] 0
  | step {id : TapeId} {pc next n : Nat} {path : List Nat} {i : Instruction}
      (hi : (codes id)[pc]? = some i) (hop : i.opcode ≠ .callTape) (hnext : i.Follows pc next)
      (h : Runs codes admits key id next path n) :
      Runs codes admits key id pc (pc :: path) (i.uses key + n)
  | call {id callee : TapeId} {pc m n : Nat} {path inner : List Nat} {i : Instruction}
      (hi : (codes id)[pc]? = some i) (hop : i.opcode = .callTape) (hcallee : i.callee? = some callee)
      (hbody : Runs codes admits key callee 0 inner m) (hadmits : admits callee inner)
      (h : Runs codes admits key id (pc + 1) path n) :
      Runs codes admits key id pc (pc :: path) (i.uses key + (m + n))

variable {codes : TapeId → List Instruction} {admits : TapeId → List Nat → Prop} {key : Resource}

/-- An execution uses no more than its walk costs, if no admitted walk through a callee costs more
than the callee needs. -/
theorem Runs.le_cost {need : TapeId → ℕ∞}
    (hneed : ∀ f path, Walks (codes f) 0 path → admits f path →
      (path.map (costAt key need (codes f))).sum ≤ need f)
    {id : TapeId} {n : Nat} (h : Runs codes admits key id pc path n) :
    Walks (codes id) pc path ∧ (n : ℕ∞) ≤ (path.map (costAt key need (codes id))).sum := by
  induction h with
  | done id => exact ⟨rfl, by simp⟩
  | @step id pc next n path i hi hop hnext h ih =>
    refine ⟨⟨rfl, i, next, hi, hnext, ih.1⟩, ?_⟩
    rw [map_cons, sum_cons, Nat.cast_add, costAt, hi]
    exact add_le_add le_self_add ih.2
  | @call id callee pc m n path inner i hi hop hcallee hbody hadmits h ihbody ih =>
    have hnext : i.Follows pc (pc + 1) := by
      rw [Instruction.Follows, Instruction.jumpOperand?, hop]
    refine ⟨⟨rfl, i, pc + 1, hi, hnext, ih.1⟩, ?_⟩
    have hcost : i.cost key need = i.uses key + need callee := by
      rw [Instruction.cost, hcallee]
      rfl
    rw [map_cons, sum_cons, Nat.cast_add, Nat.cast_add, ← add_assoc, costAt, hi]
    refine add_le_add (le_of_le_of_eq (add_le_add le_rfl ?_) hcost.symm) ih.2
    exact ihbody.2.trans (hneed callee inner ihbody.1 hadmits)

end SecureTape
