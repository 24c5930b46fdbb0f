import Mathlib
import SecureTape.Proofs.Executions
import SecureTape.Proofs.FinishedTapes
import SecureTape.Proofs.ScheduledRegions

/-!
# Placement

What allocation makes of scheduled tapes. Main statements:
1. `Layout.of_resolve`: resolved blocks stand one behind the other, and jumps go to the start of
   their targets.
2. `Tape.Linked.places`: the code of an allocated tape is the placed code of its flow.
3. `Tape.Linked.charged_flow`: what that code costs is charged to the requirement nodes of its
   blocks.
4. `BuildM.allocation_clobbers`: a register that is live around a loop may share its place.
-/

open SecureTape.Action

namespace SecureTape

open List

open Program RequirementTree

/-! ## Layout -/

variable {i : Instruction} {start : BlockId → Nat} {index y : BlockId} {j n pc : Nat} {b d : Block}
  {kind : ExitKind} {is : List Instruction} {ds : List Block}

namespace Block

theorem setJump_eq (b : Block) (offset : Int) :
    b.setJump offset = { b with ops := (b.setJump offset).ops } := by
  unfold setJump
  split <;> rfl

theorem ops_setJump {body : List Op} (h : b.ops = body ++ [.inst i]) (offset : Int) :
    (b.setJump offset).ops = body ++ [.inst (i.withJumpOffset offset)] := by
  simp [setJump, h]

theorem of_resolve (h : b.resolve start index = .ok d) :
    (b.exit = none ∧ d = { b with state := .placed }) ∨
      ∃ kind y, b.exit = some ⟨kind, some y⟩ ∧
        d = { b with ops := (b.setJump (start y - b.stop)).ops, state := .placed } := by
  unfold resolve at h
  split at h
  · rename_i hexit
    cases h
    exact .inl ⟨hexit, rfl⟩
  · cases h
  · rename_i kind y hexit
    simp only [] at h
    split at h
    · cases h
    · rw [setJump_eq] at h
      cases h
      exact .inr ⟨kind, y, hexit, rfl⟩

end Block

namespace Layout

def startOf (bs : List Block) (k : BlockId) : Nat := ((bs.take k).map (·.ops.length)).sum

variable {bs : List Block} {k : Nat}

theorem startOf_succ (h : bs[k]? = some b) : startOf bs (k + 1) = startOf bs k + b.ops.length := by
  rw [startOf, take_add_one, h, map_append, sum_append]
  simp [startOf]

theorem monotone_startOf (bs : List Block) : Monotone (startOf bs) := by
  refine monotone_nat_of_le_succ fun k => ?_
  cases h : bs[k]? with
  | none => rw [startOf, startOf, take_add_one, h, Option.toList_none, append_nil]
  | some b =>
    rw [startOf_succ h]
    exact Nat.le_add_right ..

theorem startOf_congr (h : ds.map (·.ops.length) = bs.map (·.ops.length)) :
    startOf ds = startOf bs := by
  funext k
  rw [startOf, startOf, map_take, map_take, h]

theorem getElem?_flatMap_ops (h : bs[k]? = some b) (hj : j < b.ops.length) :
    (bs.flatMap (·.ops))[startOf bs k + j]? = b.ops[j]? := by
  induction bs generalizing k with
  | nil => cases h
  | cons c bs ih =>
    cases k with
    | zero =>
      cases h
      rw [flatMap_cons, startOf, take_zero, map_nil, sum_nil, zero_add]
      exact getElem?_append_left hj
    | succ k =>
      rw [flatMap_cons, startOf, take_succ_cons, map_cons, sum_cons,
        add_assoc, getElem?_append_right (Nat.le_add_right ..), Nat.add_sub_cancel_left]
      exact ih h

theorem startOf_length (bs : List Block) : startOf bs bs.length = (bs.flatMap (·.ops)).length := by
  rw [startOf, take_length, length_flatMap]

theorem getElem?_place (offset : Nat) (bs : List Block) (k : Nat) :
    (place offset bs)[k]? = bs[k]?.map fun b => { b with offset := offset + startOf bs k } := by
  induction bs generalizing offset k with
  | nil => rfl
  | cons c bs ih =>
    cases k with
    | zero => rfl
    | succ k =>
      rw [place, getElem?_cons_succ, ih, getElem?_cons_succ, startOf, startOf,
        take_succ_cons, map_cons, sum_cons, add_assoc]

theorem starts_place (hy : y < bs.length) : starts (place 0 bs) y = startOf bs y := by
  rw [starts, getElem?_place, getElem?_eq_getElem hy]
  exact zero_add _

theorem of_resolveFrom (h : resolveFrom start index bs = (.ok ⟨⟩, ds)) :
    ∀ (k : Nat) (b : Block), bs[k]? = some b →
      ∃ d, ds[k]? = some d ∧ b.resolve start (index + k) = .ok d := by
  induction bs generalizing index ds with
  | nil =>
    intro k b hb
    cases hb
  | cons c bs ih =>
    intro k b hb
    unfold resolveFrom at h
    split at h
    · cases h
    · rename_i d hd
      simp only [Prod.mk.injEq] at h
      obtain ⟨hok, rfl⟩ := h
      cases k with
      | zero =>
        cases hb
        exact ⟨d, rfl, hd⟩
      | succ k =>
        obtain ⟨d', hd', hresolve⟩ := ih (Prod.ext hok rfl) k b hb
        rw [add_assoc, add_comm 1] at hresolve
        exact ⟨d', hd', hresolve⟩

/-- A resolved block: it stands behind the blocks in front of it, and its jump goes to the start of
the target. -/
structure Resolved (bs : List Block) (k : BlockId) (b d : Block) : Prop where
  exit : d.exit = b.exit
  node : d.node = b.node
  usage : d.usage = b.usage
  offset : d.offset = startOf bs k
  ops_of_none : b.exit = none → d.ops = b.ops
  ops_of_some : ∀ kind target, b.exit = some ⟨kind, target⟩ → ∃ y, target = some y ∧
    (y < bs.length → d.ops = (b.setJump ((startOf bs y : Int) - startOf bs (k + 1))).ops)

theorem resolved_of_resolve (hb : bs[k]? = some b)
    (h : Block.resolve (starts (place 0 bs)) k { b with offset := startOf bs k } = .ok d) :
    Resolved bs k b d := by
  have hstop : Block.stop { b with offset := startOf bs k } = startOf bs (k + 1) :=
    (startOf_succ hb).symm
  have hops (offset : Int) :
      (Block.setJump { b with offset := startOf bs k } offset).ops = (b.setJump offset).ops := by
    unfold Block.setJump
    rcases b.ops.getLast? with _ | _ | _ <;> rfl
  obtain ⟨hexit, rfl⟩ | ⟨kind, y, hexit, rfl⟩ := Block.of_resolve h
  · refine ⟨rfl, rfl, rfl, rfl, fun _ => rfl, fun kind target htarget => ?_⟩
    cases hexit.symm.trans htarget
  · refine ⟨rfl, rfl, rfl, rfl, fun hnone => ?_, fun kind target htarget => ?_⟩
    · cases hexit.symm.trans hnone
    · cases hexit.symm.trans htarget
      refine ⟨y, rfl, fun hy => ?_⟩
      rw [hops, hstop, starts_place hy]

theorem of_resolve (h : resolve bs = (.ok ⟨⟩, ds)) :
    startOf ds = startOf bs ∧ ds.length = bs.length ∧
      ∀ (k : Nat) (b : Block), bs[k]? = some b → ∃ d, ds[k]? = some d ∧ Resolved bs k b d := by
  have hplaced : Forall₂ Block.Placed bs ds := by
    have hplaced := placed_resolve bs
    rwa [h] at hplaced
  have hlengths : ds.map (·.ops.length) = bs.map (·.ops.length) := by
    clear h
    induction hplaced with
    | nil => rfl
    | cons hb _ ih => rw [map_cons, map_cons, ih, hb.ops.length_eq]
  refine ⟨startOf_congr hlengths, hplaced.length_eq.symm, fun k b hb => ?_⟩
  have hplace := getElem?_place 0 bs k
  rw [hb, zero_add] at hplace
  obtain ⟨d, hd, hresolve⟩ := of_resolveFrom h k _ hplace
  rw [zero_add] at hresolve
  exact ⟨d, hd, resolved_of_resolve hb hresolve⟩

end Layout

/-! ## Linked blocks -/

namespace Block

/-- The jump at the end of a block, with its offset. -/
def links (start : BlockId → Nat) (k : BlockId) (b : Block) : List Op :=
  b.exit.toList.map fun e =>
    .inst (e.kind.jump.withJumpOffset ((start (e.target.getD 0) : Int) - start (k + 1)))

variable {k : BlockId}

theorem links_of_none (h : b.exit = none) : b.links start k = [] := by
  rw [links, h]
  rfl

theorem links_of_some (h : b.exit = some ⟨kind, some y⟩) :
    b.links start k = [.inst (kind.jump.withJumpOffset ((start y : Int) - start (k + 1)))] := by
  rw [links, h]
  rfl

/-- The block `d` is what block `k` of a tape is in the end: instructions without jumps that call no
more than `b`, and the jump of its exit. Its usage covers what the code uses. -/
structure Linked (n : Nat) (start : BlockId → Nat) (k : BlockId) (b d : Block) : Prop where
  exit : d.exit = b.exit
  node : d.node = b.node
  offset : d.offset = start k
  code : ∃ body, (∀ op ∈ body, op.Direct n) ∧
    (body.filterMap Op.callee?).Subperm (b.ops.filterMap Op.callee?) ∧ d.ops = body ++ b.links start k
  usage : ∀ key, (((d.ops.map (Op.uses key)).sum : Nat) : ℕ∞) ≤ (d.usage.get key).value

variable {c : Block}

theorem Arranged.insertAtEnd (h : b.Arranged n c) (hexit : b.exit = none)
    (his : ∀ i ∈ is, i.Plain ∧ ∀ key, i.uses key = 0) : b.Arranged n (c.insertAtEnd is) := by
  obtain ⟨body, hdirect, hsub, hops⟩ := h.code
  have hjumps : b.jumps = [] := by rw [jumps, hexit]; rfl
  have hend : (c.insertAtEnd is).ops = c.ops ++ is.map .inst := by
    unfold Block.insertAtEnd
    rw [h.exit, hexit]
    simp
  refine ⟨h.exit, h.node, ⟨body ++ is.map .inst, ?_, ?_, ?_⟩, fun key => ?_⟩
  · refine forall_mem_append.2 ⟨hdirect, fun op hop => ?_⟩
    obtain ⟨i, hi, rfl⟩ := mem_map.1 hop
    exact .of_plain (his i hi).1 n
  · have hnone : (is.map Op.inst).filterMap Op.callee? = [] := by
      refine filterMap_eq_nil_iff.2 fun op hop => ?_
      obtain ⟨i, hi, rfl⟩ := mem_map.1 hop
      exact (his i hi).1.callee?_eq_none
    rw [filterMap_append, hnone, append_nil]
    exact hsub
  · rw [hend, hops, hjumps, append_nil, append_nil]
  · have hzero : ((is.map Op.inst).map (Op.uses key)).sum = 0 := by
      refine sum_eq_zero fun n hn => ?_
      obtain ⟨op, hop, rfl⟩ := mem_map.1 hn
      obtain ⟨i, hi, rfl⟩ := mem_map.1 hop
      exact (his i hi).2 key
    rw [hend, map_append, sum_append, hzero, Nat.add_zero]
    exact h.usage key

theorem Arranged.linked (h : b.Arranged n c) {cs : List Block} (hd : Layout.Resolved cs k c d)
    (hstays : ∀ kind y, b.exit = some ⟨kind, some y⟩ → y < cs.length) :
    b.Linked n (Layout.startOf cs) k d := by
  obtain ⟨body, hdirect, hsub, hops⟩ := h.code
  have huses (key : Resource) (kind : ExitKind) (offset : Int) :
      (kind.jump.withJumpOffset offset).uses key = kind.jump.uses key := by
    cases kind <;> rfl
  have hlinks : d.ops = body ++ b.links (Layout.startOf cs) k ∧
      ∀ key, (d.ops.map (Op.uses key)).sum = (c.ops.map (Op.uses key)).sum := by
    cases hexit : b.exit with
    | none =>
      rw [hd.ops_of_none (h.exit.trans hexit), hops, jumps, links, hexit]
      exact ⟨rfl, fun _ => rfl⟩
    | some e =>
      obtain ⟨kind, target⟩ := e
      obtain ⟨y, rfl, hy⟩ := hd.ops_of_some kind target (h.exit.trans hexit)
      rw [jumps, hexit] at hops
      rw [hy (hstays kind y hexit), ops_setJump hops, links, hexit]
      refine ⟨rfl, fun key => ?_⟩
      rw [hops, map_append, map_append, sum_append, sum_append]
      exact congrArg (_ + · + 0) (huses key kind _)
  refine ⟨hd.exit.trans h.exit, hd.node.trans h.node, hd.offset, ⟨body, hdirect, hsub, hlinks.1⟩,
    fun key => ?_⟩
  rw [hlinks.2 key, hd.usage]
  exact h.usage key

end Block

/-! ## Linked tapes -/

namespace Tape

def startOf (t : Tape) : BlockId → Nat := Layout.startOf t.blocks.toList

/-- The tape `r` is what `t` is in the end. -/
structure Linked (tree : RequirementTree) (n : Nat) (t r : Tape) : Prop where
  scopes : t.scopes = []
  size : r.blocks.size = t.blocks.size
  block : ∀ b, b < t.blocks.size → (t.block b).Linked n r.startOf b (r.block b)
  charged : r.Charges tree t.blocks.size

variable {tree : RequirementTree} {t t' r : Tape}

theorem getElem?_toList_blocks (t : Tape) {b : BlockId} (hb : b < t.blocks.size) :
    t.blocks.toList[b]? = some (t.block b) := by
  rw [Array.getElem?_toList, block, Array.getD_eq_getD_getElem?, Array.getElem?_eq_getElem hb]
  rfl

theorem Scheduled.linked (h : Scheduled tree n t t')
    (hlast : (t.block (t.blocks.size - 1)).exit = none)
    (hstays : ∀ b, b < t.blocks.size → ∀ kind y, (t.block b).exit = some ⟨kind, some y⟩ →
      y < t.blocks.size)
    (his : ∀ i ∈ is, i.Plain ∧ ∀ key, i.uses key = 0)
    (hresolve : Layout.resolve (t'.declare is).blocks.toList = (.ok ⟨⟩, ds))
    (hr : r.blocks = ds.toArray) : Linked tree n t r := by
  obtain ⟨hstart, hlength, hresolved⟩ := Layout.of_resolve hresolve
  have hdeclared (b : BlockId) (hb : b < t.blocks.size) :
      (t.block b).Arranged n ((t'.declare is).block b) ∧
        ((t'.declare is).block b).node = (t'.block b).node ∧
        ((t'.declare is).block b).usage = (t'.block b).usage := by
    rw [declare, block_modifyBlock]
    split
    · rename_i hb'
      obtain ⟨rfl, -⟩ := hb'
      rw [h.size] at hb ⊢
      exact ⟨(h.block _ hb).insertAtEnd hlast his, rfl, rfl⟩
    · exact ⟨h.block b hb, rfl, rfl⟩
  have hsize : (t'.declare is).blocks.size = t.blocks.size := (size_modifyBlock ..).trans h.size
  have hsize' : r.blocks.size = t.blocks.size := by
    rw [hr, size_toArray, hlength, Array.length_toList, hsize]
  have hplaced (b : BlockId) (hb : b < t.blocks.size) :
      Layout.Resolved (t'.declare is).blocks.toList b ((t'.declare is).block b) (r.block b) := by
    obtain ⟨d, hd, hres⟩ := hresolved b _ (getElem?_toList_blocks _ (hsize.symm ▸ hb))
    have hblock := getElem?_toList_blocks r (hsize'.symm ▸ hb)
    rw [hr, hd] at hblock
    rwa [← Option.some.inj hblock]
  have hstartOf : r.startOf = Layout.startOf (t'.declare is).blocks.toList := by
    rw [startOf, hr, hstart]
  refine ⟨h.scopes, hsize', fun b hb => ?_, fun key x => ?_⟩
  · rw [hstartOf]
    refine (hdeclared b hb).1.linked (hplaced b hb) fun kind y hexit => ?_
    rw [Array.length_toList, hsize]
    exact hstays b hb kind y hexit
  · refine le_trans (le_of_eq ?_) (h.charged key x)
    rw [Finset.sum_filter, Finset.sum_filter]
    refine Finset.sum_congr rfl fun b hb => ?_
    have hb' := Finset.mem_range.1 hb
    rw [(hplaced b hb').node, (hplaced b hb').usage, (hdeclared b hb').2.1, (hdeclared b hb').2.2]

/-! ## Code of linked tapes -/

namespace Linked

variable {b : BlockId}

theorem startOf_succ (h : t.Linked tree n r) (hb : b < t.blocks.size) :
    r.startOf (b + 1) = r.startOf b + (r.block b).ops.length :=
  Layout.startOf_succ (getElem?_toList_blocks r (h.size.symm ▸ hb))

theorem map_inst_code (h : t.Linked tree n r) :
    r.code.map .inst = r.blocks.toList.flatMap (·.ops) := by
  rw [code, map_flatMap]
  refine flatMap_congr fun d hd => ?_
  obtain ⟨b, hb, rfl⟩ := mem_iff_getElem.1 hd
  rw [Array.length_toList] at hb
  have hblock : r.blocks.toList[b] = r.block b :=
    Option.some.inj ((getElem?_eq_getElem _).symm.trans (getElem?_toList_blocks r hb))
  obtain ⟨body, hdirect, -, hops⟩ := (h.block b (h.size ▸ hb)).code
  have hinst : ∀ op ∈ (r.block b).ops, op.inst?.map .inst = some op := by
    rw [hops]
    refine forall_mem_append.2 ⟨fun op hop => ?_, fun op hop => ?_⟩
    · obtain ⟨i, rfl, -⟩ := hdirect op hop
      rfl
    · obtain ⟨e, -, rfl⟩ := mem_map.1 hop
      rfl
  rw [hblock, Block.instructions, map_filterMap, filterMap_congr hinst, filterMap_some]

theorem length_code (h : t.Linked tree n r) : r.code.length = r.startOf t.blocks.size := by
  rw [← length_map Op.inst, h.map_inst_code, ← Layout.startOf_length, Array.length_toList, h.size]
  rfl

theorem map_getElem?_code (h : t.Linked tree n r) (hb : b < t.blocks.size)
    (hj : j < (r.block b).ops.length) :
    r.code[r.startOf b + j]?.map .inst = (r.block b).ops[j]? := by
  rw [← getElem?_map, h.map_inst_code]
  exact Layout.getElem?_flatMap_ops (getElem?_toList_blocks r (h.size.symm ▸ hb)) hj

theorem inst_of_getElem?_code (h : t.Linked tree n r) (hb : b < t.blocks.size)
    (hpc : r.startOf b ≤ pc) (hlt : pc < r.startOf (b + 1)) (hi : r.code[pc]? = some i) :
    (r.block b).ops[pc - r.startOf b]? = some (.inst i) := by
  have hj : pc - r.startOf b < (r.block b).ops.length := by
    rw [h.startOf_succ hb] at hlt
    omega
  rw [← h.map_getElem?_code hb hj, Nat.add_sub_cancel' hpc, hi]
  rfl

theorem goes_of_follows {next start stop : Nat} (hpc : pc + 1 = stop)
    (h : (kind.jump.withJumpOffset ((start : Int) - stop)).Follows pc next) :
    next = start ∨ kind ≠ .always ∧ next = stop := by
  cases kind with
  | always =>
    rcases h with ⟨hne, -⟩ | ⟨offset, hoffset, hnext⟩
    · exact absurd rfl hne
    · cases hoffset
      exact .inl (by omega)
  | ifNonZero | ifZero =>
    rcases h with ⟨-, hnext⟩ | ⟨offset, hoffset, hnext⟩
    · exact .inr ⟨by simp, hnext.trans hpc⟩
    · cases hoffset
      exact .inl (by omega)

theorem places (h : t.Linked tree n r) (roots : TapeId → NodeId)
    (hstays : ∀ b, b < t.blocks.size → ∀ kind target, (t.block b).exit = some ⟨kind, target⟩ →
      ∃ y, target = some y ∧ y < t.blocks.size) :
    Places (t.flow roots) t.blocks.size r.startOf r.code where
  first := rfl
  last := h.length_code.symm
  mono := Layout.monotone_startOf _
  inside b hb pc i hpc hlt hexit hi := by
    have hop := h.inst_of_getElem?_code hb hpc hlt hi
    obtain ⟨body, hdirect, -, hops⟩ := (h.block b hb).code
    have hlinks : ((t.block b).links r.startOf b).length ≤ 1 := by
      cases hexit : (t.block b).exit <;> simp [Block.links, hexit]
    have hbody : pc - r.startOf b < body.length := by
      rw [h.startOf_succ hb, hops, length_append] at hlt hexit
      rcases hexit with hnone | hmore
      · rw [Block.links_of_none hnone, length_nil] at hlt
        omega
      · omega
    rw [hops, getElem?_append_left hbody] at hop
    obtain ⟨j, hj, hjump, -⟩ := hdirect _ (mem_of_getElem? hop)
    cases hj
    exact hjump
  nonempty b hb hexit := by
    obtain ⟨⟨kind, target⟩, hsome⟩ := Option.ne_none_iff_exists'.1 hexit
    obtain ⟨y, rfl, -⟩ := hstays b hb kind target hsome
    obtain ⟨body, -, -, hops⟩ := (h.block b hb).code
    rw [h.startOf_succ hb, hops, Block.links_of_some hsome, length_append, length_singleton]
    omega
  jump b hb hexit pc i next hpc hi hnext := by
    obtain ⟨⟨kind, target⟩, hsome⟩ := Option.ne_none_iff_exists'.1 hexit
    obtain ⟨y, rfl, hy⟩ := hstays b hb kind target hsome
    obtain ⟨body, -, -, hops⟩ := (h.block b hb).code
    rw [Block.links_of_some hsome] at hops
    have hstop := h.startOf_succ hb
    rw [hops, length_append, length_singleton] at hstop
    have hop := h.inst_of_getElem?_code hb (by omega) (by omega) hi
    rw [hops, show pc - r.startOf b = body.length by omega, getElem?_concat_length] at hop
    cases hop
    have hgoes (z : BlockId) (hz : some y = some z ∨ kind ≠ .always ∧ z = b + 1) :
        (t.flow roots).Goes b z := by
      rw [Flow.Goes, hsome]
      exact hz
    rcases goes_of_follows hpc hnext with rfl | ⟨hkind, rfl⟩
    · exact ⟨y, le_of_lt hy, hgoes y (.inl rfl), rfl⟩
    · exact ⟨b + 1, hb, hgoes (b + 1) (.inr ⟨hkind, rfl⟩), rfl⟩

theorem map_costAt (h : t.Linked tree n r) (hb : b < t.blocks.size) (key : Resource)
    (need : TapeId → ℕ∞) :
    (segment r.startOf b).map (costAt key need r.code) = (r.block b).ops.map (Op.cost key need) := by
  rw [segment, h.startOf_succ hb, Nat.add_sub_cancel_left]
  refine ext_getElem (by simp) fun j hj hj' => ?_
  rw [length_map] at hj'
  have hop := h.map_getElem?_code hb hj'
  rw [getElem?_eq_getElem hj'] at hop
  obtain ⟨i, hi, hinst⟩ := Option.map_eq_some_iff.1 hop
  rw [getElem_map, getElem_map, getElem_range', Nat.one_mul, costAt, hi, ← hinst]
  rfl

/-- What the code of a linked tape costs is charged to the requirement nodes of its blocks. -/
theorem charged_flow (h : t.Linked tree n r) (roots : TapeId → NodeId) (key : Resource) :
    (t.flow roots).Charged tree t.blocks.size
      (fun b => ((segment r.startOf b).map (costAt key (fun f => tree.least key (roots f)) r.code)).sum)
      (fun b => ((r.block b).usage.get key).value) (tree.least key) where
  block b hb := by
    obtain ⟨body, -, hsub, hops⟩ := (h.block b hb).code
    have hcalls : (r.block b).ops.filterMap Op.callee? = body.filterMap Op.callee? := by
      have hnone : ((t.block b).links r.startOf b).filterMap Op.callee? = [] := by
        refine filterMap_eq_nil_iff.2 fun op hop => ?_
        obtain ⟨e, -, rfl⟩ := mem_map.1 hop
        cases e.kind <;> rfl
      rw [hops, filterMap_append, hnone, append_nil]
    obtain ⟨calls, hperm, hsublist⟩ := hsub
    rw [h.map_costAt hb, sum_cost, hcalls]
    refine add_le_add ((h.block b hb).usage key) ?_
    show _ ≤ (List.map _ (List.map roots _)).sum
    rw [map_map, ← (hperm.map _).sum_eq]
    exact (hsublist.map _).sum_le_sum fun _ _ => zero_le
  node x bs hbs := by
    have hle : (bs.map fun b => ((r.block b).usage.get key).value).sum ≤ tree.ownValue key x := by
      rw [← sum_toFinset _ hbs.1]
      refine le_trans (Finset.sum_le_sum_of_subset fun b hb => ?_) (h.charged key x)
      obtain ⟨hnode, hlt⟩ := hbs.2 b (mem_toFinset.1 hb)
      rw [Finset.mem_filter, Finset.mem_range, (h.block b hlt).node]
      exact ⟨hlt, hnode⟩
    exact (add_le_add hle le_rfl).trans (own_add_groupsValue_least tree key x)

end Linked

end Tape

/-! ## Values along a path -/

/-- Position `i` of one register and position `j` of another, which is not linked to it, are in the
same physical register. -/
def RegisterFile.SharesSlot (f : RegisterFile) (a b : Reg) (i j : Nat) : Prop :=
  f.classOf a = f.classOf b ∧ f.slotKey a ≠ f.slotKey b ∧ i < f.sizeOf a ∧ j < f.sizeOf b ∧
    f.physical a + i = f.physical b + j

/-- Between a write and a read of an element, its physical register is written for another register,
and the element itself is not written again. -/
def Clobbers (f : RegisterFile) (trace : List Instruction) : Prop :=
  ∃ (a b : Reg) (i j : Nat) (before mid rest after : List Instruction) (first other last : Instruction),
    trace = before ++ first :: mid ++ other :: rest ++ last :: after ∧ f.SharesSlot a b i j ∧
      a ∈ first.writes ∧ b ∈ other.writes ∧ a ∈ last.reads ∧
      ∀ k ∈ mid ++ other :: rest, ∀ r ∈ k.writes, f.slotKey r = f.slotKey a →
        f.physical a + i < f.physical r ∨ f.physical r + f.sizeOf r ≤ f.physical a + i

namespace BuildM

/-- A number is read in a loop by a function scope that has a number of its own. -/
def storeInLoop : BuildM Unit := do
  let kept ← newInteger
  let cond ← newInteger
  emit .ldtn [kept]
  emit .ldtn [cond]
  beginLoop .unbounded
  beginFunction
  storeMemory kept 0
  let own ← newInteger
  emit .ldtn [own]
  storeMemory own 1
  endFunction
  endLoop cond

def storeInLoopCode : List Instruction :=
  [⟨.ldtn, .base, 1, [.reg ⟨0, 0⟩]⟩, ⟨.ldtn, .base, 1, [.reg ⟨0, 1⟩]⟩,
    ⟨.stmint, .base, 1, [.reg ⟨0, 0⟩, .number 0]⟩, ⟨.ldtn, .base, 1, [.reg ⟨0, 2⟩]⟩,
    ⟨.stmint, .base, 1, [.reg ⟨0, 2⟩, .number 1]⟩, ⟨.jmpnz, .base, 1, [.reg ⟨0, 1⟩, .number (-4)]⟩]

/-- A loop keeps slots for what its own scope takes over, but not for what a function scope in it
does: in the second round the number is gone. -/
theorem allocation_clobbers :
    let p := ((scheduleTape 0).run (builtBy storeInLoop)).2
    let q := ((allocateTape 0).run p).2
    (finish.run (builtBy storeInLoop)).1.toBool = true ∧ ((allocateTape 0).run p).1.toBool = true ∧
      ∃ path, Walks (q.tapeAt 0).code 0 path ∧
        Clobbers (q.tapeAt 0).regs (path.filterMap ((q.tapeAt 0).code[·]?)) := by
  intro p q
  have hcode : (q.tapeAt 0).code = storeInLoopCode := by decide +kernel
  refine ⟨by decide +kernel, by decide +kernel, [0, 1, 2, 3, 4, 5, 2, 3, 4, 5], ?_, ?_⟩
  · rw [hcode]
    -- One round of the loop: its three instructions, and the jump to where the path goes on.
    have hround (next : Nat) (path : List Nat)
        (hjump : (⟨.jmpnz, .base, 1, [.reg ⟨0, 1⟩, .number (-4)]⟩ : Instruction).Follows 5 next)
        (hrest : Walks storeInLoopCode next path) :
        Walks storeInLoopCode 2 (2 :: 3 :: 4 :: 5 :: path) :=
      ⟨rfl, _, 3, rfl, rfl, rfl, _, 4, rfl, rfl, rfl, _, 5, rfl, rfl, rfl, _, next, rfl, hjump, hrest⟩
    have hlast := hround 6 [] (.inl ⟨by decide, rfl⟩) rfl
    exact ⟨rfl, _, 1, rfl, rfl, rfl, _, 2, rfl, rfl, hround 2 _ (.inr ⟨-4, rfl, rfl⟩) hlast⟩
  · rw [hcode]
    refine ⟨⟨0, 0⟩, ⟨0, 2⟩, 0, 0, [], storeInLoopCode.extract 1 3, storeInLoopCode.drop 4,
      storeInLoopCode.drop 3, _, _, _, rfl, ⟨?_, ?_, ?_, ?_, ?_⟩, ?_, ?_, ?_, ?_⟩
    all_goals decide +kernel

/-- The effect of an instruction on the position in the code and on the integers in the physical
registers; instructions that are not used for counting only go on. -/
def stepInts (f : RegisterFile) (code : List Instruction) (pc : Nat) (ints : Nat → Int) :
    Option (Nat × (Nat → Int)) :=
  code[pc]?.map fun
    | ⟨.ldint, _, _, [.reg d, .number n]⟩ => (pc + 1, Function.update ints (f.physical d) n)
    | ⟨.addint, _, _, [.reg d, .reg a, .reg b]⟩ =>
      (pc + 1, Function.update ints (f.physical d) (ints (f.physical a) + ints (f.physical b)))
    | ⟨.ltc, _, _, [.reg d, .reg a, .reg b]⟩ =>
      (pc + 1, Function.update ints (f.physical d)
        (if ints (f.physical a) < ints (f.physical b) then 1 else 0))
    | ⟨.jmpnz, _, _, [.reg c, .number n]⟩ =>
      (if ints (f.physical c) = 0 then pc + 1 else (pc + 1 + n).toNat, ints)
    | _ => (pc + 1, ints)

def passed (f : RegisterFile) (code : List Instruction) : Nat → Nat → (Nat → Int) → List Nat
  | 0, _, _ => []
  | fuel + 1, pc, ints =>
    match stepInts f code pc ints with
    | some (next, ints) => pc :: passed f code fuel next ints
    | none => []

/-- A number is read before a counting loop that writes it. -/
def writeInRange : BuildM Unit := do
  let kept ← newInteger
  storeMemory kept 0
  discard <| beginRange 3
  loadInt kept 5
  endRange

/-- The read gives the number a new slot, also in the loop that was walked before. It is the
slot of the counter, so the loop body, which is at position 2, runs once and not three times. -/
theorem range_runs_once :
    let p := ((scheduleTape 0).run (builtBy writeInRange)).2
    let q := ((allocateTape 0).run p).2
    (finish.run (builtBy writeInRange)).1.toBool = true ∧ ((allocateTape 0).run p).1.toBool = true ∧
      (q.tapeAt 0).code[2]? = some ⟨.ldint, .base, 1, [.reg ⟨0, 0⟩, .number 5]⟩ ∧
      passed (q.tapeAt 0).regs (q.tapeAt 0).code 30 0 (fun _ => 0) = [0, 1, 2, 3, 4, 5, 6, 7] := by
  decide +kernel

end BuildM

end SecureTape
