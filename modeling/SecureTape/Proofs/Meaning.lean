import Mathlib
import SecureTape.Proofs.Accesses
import SecureTape.Proofs.Emission
import SecureTape.Proofs.Registers

/-!
# Merging preserves meaning

An interpretation executes instructions on register elements, the memory of each class and an
output trace. It is free but for locality: an instruction sees what it reads and changes what it
writes. Main statement: `mergeOps_preserves_run`, under every interpretation the merged
instructions end in the state in which the instructions in program order end.

1. `exec_comm`: instructions whose footprints do not conflict commute.
2. `foldl_eq_of_perm`: an order that keeps all conflicting pairs ends in the same state.
3. `actions_absorb`: an instruction that absorbs another executes its own groups, and then those
   of the other one, so a unit executes the groups of its members in their order.
-/

namespace SecureTape

open List Op

namespace Instruction

/-- Nothing moves across the instruction, and nothing is said about what it changes. -/
def isFence (i : Instruction) : Bool := i.has .barrier || i.has .jump

/-- The instruction with a single group of its operands. -/
def withGroup (i : Instruction) (group : List Operand) : Instruction :=
  { i with operands := i.head ++ group }

/-- What an instruction executes one after the other: its groups, if it communicates. -/
def actions (i : Instruction) : List Instruction :=
  if i.communicates then i.groups.map i.withGroup else [i]

end Instruction

/-! ## Interpretations -/

/-- An element of a register: where its base register is kept, and its position there. -/
abbrev Element := Nat × Nat

/-- What instructions can change. -/
@[ext]
structure MachineState (Value Memory Output : Type*) where
  register : Element → Value
  memory : RegisterClass → Memory
  trace : List Output

/-- Where the elements of base registers are kept. Only linked registers may share a place. -/
structure Storage (regs : RegisterFile) where
  home : Nat → Nat
  keyOf_eq : ∀ a b, home a = home b → regs.keyOf a = regs.keyOf b

namespace Storage

variable {regs : RegisterFile}

def elements (store : Storage regs) (rs : List Reg) : List Element :=
  rs.flatMap fun r =>
    (List.range (regs.sizeOf r)).map fun k => (store.home (regs.baseOf r), (regs.resolve r).2 + k)

/-- Two states look the same to an instruction: they agree on the elements that it reads or writes,
and on the memory that it loads from or stores to. -/
def Alike {Value Memory Output : Type*} (store : Storage regs) (i : Instruction)
    (s t : MachineState Value Memory Output) : Prop :=
  (∀ e ∈ store.elements (i.reads ++ i.writes), s.register e = t.register e) ∧
    ∀ c, i.opcode.memoryClass? = some c → s.memory c = t.memory c

theorem map_register_eq {Value Memory Output : Type*} (store : Storage regs) {i : Instruction}
    {s t : MachineState Value Memory Output} (h : store.Alike i s t) :
    (store.elements i.reads).map s.register = (store.elements i.reads).map t.register := by
  refine map_congr_left fun e he => h.1 e ?_
  simp only [elements, flatMap_append, mem_append]
  exact .inl he

theorem map_memory_eq {Value Memory Output : Type*} (store : Storage regs) {i : Instruction}
    {s t : MachineState Value Memory Output} (h : store.Alike i s t) :
    i.opcode.memoryClass?.map s.memory = i.opcode.memoryClass?.map t.memory := by
  cases hc : i.opcode.memoryClass? with
  | none => rfl
  | some c => rw [Option.map_some, Option.map_some, h.2 c hc]

theorem exists_slotKey_eq (store : Storage regs) {rs qs : List Reg} {e : Element}
    (hr : e ∈ store.elements rs) (hq : e ∈ store.elements qs) :
    ∃ r ∈ rs, ∃ q ∈ qs, regs.slotKey r = regs.slotKey q := by
  obtain ⟨r, hrs, he⟩ := mem_flatMap.1 hr
  obtain ⟨q, hqs, he'⟩ := mem_flatMap.1 hq
  obtain ⟨k, -, rfl⟩ := mem_map.1 he
  obtain ⟨l, -, heq⟩ := mem_map.1 he'
  exact ⟨r, hrs, q, hqs, store.keyOf_eq _ _ (congrArg Prod.fst heq).symm⟩

end Storage

/-- How instructions are executed. `exec i n` executes `i` when `n` equal instructions were
executed before it, so that every execution can have its own inputs and preprocessed values. What
is not a fence sees and changes only what it reads and writes, and adds to the trace only as input
or output. -/
structure Interpretation (regs : RegisterFile) (Value Memory Output : Type*) extends
    Storage regs where
  exec : Instruction → Nat → MachineState Value Memory Output → MachineState Value Memory Output
  register_frame : ∀ i n s e, i.isFence = false → e ∉ toStorage.elements i.writes →
    (exec i n s).register e = s.register e
  register_local : ∀ i n s t e, i.isFence = false → toStorage.Alike i s t →
    e ∈ toStorage.elements i.writes → (exec i n s).register e = (exec i n t).register e
  memory_frame : ∀ i n s c, i.isFence = false →
    ¬(i.has .memWrite = true ∧ i.opcode.memoryClass? = some c) →
    (exec i n s).memory c = s.memory c
  memory_local : ∀ i n s t c, i.isFence = false → toStorage.Alike i s t →
    i.opcode.memoryClass? = some c → (exec i n s).memory c = (exec i n t).memory c
  trace_local : ∀ i n s t, i.isFence = false → toStorage.Alike i s t →
    ∃ out, (exec i n s).trace = s.trace ++ out ∧ (exec i n t).trace = t.trace ++ out ∧
      (i.has .io = false → out = [])

namespace Interpretation

variable {regs : RegisterFile} {Value Memory Output : Type*}

def step (I : Interpretation regs Value Memory Output)
    (p : MachineState Value Memory Output × (Instruction → Nat)) (i : Instruction) :
    MachineState Value Memory Output × (Instruction → Nat) :=
  (I.exec i (p.2 i) p.1, fun j => if j = i then p.2 i + 1 else p.2 j)

/-- Execute a list of instructions, those that communicate group by group. -/
def run (I : Interpretation regs Value Memory Output) (is : List Instruction)
    (s : MachineState Value Memory Output) : MachineState Value Memory Output :=
  ((is.flatMap Instruction.actions).foldl I.step (s, fun _ => 0)).1

end Interpretation

/-- Every base register in a place of its own. -/
def Storage.separate (regs : RegisterFile) : Storage regs where
  home := id
  keyOf_eq a b h := by rw [show a = b from h]

/-- The interpretation that computes what an instruction writes, stores and prints from the values
that it reads and the memory of its class. -/
def Interpretation.ofFunctions {regs : RegisterFile} {Value Memory Output : Type*}
    (store : Storage regs)
    (value : Instruction → Nat → List Value → Option Memory → Element → Value)
    (save : Instruction → Nat → List Value → Option Memory → Memory)
    (print : Instruction → Nat → List Value → Option Memory → Output) :
    Interpretation regs Value Memory Output where
  toStorage := store
  exec i n s :=
    let seen := (store.elements i.reads).map s.register
    let loaded := i.opcode.memoryClass?.map s.memory
    { register := fun e =>
        if e ∈ store.elements i.writes then value i n seen loaded e else s.register e
      memory := fun c =>
        if i.has .memWrite = true ∧ i.opcode.memoryClass? = some c then save i n seen loaded
        else s.memory c
      trace := if i.has .io then s.trace ++ [print i n seen loaded] else s.trace }
  register_frame i n s e _ he := if_neg he
  register_local i n s t e _ h he := by
    simp only [if_pos he, store.map_register_eq h, store.map_memory_eq h]
  memory_frame i n s c _ hc := if_neg hc
  memory_local i n s t c _ h hc := by
    simp only [store.map_register_eq h, store.map_memory_eq h, h.2 c hc]
  trace_local i n s t _ h := by
    cases hio : i.has .io with
    | true =>
      refine ⟨[print i n ((store.elements i.reads).map s.register)
        (i.opcode.memoryClass?.map s.memory)], rfl, ?_, by simp⟩
      simp only [store.map_register_eq h, store.map_memory_eq h, if_true]
    | false => exact ⟨[], by simp, by simp, fun _ => rfl⟩

/-! ## Instructions that do not conflict -/

/-- The instruction `b` changes nothing that `a` reads, writes or loads, and does not compete with
it for the trace. -/
structure Undisturbed (regs : RegisterFile) (a b : Instruction) : Prop where
  fence : a.isFence = false
  slots : ∀ q ∈ a.reads ++ a.writes, ∀ r ∈ b.writes, regs.slotKey q ≠ regs.slotKey r
  memory : ∀ c, a.opcode.memoryClass? = some c →
    ¬(b.has .memWrite = true ∧ b.opcode.memoryClass? = some c)
  io : a.has .io = true → b.has .io = false

namespace Op

variable {regs : RegisterFile}

theorem control_mem_reads (op : Op) : .control ∈ (op.footprint regs).reads := by
  simp [footprint]

theorem memory_mem_writes {i : Instruction} {c : RegisterClass} (hw : i.has .memWrite)
    (hc : i.opcode.memoryClass? = some c) : .memory c ∈ ((inst i).footprint regs).writes := by
  simp [footprint, stores, hw, hc]

theorem memory_mem {i : Instruction} {c : RegisterClass} (hc : i.opcode.memoryClass? = some c) :
    .memory c ∈ ((inst i).footprint regs).reads ∨
      .memory c ∈ ((inst i).footprint regs).writes := by
  cases hw : i.has .memWrite with
  | true => exact .inr (memory_mem_writes hw hc)
  | false => exact .inl (by simp [footprint, loads, hw, hc])

theorem channel_mem_writes {i : Instruction} (h : i.has .io) :
    .channel ∈ ((inst i).footprint regs).writes := by
  simp [footprint, isIo, h]

theorem control_mem_writes {i : Instruction} (h : i.isFence) :
    .control ∈ ((inst i).footprint regs).writes := by
  have hb : (inst i).isBarrier = true := h
  simp [footprint, hb]

end Op

theorem undisturbed_of_not_conflicts {regs : RegisterFile} {a b : Instruction}
    (h : ((inst a).footprint regs).conflicts ((inst b).footprint regs) = false) :
    Undisturbed regs a b := by
  have hfree {c : Cell} : ¬ Footprint.MeetsAt c ((inst a).footprint regs)
      ((inst b).footprint regs).reads ((inst b).footprint regs).writes := by
    intro hc
    rw [Footprint.conflicts_iff.2 ⟨c, hc⟩] at h
    cases h
  -- a cell that `b` writes is not touched by `a`
  have hwritten {c : Cell} (hb : c ∈ ((inst b).footprint regs).writes)
      (ha : c ∈ ((inst a).footprint regs).reads ∨ c ∈ ((inst a).footprint regs).writes) :
      False :=
    hfree (Footprint.meetsAt_of_writes hb ha).symm
  constructor
  · by_contra hf
    exact hfree (.inl ⟨control_mem_writes (by simpa using hf), .inl (control_mem_reads _)⟩)
  · intro q hq r hr heq
    refine hwritten (slot_mem_writes hr) ?_
    rw [← heq]
    rcases mem_append.1 hq with hq | hq
    · exact .inl (slot_mem_reads hq)
    · exact .inr (slot_mem_writes hq)
  · rintro c hc ⟨hw, hcb⟩
    exact hwritten (memory_mem_writes hw hcb) (memory_mem hc)
  · intro ha
    by_contra hb
    exact hwritten (channel_mem_writes (by simpa using hb)) (.inr (channel_mem_writes ha))

namespace Interpretation

variable {regs : RegisterFile} {Value Memory Output : Type*}
  (I : Interpretation regs Value Memory Output) {a b : Instruction}

theorem not_mem_elements_of_undisturbed (h : Undisturbed regs a b) {e : Element}
    (he : e ∈ I.elements (a.reads ++ a.writes)) : e ∉ I.elements b.writes := by
  intro hb
  obtain ⟨q, hq, r, hr, heq⟩ := I.exists_slotKey_eq he hb
  exact h.slots q hq r hr heq

theorem mem_elements_append_right {rs qs : List Reg} {e : Element} (h : e ∈ I.elements qs) :
    e ∈ I.elements (rs ++ qs) := by
  simp only [Storage.elements, flatMap_append, mem_append]
  exact .inr h

theorem alike_exec (hab : Undisturbed regs a b) (hb : b.isFence = false) (n : Nat)
    (s : MachineState Value Memory Output) : I.Alike a (I.exec b n s) s := by
  constructor
  · intro e he
    exact I.register_frame b n s e hb (I.not_mem_elements_of_undisturbed hab he)
  · intro c hc
    exact I.memory_frame b n s c hb (hab.memory c hc)

theorem register_exec_comm (hab : Undisturbed regs a b) (hb : b.isFence = false) (m n : Nat)
    (s : MachineState Value Memory Output) {e : Element} (he : e ∈ I.elements a.writes) :
    (I.exec a m (I.exec b n s)).register e = (I.exec b n (I.exec a m s)).register e := by
  have hnot := I.not_mem_elements_of_undisturbed hab (I.mem_elements_append_right he)
  rw [I.register_frame b n _ e hb hnot]
  exact I.register_local a m _ _ e hab.fence (I.alike_exec hab hb n s) he

theorem memory_exec_comm (hab : Undisturbed regs a b) (hb : b.isFence = false) (m n : Nat)
    (s : MachineState Value Memory Output) {c : RegisterClass} (hc : a.opcode.memoryClass? = some c) :
    (I.exec a m (I.exec b n s)).memory c = (I.exec b n (I.exec a m s)).memory c := by
  rw [I.memory_frame b n _ c hb (hab.memory c hc)]
  exact I.memory_local a m _ _ c hab.fence (I.alike_exec hab hb n s) hc

theorem trace_exec_comm (hab : Undisturbed regs a b) (hb : b.isFence = false) (m n : Nat)
    (s : MachineState Value Memory Output) (hio : b.has .io = false) :
    (I.exec a m (I.exec b n s)).trace = (I.exec b n (I.exec a m s)).trace := by
  obtain ⟨out, hleft, hright, -⟩ := I.trace_local a m _ _ hab.fence (I.alike_exec hab hb n s)
  have hsilent (t : MachineState Value Memory Output) : (I.exec b n t).trace = t.trace := by
    obtain ⟨out', ht, -, hnil⟩ := I.trace_local b n t t hb ⟨fun _ _ => rfl, fun _ _ => rfl⟩
    rw [ht, hnil hio, append_nil]
  rw [hleft, hsilent, hsilent, hright]

theorem exec_comm (hab : Undisturbed regs a b) (hba : Undisturbed regs b a) (m n : Nat)
    (s : MachineState Value Memory Output) :
    I.exec a m (I.exec b n s) = I.exec b n (I.exec a m s) := by
  ext x
  · by_cases ha : x ∈ I.elements a.writes
    · rw [I.register_exec_comm hab hba.fence m n s ha]
    · by_cases hb : x ∈ I.elements b.writes
      · rw [I.register_exec_comm hba hab.fence n m s hb]
      · rw [I.register_frame a m _ x hab.fence ha, I.register_frame b n _ x hba.fence hb,
          I.register_frame b n _ x hba.fence hb, I.register_frame a m _ x hab.fence ha]
  · by_cases ha : a.opcode.memoryClass? = some x
    · rw [I.memory_exec_comm hab hba.fence m n s ha]
    · by_cases hb : b.opcode.memoryClass? = some x
      · rw [I.memory_exec_comm hba hab.fence n m s hb]
      · have ha' := fun h : a.has .memWrite = true ∧ _ => ha h.2
        have hb' := fun h : b.has .memWrite = true ∧ _ => hb h.2
        rw [I.memory_frame a m _ x hab.fence ha', I.memory_frame b n _ x hba.fence hb',
          I.memory_frame b n _ x hba.fence hb', I.memory_frame a m _ x hab.fence ha']
  · cases hb : b.has .io with
    | false => rw [I.trace_exec_comm hab hba.fence m n s hb]
    | true => rw [I.trace_exec_comm hba hab.fence n m s (hba.io hb)]

/-- Steps that do not conflict commute. Equal instructions need no argument, and others do not
share a counter. -/
theorem step_comm (h : ((inst a).footprint regs).conflicts ((inst b).footprint regs) = false)
    (p : MachineState Value Memory Output × (Instruction → Nat)) :
    I.step (I.step p a) b = I.step (I.step p b) a := by
  by_cases hne : a = b
  · rw [hne]
  · have hab := undisturbed_of_not_conflicts h
    have hba : Undisturbed regs b a := by
      refine undisturbed_of_not_conflicts ?_
      by_contra hconflict
      rw [Footprint.conflicts_symm (by simpa using hconflict)] at h
      cases h
    simp only [step, if_neg hne, if_neg (Ne.symm hne)]
    refine Prod.ext (I.exec_comm hba hab _ _ _) ?_
    funext j
    by_cases hja : j = a
    · subst hja
      simp [hne]
    · simp [hja]

end Interpretation

/-! ## Orders that keep conflicts -/

theorem foldl_comm {σ α : Type*} {f : σ → α → σ} {as bs : List α}
    (h : ∀ a ∈ as, ∀ b ∈ bs, ∀ p, f (f p a) b = f (f p b) a) (p : σ) :
    bs.foldl f (as.foldl f p) = as.foldl f (bs.foldl f p) := by
  induction as generalizing p with
  | nil => rfl
  | cons a as ih =>
    have hmove : bs.foldl f (f p a) = f (bs.foldl f p) a := by
      clear ih
      induction bs generalizing p with
      | nil => rfl
      | cons b bs ihb =>
        rw [foldl_cons, foldl_cons, h a (by simp) b (by simp)]
        exact ihb (fun a' ha b' hb => h a' ha b' (by simp [hb])) _
    rw [foldl_cons, foldl_cons, ih fun a' ha => h a' (by simp [ha]), hmove]

/-- An order that keeps every pair that does not commute ends as the increasing order does. -/
theorem foldl_eq_of_perm {σ : Type*} {f : σ → Nat → σ} {R : Nat → Nat → Prop}
    (hcomm : ∀ i j p, ¬ R i j → f (f p i) j = f (f p j) i) {l' l : List Nat} (hperm : l'.Perm l)
    (hsorted : l.Pairwise (· < ·)) (hkeep : l'.Pairwise fun i j => R i j → i < j) (p : σ) :
    l'.foldl f p = l.foldl f p := by
  induction l' generalizing l p with
  | nil => rw [hperm.nil_eq]
  | cons i rest ih =>
    obtain ⟨hfirst, hrest⟩ := pairwise_cons.1 hkeep
    obtain ⟨pre, post, rfl⟩ := append_of_mem (hperm.mem_iff.1 (.head _))
    have hperm' : rest.Perm (pre ++ post) :=
      List.Perm.cons_inv (hperm.trans perm_middle)
    obtain ⟨hpre, hpost, hcross⟩ := pairwise_append.1 hsorted
    have hsorted' : (pre ++ post).Pairwise (· < ·) := by
      refine pairwise_append.2 ⟨hpre, (pairwise_cons.1 hpost).2, ?_⟩
      exact fun a ha b hb => hcross a ha b (by simp [hb])
    -- what is smaller than `i` comes after it in the first order, so it commutes with `i`
    have hfront : (pre ++ i :: post).foldl f p = (pre ++ post).foldl f (f p i) := by
      have hmove := @foldl_comm _ _ f [i] pre (fun a ha k hk q => by
        rw [mem_singleton.1 ha]
        refine hcomm i k q fun hik => ?_
        have := hfirst k (hperm'.mem_iff.2 (by simp [hk])) hik
        have := hcross k hk i (by simp)
        omega) p
      rw [foldl_append, foldl_append, foldl_cons]
      exact congrArg (post.foldl f) hmove.symm
    rw [foldl_cons, hfront]
    exact ih hperm' hsorted' hrest _

/-! ## Groups -/

namespace Instruction

theorem chunks_append {α : Type} {n : Nat} {xs : List α} (hn : 0 < n) (hxs : xs.length = n)
    (ys : List α) : chunks n (xs ++ ys) = xs :: chunks n ys := by
  obtain ⟨x, xs, rfl⟩ := exists_cons_of_length_pos (hxs ▸ hn)
  have hlen : xs.length = n - 1 := by
    rw [length_cons] at hxs
    omega
  rw [cons_append, chunks, take_left' hlen, drop_left' hlen]

theorem chunks_append_of_length {α : Type} {n m : Nat} (hn : 0 < n) {xs : List α}
    (hxs : xs.length = m * n) (ys : List α) : chunks n (xs ++ ys) = chunks n xs ++ chunks n ys := by
  induction m generalizing xs with
  | zero =>
    obtain rfl : xs = [] := eq_nil_of_length_eq_zero (by simpa using hxs)
    simp [chunks]
  | succ m ih =>
    rw [Nat.succ_mul] at hxs
    have htake : (xs.take n).length = n := by rw [length_take]; omega
    have hdrop : (xs.drop n).length = m * n := by rw [length_drop]; omega
    calc chunks n (xs ++ ys)
        = chunks n (xs.take n ++ (xs.drop n ++ ys)) := by
          rw [← append_assoc, take_append_drop]
      _ = xs.take n :: (chunks n (xs.drop n) ++ chunks n ys) := by
          rw [chunks_append hn htake, ih hdrop]
      _ = chunks n (xs.take n ++ xs.drop n) ++ chunks n ys := by
          rw [chunks_append hn htake, cons_append]
      _ = chunks n xs ++ chunks n ys := by rw [take_append_drop]

theorem mem_zip_of_mem_chunks {α β : Type} {group : List β} (hg : 0 < group.length) {m : Nat}
    {xs : List α} (hxs : xs.length = m * group.length) {piece : List α}
    (hp : piece ∈ chunks group.length xs) :
    piece.length = group.length ∧
      ∀ x ∈ group.zip piece, x ∈ ((List.replicate m group).flatten).zip xs := by
  induction m generalizing xs with
  | zero =>
    obtain rfl : xs = [] := eq_nil_of_length_eq_zero (by simpa using hxs)
    simp [chunks] at hp
  | succ m ih =>
    rw [Nat.succ_mul] at hxs
    have htake : (xs.take group.length).length = group.length := by rw [length_take]; omega
    have hdrop : (xs.drop group.length).length = m * group.length := by
      rw [length_drop]; omega
    have hzip : ((List.replicate (m + 1) group).flatten).zip xs =
        group.zip (xs.take group.length) ++
          ((List.replicate m group).flatten).zip (xs.drop group.length) := by
      conv_lhs => rw [← take_append_drop group.length xs]
      rw [replicate_succ, flatten_cons, zip_append htake.symm]
    rw [← take_append_drop group.length xs, chunks_append hg htake] at hp
    rw [hzip]
    rcases mem_cons.1 hp with rfl | hp
    · exact ⟨htake, fun x hx => mem_append_left _ hx⟩
    · obtain ⟨hlen, hmem⟩ := ih hdrop hp
      exact ⟨hlen, fun x hx => mem_append_right _ (hmem x hx)⟩

theorem WellFormed.head_absorb {i : Instruction} (hi : i.WellFormed)
    {head group : List OperandFormat} (hl : i.opcode.layout = .grouped head group) (j : Instruction) :
    (i.absorb j).head = i.head := by
  obtain ⟨n, hn, -⟩ := formats_grouped hl hi.count
  rw [Instruction.head, Instruction.head, absorb_opcode, hl, OperandLayout.headLength]
  exact take_append_of_le_length (by omega)

theorem groups_absorb {i j : Instruction} (hi : i.WellFormed) (hc : i.communicates)
    (hk : i.mergeKey = j.mergeKey) : (i.absorb j).groups = i.groups ++ j.groups := by
  obtain ⟨-, head, group, hl, hg, -⟩ := layout_of_communicates hc
  have hlj : j.opcode.layout = .grouped head group := by
    rw [← hl]
    exact congrArg Opcode.layout (congrArg MergeKey.opcode hk).symm
  obtain ⟨n, hn, -⟩ := hi.hasLayout.length_drop_head hl
  have hle : head.length ≤ i.operands.length := by
    obtain ⟨m, hm, -⟩ := formats_grouped hl hi.count
    omega
  simp only [groups, hl, hlj, absorb, OperandLayout.headLength]
  rw [drop_append_of_le_length hle, chunks_append_of_length hg hn]

theorem actions_absorb {i j : Instruction} (hi : i.WellFormed) (hc : i.communicates)
    (hk : i.mergeKey = j.mergeKey) (hh : i.head = j.head) :
    (i.absorb j).actions = i.actions ++ j.actions := by
  obtain ⟨-, head, group, hl, -⟩ := layout_of_communicates hc
  obtain ⟨hop, hdom, hsize⟩ := MergeKey.mk.inj hk.symm
  have hcj : j.communicates = true := by
    rw [communicates, has, hop]
    exact hc
  have hca : (i.absorb j).communicates = true := hc
  have hhead : (i.absorb j).head = i.head := hi.head_absorb hl j
  have hwith : (i.absorb j).withGroup = i.withGroup := by
    funext g
    simp only [withGroup, hhead]
    rfl
  have hwith' : j.withGroup = i.withGroup := by
    funext g
    simp only [withGroup, ← hh, hop, hdom, hsize]
  simp only [actions, hca, hc, hcj, if_true, groups_absorb hi hc hk, hwith, hwith', map_append]

/-! ## The footprint of a group -/

theorem mem_accesses_of_withGroup {i : Instruction} (hi : i.WellFormed) (hc : i.communicates)
    {group : List Operand} (hg : group ∈ i.groups) {r : Reg} {a : Access}
    (h : (r, a) ∈ (i.withGroup group).accesses) : (r, a) ∈ i.accesses := by
  obtain ⟨hcall, head, piece, hl, hpos, -⟩ := layout_of_communicates hc
  obtain ⟨n, hn, hf⟩ := hi.hasLayout.length_drop_head hl
  have hheadlen := hi.hasLayout.length_head hl
  have hsplit : i.operands = i.head ++ i.operands.drop head.length := by
    rw [Instruction.head, hl, OperandLayout.headLength, take_append_drop]
  have hgroup : group ∈ chunks (piece.map (·.inDomain i.domain)).length
      (i.operands.drop head.length) := by
    simpa [groups, hl] using hg
  have hn' : (i.operands.drop head.length).length =
      n * (piece.map (·.inDomain i.domain)).length := by simpa using hn
  obtain ⟨hlen, hzip⟩ := mem_zip_of_mem_chunks (by simpa using hpos) hn' hgroup
  have hformats : (i.withGroup group).formats =
      head.map (·.inDomain i.domain) ++ piece.map (·.inDomain i.domain) := by
    have hcount : (i.withGroup group).operands.length = head.length + 1 * piece.length := by
      simp only [withGroup, length_append, hheadlen, hlen, length_map]
      omega
    simp only [formats, hcount]
    simp only [withGroup, hl]
    rw [OperandLayout.formats?_grouped (length_pos_iff.1 hpos)]
    simp
  rw [mem_accesses_iff] at h ⊢
  obtain ⟨position, f, hget, ha⟩ := h
  have hmem := mem_of_getElem? hget
  have hboth : (f, Operand.reg r) ∈ i.formats.zip i.operands := by
    rw [hformats] at hmem
    rw [hf, hsplit, zip_append (by simp [hheadlen])]
    simp only [withGroup] at hmem
    rw [zip_append (by simp [hheadlen])] at hmem
    rcases mem_append.1 hmem with hmem | hmem
    · exact mem_append_left _ hmem
    · exact mem_append_right _ (hzip _ hmem)
  obtain ⟨position', hget'⟩ := mem_iff_getElem?.mp hboth
  refine ⟨position', f, hget', ?_⟩
  rw [accessAt_eq_access? hcall]
  rwa [accessAt_eq_access? (show (i.withGroup group).opcode ≠ .callTape from hcall)] at ha

theorem mem_of_mem_actions {i a : Instruction} (hi : i.WellFormed) (ha : a ∈ i.actions) {r : Reg} :
    (r ∈ a.reads → r ∈ i.reads) ∧ (r ∈ a.writes → r ∈ i.writes) := by
  unfold actions at ha
  split at ha
  · rename_i hc
    obtain ⟨group, hg, rfl⟩ := mem_map.1 ha
    have hsub {pick : Access → Bool}
        (h : r ∈ ((i.withGroup group).accesses.filter (pick ·.2)).map (·.1)) :
        r ∈ (i.accesses.filter (pick ·.2)).map (·.1) := by
      obtain ⟨⟨q, b⟩, hq, rfl⟩ := mem_map.1 h
      obtain ⟨hq, hb⟩ := mem_filter.1 hq
      exact mem_map_of_mem (mem_filter.2 ⟨mem_accesses_of_withGroup hi hc hg hq, hb⟩)
    exact ⟨hsub, hsub⟩
  · rw [mem_singleton.1 ha]
    exact ⟨id, id⟩

theorem opcode_of_mem_actions {i a : Instruction} (ha : a ∈ i.actions) : a.opcode = i.opcode := by
  unfold actions at ha
  split at ha
  · obtain ⟨group, -, rfl⟩ := mem_map.1 ha
    rfl
  · rw [mem_singleton.1 ha]

theorem footprint_of_mem_actions {regs : RegisterFile} {i a : Instruction} (hi : i.WellFormed)
    (ha : a ∈ i.actions) :
    ((inst a).footprint regs).reads ⊆ ((inst i).footprint regs).reads ∧
      ((inst a).footprint regs).writes ⊆ ((inst i).footprint regs).writes := by
  have hop := opcode_of_mem_actions ha
  have hhas (f : OpFlag) : a.has f = i.has f := by rw [has, has, hop]
  have hloads : (inst a).loads = (inst i).loads := by simp only [loads, hhas, hop]
  have hstores : (inst a).stores = (inst i).stores := by simp only [stores, hhas, hop]
  have hio : (inst a).isIo = (inst i).isIo := hhas _
  have hbarrier : (inst a).isBarrier = (inst i).isBarrier := by
    simp only [isBarrier, hhas]
  have hweight : (inst a).weight = (inst i).weight := by
    simp only [weight, show a.communicates = i.communicates from hhas _]
  have hreads : (inst a).reads.map (fun r => Cell.slot (regs.slotKey r)) ⊆
      (inst i).reads.map (fun r => Cell.slot (regs.slotKey r)) :=
    map_subset _ fun r hr => (mem_of_mem_actions hi ha).1 hr
  have hwrites : (inst a).writes.map (fun r => Cell.slot (regs.slotKey r)) ⊆
      (inst i).writes.map (fun r => Cell.slot (regs.slotKey r)) :=
    map_subset _ fun r hr => (mem_of_mem_actions hi ha).2 hr
  simp only [footprint, hloads, hstores, hio, hbarrier, hweight]
  constructor
  · intro c hc
    simp only [mem_cons, mem_append] at hc ⊢
    rcases hc with hc | (hc | hc) | hc
    · exact .inl hc
    · exact .inr (.inl (.inl (hreads hc)))
    · exact .inr (.inl (.inr hc))
    · exact .inr (.inr hc)
  · intro c hc
    simp only [mem_append] at hc ⊢
    rcases hc with ((hc | hc) | hc) | hc
    · exact .inl (.inl (.inl (hwrites hc)))
    · exact .inl (.inl (.inr hc))
    · exact .inl (.inr hc)
    · exact .inr hc

/-- What instructions with the property `P` give is additive: to absorb an instruction of the list
is to give what it gives, too. -/
structure Additive {α : Type} (f : Instruction → List α) (P : Instruction → Prop)
    (is : List Instruction) : Prop where
  start : ∀ i ∈ is, P i
  absorb : ∀ {i j}, P i → j ∈ is → i.communicates = true → i.mergeKey = j.mergeKey →
    P (i.absorb j) ∧ f (i.absorb j) = f i ++ f j

theorem additive_actions {is : List Instruction} (hwf : ∀ i ∈ is, i.WellFormed)
    (hheads : ∀ i ∈ is, ∀ j ∈ is, i.communicates = true → i.mergeKey = j.mergeKey → i.head = j.head) :
    Additive actions (fun i => i.WellFormed ∧
      ∀ j ∈ is, i.communicates = true → i.mergeKey = j.mergeKey → i.head = j.head) is where
  start i hi := ⟨hwf i hi, hheads i hi⟩
  absorb {i j} hi hj hc hk := by
    obtain ⟨-, head, group, hl, -⟩ := layout_of_communicates hc
    refine ⟨⟨hi.1.absorb (hwf j hj) hk, ?_⟩, actions_absorb hi.1 hc hk (hi.2 j hj hc hk)⟩
    intro k hkmem _ hkey
    rw [hi.1.head_absorb hl]
    exact hi.2 k hkmem hc hkey

theorem Additive.foldl_absorb {α : Type} {f : Instruction → List α} {P : Instruction → Prop}
    {is js : List Instruction} (h : Additive f P is) {i : Instruction} (hi : P i)
    (hc : i.communicates) (hjs : ∀ j ∈ js, j ∈ is ∧ i.mergeKey = j.mergeKey) :
    ∃ m, (js.map Op.inst).foldl Op.absorb (.inst i) = .inst m ∧ f m = f i ++ js.flatMap f := by
  induction js generalizing i with
  | nil => exact ⟨i, rfl, by simp⟩
  | cons j js ih =>
    obtain ⟨hj, hk⟩ := hjs j (.head _)
    obtain ⟨habsorb, hf⟩ := h.absorb hi hj hc hk
    obtain ⟨m, hm, hgives⟩ := ih habsorb hc fun k hkmem => hjs k (.tail _ hkmem)
    refine ⟨m, hm, ?_⟩
    rw [hgives, hf, flatMap_cons, append_assoc]

def actionsAt (is : List Instruction) (ks : List Nat) : List Instruction :=
  (ks.filterMap (is[·]?)).flatMap actions

theorem actionsAt_append (is : List Instruction) (ks ls : List Nat) :
    actionsAt is (ks ++ ls) = actionsAt is ks ++ actionsAt is ls := by
  simp [actionsAt]

theorem filterMap_range {α : Type} (as : List α) : (List.range as.length).filterMap (as[·]?) = as := by
  induction as using List.reverseRecOn with
  | nil => rfl
  | append_singleton as a ih =>
    rw [length_append, length_singleton, range_succ, filterMap_append]
    conv_rhs => rw [← ih]
    congr 1
    · refine filterMap_congr fun k hk => ?_
      rw [getElem?_append_left (mem_range.1 hk)]
    · simp

theorem actionsAt_range (is : List Instruction) :
    actionsAt is (List.range is.length) = is.flatMap actions := by
  rw [actionsAt, filterMap_range]

end Instruction

/-! ## Merging -/

section Merge

open Instruction

variable {regs : RegisterFile} {is : List Instruction} {α : Type} {f : Instruction → List α}
  {P : Instruction → Prop} (hadd : Additive f P is)

include hadd

theorem merged?_eq_inst {us : List MergeUnit} (h : Emission regs (is.map Op.inst) us)
    {u : MergeUnit} (hu : u ∈ us) :
    ∃ m, u.merged? (is.map Op.inst).toArray = some (.inst m) ∧
      f m = (u.members.filterMap (is[·]?)).flatMap f := by
  have hfound : u.members.filterMap ((is.map Op.inst).toArray[·]?) =
      (u.members.filterMap (is[·]?)).map Op.inst := by
    rw [map_filterMap]
    refine filterMap_congr fun k _ => ?_
    simp
  have hlt {k : Nat} (hk : k ∈ u.members) : k < is.length := by
    have := h.perm.mem_iff.1 (mem_flatMap.2 ⟨u, hu, hk⟩)
    simpa using this
  obtain ⟨k, ks, hmembers⟩ := exists_cons_of_ne_nil (h.nonempty u hu)
  obtain ⟨i, hi⟩ : ∃ i, is[k]? = some i :=
    ⟨_, getElem?_eq_getElem (hlt (by simp [hmembers]))⟩
  have himem := mem_of_getElem? hi
  have hcons : u.members.filterMap (is[·]?) = i :: ks.filterMap (is[·]?) := by
    rw [hmembers, filterMap_cons, hi]
  rw [MergeUnit.merged?, hfound, hcons]
  rcases h.alike u hu with ⟨l, hl⟩ | ⟨b, hb⟩
  · -- a single member stands for itself
    obtain rfl : ks = [] := by
      rw [hmembers] at hl
      exact (List.cons.inj hl).2
    exact ⟨i, rfl, by simp⟩
  · have hbatch {l : Nat} {j : Instruction} (hl : l ∈ u.members) (hj : is[l]? = some j) :
        j.communicates = true ∧ b = .inst j.mergeKey := by
      have hbl := hb l hl
      simp only [getElem?_map, hj, Option.map_some, Option.bind_some, Op.batch?] at hbl
      split at hbl
      · rename_i hc
        exact ⟨hc, (Option.some.inj hbl).symm⟩
      · cases hbl
    obtain ⟨hc, hkey⟩ := hbatch (by simp [hmembers]) hi
    have hjs : ∀ j ∈ ks.filterMap (is[·]?), j ∈ is ∧ i.mergeKey = j.mergeKey := by
      intro j hj
      obtain ⟨l, hl, hj⟩ := mem_filterMap.1 hj
      obtain ⟨-, hkey'⟩ := hbatch (by simp [hmembers, hl]) hj
      exact ⟨mem_of_getElem? hj, Batch.inst.inj (hkey.symm.trans hkey')⟩
    obtain ⟨m, hm, hgives⟩ := hadd.foldl_absorb (hadd.start i himem) hc hjs
    exact ⟨m, congrArg some hm, hgives⟩

theorem exists_merged_units (regs : RegisterFile) :
    ∃ out : List Instruction, (mergeOps regs true (is.map inst)).1 = out.map inst ∧
      Forall₂ (fun u m => f m = (u.members.filterMap (is[·]?)).flatMap f)
        (emitted regs (is.map inst)) out := by
  have hunit {u : MergeUnit} (hu : u ∈ emitted regs (is.map inst)) :=
    merged?_eq_inst hadd (emission_emitted regs _) hu
  show ∃ out, (mergeRounds regs (is.map inst)).1 = _ ∧ _
  rw [mergeRounds_eq_emitted]
  generalize emitted regs (is.map inst) = us at hunit
  induction us with
  | nil => exact ⟨[], rfl, .nil⟩
  | cons u us ih =>
    obtain ⟨m, hm, hgives⟩ := hunit (.head _)
    obtain ⟨out, hout, hrest⟩ := ih fun hv => hunit (.tail _ hv)
    refine ⟨m :: out, ?_, .cons hgives hrest⟩
    rw [filterMap_cons, hm, hout]
    rfl

theorem exists_merged_instructions (regs : RegisterFile) :
    ∃ out : List Instruction, (mergeOps regs true (is.map inst)).1 = out.map inst ∧
      out.flatMap f =
        (((emitted regs (is.map inst)).flatMap (·.members)).filterMap (is[·]?)).flatMap f := by
  obtain ⟨out, hout, hunits⟩ := exists_merged_units hadd regs
  refine ⟨out, hout, ?_⟩
  clear hout
  generalize emitted regs (is.map inst) = us at hunits
  induction hunits with
  | nil => rfl
  | cons hgives _ ih =>
    rw [flatMap_cons, flatMap_cons, filterMap_append, flatMap_append, hgives, ih]

omit hadd

variable {Value Memory Output : Type*} (I : Interpretation regs Value Memory Output)

def Interpretation.stepAt (is : List Instruction)
    (p : MachineState Value Memory Output × (Instruction → Nat)) (k : Nat) :
    MachineState Value Memory Output × (Instruction → Nat) :=
  (actionsAt is [k]).foldl I.step p

theorem Interpretation.foldl_actionsAt (ks : List Nat)
    (p : MachineState Value Memory Output × (Instruction → Nat)) :
    (actionsAt is ks).foldl I.step p = ks.foldl (I.stepAt is) p := by
  induction ks generalizing p with
  | nil => rfl
  | cons k ks ih =>
    rw [← singleton_append, actionsAt_append, foldl_append, ih]
    rfl

/-- Instructions that do not conflict commute as wholes. -/
theorem Interpretation.stepAt_comm (hwf : ∀ i ∈ is, i.WellFormed) {k l : Nat}
    (h : ¬ Conflict regs (is.map inst) k l)
    (p : MachineState Value Memory Output × (Instruction → Nat)) :
    I.stepAt is (I.stepAt is p k) l = I.stepAt is (I.stepAt is p l) k := by
  refine foldl_comm ?_ p
  intro a ha b hb q
  refine I.step_comm ?_ q
  simp only [actionsAt, mem_flatMap, mem_filterMap, mem_singleton] at ha hb
  obtain ⟨i, ⟨_, rfl, hi⟩, ha⟩ := ha
  obtain ⟨j, ⟨_, rfl, hj⟩, hb⟩ := hb
  obtain ⟨hra, hwa⟩ := @footprint_of_mem_actions regs i a (hwf i (mem_of_getElem? hi)) ha
  obtain ⟨hrb, hwb⟩ := @footprint_of_mem_actions regs j b (hwf j (mem_of_getElem? hj)) hb
  by_contra hconflict
  obtain ⟨c, hc⟩ := Footprint.conflicts_iff.1 (by simpa using hconflict)
  refine h (conflict_iff_exists_meetAt.2 ⟨c, .inst i, .inst j, by simp [hi], by simp [hj], ?_⟩)
  rcases hc with ⟨hwc, hrc | hwc'⟩ | ⟨hrc, hwc⟩
  · exact .inl ⟨hwa hwc, .inl (hrb hrc)⟩
  · exact .inl ⟨hwa hwc, .inr (hwb hwc')⟩
  · exact .inr ⟨hra hrc, hwb hwc⟩

/-- Merging preserves meaning: under every interpretation, the merged instructions end in the
registers, memory and trace in which the instructions in program order end. -/
theorem mergeOps_preserves_run (share : Bool) (hb : ∀ i ∈ is, i.Built)
    (hheads : ∀ i ∈ is, ∀ j ∈ is, i.communicates = true → i.mergeKey = j.mergeKey → i.head = j.head)
    (s : MachineState Value Memory Output) :
    ∃ out : List Instruction, (mergeOps regs share (is.map Op.inst)).1 = out.map Op.inst ∧
      I.run out s = I.run is s := by
  cases share with
  | false => exact ⟨is, rfl, rfl⟩
  | true =>
    have hwf : ∀ i ∈ is, i.WellFormed := fun i hi => (hb i hi).wellFormed
    have hem := emission_emitted regs (is.map inst)
    obtain ⟨out, hout, hacts⟩ := exists_merged_instructions (additive_actions hwf hheads) regs
    refine ⟨out, hout, ?_⟩
    have hsame := foldl_eq_of_perm (fun k l p h => I.stepAt_comm hwf h p) hem.perm
      pairwise_lt_range hem.pairwise_members (s, fun _ => 0)
    rw [Interpretation.run, Interpretation.run, hacts, ← actionsAt, I.foldl_actionsAt, hsame,
      length_map, ← I.foldl_actionsAt, actionsAt_range]

/-- Two openings that are merged across an addition and a printing. -/
theorem mergeOps_preserves_run_open :
    let regs : RegisterFile :=
      { tape := 0
        regs := #[{ cls := .clear, size := 1, index := 0 }, { cls := .clear, size := 1, index := 1 },
          { cls := .clear, size := 1, index := 2 }, { cls := .secret, size := 1, index := 0 },
          { cls := .secret, size := 1, index := 1 }] }
    let is : List Instruction :=
      [⟨.reveal, .base, 1, [.number 0, .reg ⟨0, 0⟩, .reg ⟨0, 3⟩]⟩,
        ⟨.addc, .base, 1, [.reg ⟨0, 2⟩, .reg ⟨0, 0⟩, .reg ⟨0, 0⟩]⟩,
        ⟨.reveal, .base, 1, [.number 0, .reg ⟨0, 1⟩, .reg ⟨0, 4⟩]⟩,
        ⟨.printReg, .base, 1, [.reg ⟨0, 2⟩]⟩]
    let sums : Interpretation regs Nat Nat Nat :=
      .ofFunctions (.separate regs) (fun _ n seen _ e => seen.sum + n + e.1)
        (fun _ n seen _ => seen.sum + n) fun _ _ seen _ => seen.sum
    (mergeOps regs true (is.map inst)).1 =
      [⟨.reveal, .base, 1, [.number 0, .reg ⟨0, 0⟩, .reg ⟨0, 3⟩, .reg ⟨0, 1⟩, .reg ⟨0, 4⟩]⟩,
        ⟨.addc, .base, 1, [.reg ⟨0, 2⟩, .reg ⟨0, 0⟩, .reg ⟨0, 0⟩]⟩,
        ⟨.printReg, .base, 1, [.reg ⟨0, 2⟩]⟩].map inst ∧
    ∃ out : List Instruction, (mergeOps regs true (is.map inst)).1 = out.map inst ∧
      sums.run out ⟨fun e => e.1, fun _ => 0, []⟩ = sums.run is ⟨fun e => e.1, fun _ => 0, []⟩ := by
  intro regs is sums
  refine ⟨by decide, ?_⟩
  refine mergeOps_preserves_run sums true ?_ ?_ _
  · intro i hi
    have hall : ∀ i ∈ is,
        Instruction.make i.opcode i.domain i.size i.operands regs = .ok i := by decide
    exact .of_make_self regs (hall i hi)
  · decide

end Merge

end SecureTape
