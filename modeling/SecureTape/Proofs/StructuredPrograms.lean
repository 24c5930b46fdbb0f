import SecureTape.Proofs.BuiltRegions
import SecureTape.Proofs.ControlActions
import SecureTape.Proofs.Reachable

/-!
# Structured programs

Programs of instructions, loops, branches, function scopes and tape calls. Main statements:
1. `Program.Structured`: the programs, with the loops that were opened.
2. `Program.Structured.laid`: their tapes are laid out in open regions.
-/

open SecureTape.Action

namespace SecureTape

open List

open Program RequirementTree

variable {id : TapeId} {f : Tape → Tape} {p q : Program} {times : Count}
  {counter : Option (Reg × Nat)} {loops : List DeclaredLoop}

/-- A loop that was opened: its tape, the first block of its body, and how often it may run. -/
structure DeclaredLoop where
  tape : TapeId
  head : BlockId
  times : Count
  deriving Repr, DecidableEq

namespace Program

def rootOf (p : Program) (id : TapeId) : NodeId := (p.tapeAt id).root

/-- All tapes are being built, and their code forms open regions. -/
structure Laid (p : Program) (loops : List DeclaredLoop) : Prop where
  current_lt : p.current < p.tapes.size
  tree : p.tree.Sound
  tape : ∀ id, id < p.tapes.size →
    (p.tapeAt id).Laid p.tree p.rootOf p.tapes.size fun head n => ⟨id, head, n⟩ ∈ loops

namespace Laid

variable {loops' : List DeclaredLoop}

theorem aside (h : p.Laid loops) (htapes : q.tapes = p.tapes) (htree : q.tree = p.tree)
    (hcurrent : q.current < q.tapes.size) : q.Laid loops := by
  have htape : q.tapeAt = p.tapeAt := by
    unfold tapeAt
    rw [htapes]
  have hroot : q.rootOf = p.rootOf := by
    unfold rootOf
    rw [htape]
  refine ⟨hcurrent, htree ▸ h.tree, ?_⟩
  rw [htapes, htape, htree, hroot]
  exact h.tape

theorem current (h : p.Laid loops) :
    p.currentTape.Laid p.tree p.rootOf p.tapes.size fun head n => ⟨p.current, head, n⟩ ∈ loops :=
  h.tape p.current h.current_lt

variable {tree : RequirementTree}

theorem edit (h : p.Laid loops)
    (htree : Extends p.tree tree) (hsub : loops ⊆ loops')
    (hroot : (f (p.tapeAt id)).root = (p.tapeAt id).root)
    (htape : id < p.tapes.size → (f (p.tapeAt id)).Laid tree p.rootOf p.tapes.size
      fun head n => ⟨id, head, n⟩ ∈ loops') :
    ({ p.modifyTape id f with tree } : Program).Laid loops' := by
  have hrootOf : ({ p.modifyTape id f with tree } : Program).rootOf = p.rootOf := by
    funext j
    show ((p.modifyTape id f).tapeAt j).root = _
    rw [tapeAt_modifyTape]
    split
    · rename_i hj
      rw [hj.1, hroot]
      rfl
    · rfl
  have hsize : (p.modifyTape id f).tapes.size = p.tapes.size := size_modifyTape p id f
  refine ⟨hsize ▸ h.current_lt, htree.sound, ?_⟩
  rw [hrootOf]
  intro j hj
  have hj' : j < p.tapes.size := hsize ▸ hj
  show ((p.modifyTape id f).tapeAt j).Laid tree _ (p.modifyTape id f).tapes.size _
  rw [size_modifyTape, tapeAt_modifyTape]
  split
  · rename_i hid
    rw [hid.1]
    exact htape (hid.1 ▸ hj')
  · exact (h.tape j hj').grown htree le_rfl (fun _ _ => rfl) fun hmem => hsub hmem

theorem of_replaces {α : Type} {act : BuildM α} {Q : Tape → RequirementTree → Prop}
    (h : p.Laid loops) (hact : BuildM.Replaces act p Q)
    (hQ : ∀ t tree, Q t tree → Extends p.tree tree ∧ t.root = p.currentTape.root ∧
      t.Laid tree p.rootOf p.tapes.size fun head n => ⟨p.current, head, n⟩ ∈ loops) :
    (act.run p).2.Laid loops := by
  rcases hact with ⟨e, hrun⟩ | ⟨-, a, t, tree, hrun, hq⟩
  · rw [hrun]
    exact h
  · obtain ⟨htree, hroot, htape⟩ := hQ t tree hq
    rw [hrun]
    exact h.edit htree (fun _ h => h) hroot fun _ => htape

theorem modifyTape (h : p.Laid loops)
    (hroot : (f (p.tapeAt id)).root = (p.tapeAt id).root)
    (htape : id < p.tapes.size → (f (p.tapeAt id)).Laid p.tree p.rootOf p.tapes.size
      fun head n => ⟨id, head, n⟩ ∈ loops) : (p.modifyTape id f).Laid loops :=
  h.edit h.tree.extends (fun _ h => h) hroot htape

theorem onTree (h : p.Laid loops) (htree : Extends p.tree tree) :
    ({ p with tree } : Program).Laid loops :=
  ⟨h.current_lt, htree.sound, fun id hid =>
    (h.tape id hid).grown htree le_rfl (fun _ _ => rfl) fun hmem => hmem⟩

theorem pushTape (h : p.Laid loops) {t : Tape} (htree : Extends p.tree tree)
    (ht : ∀ roots n bound, t.Laid tree roots n bound) :
    ({ p with tree, tapes := p.tapes.push t } : Program).Laid loops := by
  have htape (id : TapeId) : ({ p with tree, tapes := p.tapes.push t } : Program).tapeAt id =
      if id = p.tapes.size then t else p.tapeAt id := tapeAt_push p t id
  have hsize : p.tapes.size ≤ (p.tapes.push t).size := by
    rw [Array.size_push]
    exact Nat.le_succ _
  refine ⟨h.current_lt.trans_le hsize, htree.sound, fun id hid => ?_⟩
  rw [htape]
  split
  · exact ht _ _ _
  · rename_i hne
    have hid' : id < p.tapes.size + 1 := Array.size_push t ▸ hid
    have hlt := lt_of_le_of_ne (Nat.le_of_lt_succ hid') hne
    refine (h.tape id hlt).grown htree hsize (fun f hf => ?_) fun hmem => hmem
    rw [rootOf, htape, if_neg (hf.ne), rootOf]

end Laid

theorem quiet_laid (loops : List DeclaredLoop) : Quiet (·.Laid loops) where
  aside h hsame :=
    h.aside hsame.tapes hsame.tree (by rw [hsame.tapes, hsame.current]; exact h.current_lt)
  note h hf := h.modifyTape hf.root fun hid => (h.tape _ hid).note hf
  push h _ hi := h.modifyTape rfl fun _ => h.current.push hi
  prologue h hi := h.modifyTape rfl fun _ => h.current.pushPrologue hi
  increment r n h _ := h.onTree (extends_increment h.tree h.current.activeNode_lt r n)
  aggregate h hid := h.onTree (extends_aggregate h.tree (h.tape _ hid).root_lt)

end Program

namespace BuildM

/-! ## Scopes and calls -/

theorem maintains_endLoop (cond : Reg) : Maintains (·.Laid loops) (endLoop cond) := by
  intro p h
  refine h.of_replaces (endLoop_cases p h.current_lt cond) ?_
  intro t tree hadvance
  cases hadvance with
  | endLoop hscopes =>
    have hopen := h.current.regions
    rw [hscopes] at hopen
    exact ⟨h.tree.extends, Tape.root_startBlock .., h.current.started le_rfl _ _
      hopen.outer_lt_of_loop (hopen.endLoop cond)⟩

theorem maintains_beginIf (cond : Reg) : Maintains (·.Laid loops) (beginIf cond) := by
  intro p h
  refine h.of_replaces (beginIf_cases p cond) ?_
  intro t tree hadvance
  cases hadvance with
  | beginIf =>
    have htree := extends_addNode_addGroup h.tree "if" h.current.activeNode_lt (c := .max) trivial
    refine ⟨htree, Tape.root_startBlock .., h.current.started htree.size_le _ _ ?_ ?_⟩
    · exact Nat.lt_of_lt_of_eq (Nat.lt_succ_self _) (size_addNode_addGroup "if").symm
    · have hopen := h.current.regions.beginIf ⟨htree.member, fun h => h⟩ cond
        (hasMember_addNode_addGroup h.current.activeNode_lt "if")
      rwa [← fst_addNode_addGroup "if"] at hopen

theorem maintains_beginElse : Maintains (·.Laid loops) beginElse := by
  intro p h
  refine h.of_replaces (beginElse_cases p) ?_
  intro t tree hadvance
  cases hadvance with
  | @beginElse cond group outer rest hscopes =>
    have hopen := h.current.regions
    rw [hscopes] at hopen
    obtain ⟨inner, hgroup⟩ := hopen.branch
    have hnode := extends_addNode h.tree "else"
    have houter := hgroup.lt_size.trans_le hnode.size_le
    have hlt := size_lt_addNode (t := p.tree) "else"
    have htree := hnode.trans (extends_extendGroup (g := group) hnode.sound houter hlt)
    refine ⟨htree, Tape.root_startBlock .., h.current.joined htree.size_le _ _ ?_ ?_⟩
    · exact Nat.lt_of_lt_of_eq hlt (size_extendGroup hlt).symm
    · exact hopen.beginElse ⟨htree.member, fun h => h⟩
        (hasMember_extendGroup houter hlt (hnode.member hgroup))

theorem maintains_endIf : Maintains (·.Laid loops) endIf := by
  intro p h
  refine h.of_replaces (endIf_cases p h.current_lt) ?_
  intro t tree hadvance
  cases hadvance with
  | endIf hscopes =>
    have hopen := h.current.regions
    rw [hscopes] at hopen
    obtain ⟨inner, hgroup⟩ := hopen.branch
    exact ⟨h.tree.extends, Tape.root_startBlock .., h.current.joined le_rfl _ _
      hgroup.lt_size hopen.endIf⟩

theorem maintains_beginFunction : Maintains (·.Laid loops) beginFunction := by
  intro p h
  refine h.of_replaces (beginFunction_cases p) ?_
  intro t tree hadvance
  cases hadvance with
  | beginFunction =>
    exact ⟨h.tree.extends, Tape.root_startBlock .., h.current.started le_rfl _ _
      h.current.activeNode_lt (h.current.regions.next.beginFunction _)⟩

theorem maintains_endFunction : Maintains (·.Laid loops) endFunction := by
  intro p h
  refine h.of_replaces (endFunction_cases p h.current_lt) ?_
  intro t tree hadvance
  cases hadvance with
  | endFunction hscopes =>
    have hopen := h.current.regions
    rw [hscopes] at hopen
    obtain ⟨rfl, hrest⟩ := hopen.endFunction
    exact ⟨h.tree.extends, Tape.root_startBlock .., h.current.started le_rfl _ _
      h.current.activeNode_lt hrest.next⟩

theorem maintains_callTape (id : TapeId) (args : List CallArgument) :
    Maintains (·.Laid loops) (callTape id args) := by
  intro p h
  refine h.of_replaces (callTape_cases p h.current_lt id args) ?_
  intro t tree hadvance
  cases hadvance with
  | callTape bits hid _ hop hcallee _ =>
    have hmembers : ∀ m ∈ [(p.tapeAt id).root], m < p.tree.size := by
      intro m hm
      rw [mem_singleton.1 hm]
      exact (h.tape id hid).root_lt
    have hnode := h.current.activeNode_lt
    have htree := extends_addGroup h.tree hnode (c := .sum) trivial hmembers
    have hgroup := hasMember_addGroup (c := .sum) hnode hmembers (mem_singleton_self _)
    have hcall := h.current.pushCall hop hcallee hid htree hgroup
    exact ⟨htree, rfl, ⟨hcall.building, hcall.size, hcall.opened, hcall.exit_eq, hcall.root_lt,
      hcall.node_lt, hcall.direct, hcall.prologue⟩, hcall.regions⟩

theorem laid_openLoop (h : p.Laid loops) (htimes : times.Valid)
    (hrun : (openLoop times counter).run p = (.ok ⟨⟩, q)) :
    q.Laid (⟨p.current, p.currentTape.active + 1, times⟩ :: loops) := by
  rcases openLoop_cases p times counter with ⟨e, herror⟩ | ⟨-, _, t, tree, hok, ⟨⟩⟩
  · rw [herror] at hrun
    cases hrun
  · rw [hok] at hrun
    cases hrun
    have hnode := h.current.activeNode_lt
    have htree := extends_addNode_addGroup h.tree "loop" hnode (c := .times times) htimes
    refine h.edit htree (subset_cons_self ..) (Tape.root_startBlock ..) fun _ => ?_
    have hgrown : Flow.Grown p.tree _ (fun head n => ⟨p.current, head, n⟩ ∈ loops) fun head n =>
        ⟨p.current, head, n⟩ ∈ (⟨p.current, p.currentTape.active + 1, times⟩ : DeclaredLoop) :: loops :=
      ⟨htree.member, mem_cons_of_mem _⟩
    have hopen := h.current.regions.openLoop counter hgrown
      (hasMember_addNode_addGroup hnode "loop") (.head _)
    rw [← h.current.size] at hopen
    refine h.current.started htree.size_le _ _ ?_ (h.current.size ▸ hopen)
    exact Nat.lt_of_lt_of_eq (Nat.lt_succ_self _) (size_addNode_addGroup "loop").symm

theorem head_openLoop (h : p.Laid loops) (hrun : (openLoop times counter).run p = (.ok ⟨⟩, q)) :
    q.current = p.current ∧ q.currentTape.active = p.currentTape.active + 1 := by
  rcases openLoop_cases p times counter with ⟨e, herror⟩ | ⟨-, _, t, tree, hok, ⟨⟩⟩
  · rw [herror] at hrun
    cases hrun
  · rw [hok] at hrun
    cases hrun
    refine ⟨rfl, ?_⟩
    have htape := currentTape_modifyTape h.current_lt fun _ => { (p.currentTape.startBlock
      "begin-loop" (some p.currentTape.active) none
        (p.tree.addScope p.currentTape.activeBlock.node "loop" (.times times)).1).2 with
      scopes := .loop p.currentTape.blocks.size p.currentTape.active p.currentTape.activeBlock.node
        counter :: p.currentTape.scopes }
    refine (congrArg Tape.active htape).trans ?_
    exact (Tape.active_startBlock ..).trans h.current.size

theorem laid_addTape (h : p.Laid loops) (name : String) (kind : TapeKind) (singular : Bool) :
    ((addTape name kind singular).run p).2.Laid loops :=
  h.pushTape (extends_addNode h.tree _) fun _ _ _ => .new _ _ _ _ (size_lt_addNode _)

/-! ## Structured programs -/

/-- The calls that build code of instructions, branches, function scopes and tape calls, and that
end loops. Jumps and tape calls are not among the instructions that can be given. -/
inductive Straight : {α : Type} → BuildM α → Prop
  | pure {α : Type} (a : α) : Straight (Pure.pure a)
  | throw {α : Type} (e : CompileError) : Straight (MonadExcept.throw e : BuildM α)
  | get : Straight MonadState.get
  | bind {α β : Type} {act : BuildM α} {k : α → BuildM β} (h : Straight act)
      (hk : ∀ a, Straight (k a)) : Straight (act >>= k)
  | attempt {α : Type} {act : BuildM α} (h : Straight act) : Straight (attempt act)
  | withVectorSize {α : Type} (size : Nat) {act : BuildM α} (h : Straight act) :
      Straight (withVectorSize size act)
  | withDomain {α : Type} (domain : FieldDomain) {act : BuildM α} (h : Straight act) :
      Straight (withDomain domain act)
  | registerInfo (r : Reg) : Straight (registerInfo r)
  | createRegister (cls : RegisterClass) (size : Nat) : Straight (createRegister cls size)
  | newVector (cls : RegisterClass) (size : Nat) : Straight (newVector cls size)
  | newInteger : Straight newInteger
  | view (r : Reg) (start size : Nat) : Straight (view r start size)
  | link (a b : Reg) : Straight (link a b)
  | emit {opcode : Opcode} (hjump : opcode.isJump = false) (hcall : opcode ≠ .callTape)
      (operands : List Operand) : Straight (emit opcode operands)
  | pushInstruction {opcode : Opcode} (hjump : opcode.isJump = false) (hcall : opcode ≠ .callTape)
      (domain : FieldDomain) (size : Nat) (operands : List Operand) :
      Straight (pushInstruction opcode domain size operands)
  | endLoop (cond : Reg) : Straight (endLoop cond)
  | beginIf (cond : Reg) : Straight (beginIf cond)
  | beginElse : Straight beginElse
  | endIf : Straight endIf
  | beginFunction : Straight beginFunction
  | endFunction : Straight endFunction
  | tapeParameter (cls : RegisterClass) (size : Nat) : Straight (tapeParameter cls size)
  | callTape (id : TapeId) (args : List CallArgument) : Straight (callTape id args)
  | malloc (cls : RegisterClass) (size : Nat) : Straight (malloc cls size)
  | free (cls : RegisterClass) (addr : Nat) : Straight (free cls addr)
  | flushMemory : Straight flushMemory
  | threadAddress (base stride : Nat) : Straight (threadAddress base stride)
  | incrementRequirement (r : Resource) (n : Count) : Straight (incrementRequirement r n)
  | requireBitLength (bits : Nat) (domain : FieldDomain) : Straight (requireBitLength bits domain)
  | requirements (id : TapeId) : Straight (requirements id)

namespace Straight

theorem newRegister (cls : RegisterClass) : Straight (newRegister cls) :=
  .bind .get fun p => .createRegister cls p.vectorSize

theorem emitRegs {opcode : Opcode} (hjump : opcode.isJump = false) (hcall : opcode ≠ .callTape)
    (regs : List Reg) : Straight (emitRegs opcode regs) := .emit hjump hcall _

end Straight

theorem Straight.api {α : Type} {act : BuildM α} (h : Straight act) : act.Api := by
  -- Each constructor has one of the same name among the interface's calls.
  induction h with
  | _ => with_reducible constructor <;> assumption

theorem laid_new {name : String} {options : Options} (h : Program.new name options = .ok p) :
    p.Laid [] := by
  unfold Program.new at h
  split at h
  · cases h
  · cases h
    refine ⟨Nat.zero_lt_one, (extends_addNode sound_empty name).sound, fun id hid => ?_⟩
    obtain rfl : id = mainTape := Nat.lt_one_iff.1 hid
    exact .new _ _ _ _ (size_lt_addNode name)

theorem Straight.laid {α : Type} {act : BuildM α} (h : Straight act) :
    Maintains (·.Laid loops) act := by
  have hquiet := quiet_laid loops
  induction h with
  | pure a => exact .pure a
  | throw e => exact .throw e
  | get => exact Reads.get.maintains
  | bind _ _ ih ihk => exact ih.bind ihk
  | attempt _ ih => exact maintains_attempt ih
  | withVectorSize size _ ih => exact hquiet.withVectorSize size ih
  | withDomain domain _ ih => exact hquiet.withDomain domain ih
  | registerInfo r => exact (reads_registerInfo r).maintains
  | createRegister cls size => exact hquiet.createRegister cls size
  | newVector cls size => exact hquiet.newVector cls size
  | newInteger => exact hquiet.newInteger
  | view r start size => exact hquiet.view r start size
  | link a b => exact hquiet.link a b
  | emit hjump hcall operands => exact hquiet.emit hjump hcall operands
  | pushInstruction hjump hcall domain size operands =>
    exact hquiet.pushInstruction hjump hcall domain size operands
  | endLoop cond => exact maintains_endLoop cond
  | beginIf cond => exact maintains_beginIf cond
  | beginElse => exact maintains_beginElse
  | endIf => exact maintains_endIf
  | beginFunction => exact maintains_beginFunction
  | endFunction => exact maintains_endFunction
  | tapeParameter cls size => exact hquiet.tapeParameter cls size
  | callTape id args => exact maintains_callTape id args
  | malloc cls size => exact hquiet.malloc cls size
  | free cls addr => exact hquiet.free cls addr
  | flushMemory => exact hquiet.flushMemory
  | threadAddress base stride => exact hquiet.threadAddress base stride
  | incrementRequirement r n => exact hquiet.incrementRequirement r n
  | requireBitLength bits domain => exact hquiet.requireBitLength bits domain
  | requirements id => exact hquiet.requirements id

end BuildM

namespace Program

open BuildM

/-- The program is built of instructions, loops, branches, function scopes and calls of function
tapes, and these loops were opened. -/
inductive Structured : Program → List DeclaredLoop → Prop
  | new {name : String} {options : Options} {p : Program} (h : Program.new name options = .ok p) :
      Structured p []
  | call {p : Program} {loops : List DeclaredLoop} (h : Structured p loops) {α : Type}
      {act : BuildM α} (hact : act.Straight) : Structured (act.run p).2 loops
  | openLoop {p q : Program} {loops : List DeclaredLoop} (h : Structured p loops) {times : Count}
      (htimes : times.Valid) {counter : Option (Reg × Nat)}
      (hrun : (openLoop times counter).run p = (.ok ⟨⟩, q)) :
      Structured q (⟨q.current, q.currentTape.active, times⟩ :: loops)
  | addTape {p : Program} {loops : List DeclaredLoop} (h : Structured p loops) (name : String)
      (kind : TapeKind) (singular : Bool) : Structured ((addTape name kind singular).run p).2 loops
  | turnTo {p : Program} {loops : List DeclaredLoop} (h : Structured p loops) {id : TapeId}
      (hid : id < p.tapes.size) : Structured { p with current := id } loops

namespace Structured

theorem coherent (h : p.Structured loops) : p.Coherent := by
  induction h with
  | new h => exact coherent_of_new h
  | call _ hact ih => exact (hact.api.lawful _ ih).ends.coherent
  | @openLoop p q _ _ times _ counter hrun ih =>
    have hends := (lawful_openLoop times counter p ih).ends
    rw [hrun] at hends
    exact hends.coherent
  | addTape _ name kind singular ih => exact (meets_addTape ih name kind singular).ends.coherent
  | turnTo _ hid ih => exact ih.turnTo hid

theorem laid (h : p.Structured loops) : p.Laid loops := by
  induction h with
  | new h => exact laid_new h
  | call _ hact ih => exact hact.laid _ ih
  | @openLoop p q _ _ times htimes counter hrun ih =>
    obtain ⟨hcurrent, hactive⟩ := head_openLoop ih hrun
    rw [hcurrent, hactive]
    exact laid_openLoop ih htimes hrun
  | addTape _ name kind singular ih => exact laid_addTape ih name kind singular
  | turnTo _ hid ih => exact ih.aside rfl rfl hid

end Structured

end Program

end SecureTape
