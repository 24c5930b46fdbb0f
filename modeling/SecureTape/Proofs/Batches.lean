import SecureTape.Proofs.Expansion

/-!
# Batches of macro calls

A batch is one tape call with copies around it. Main statement: `meets_batchInstructions`, the
instructions of a batch replace the call, whatever its template does.

1. `meets_copyRuns`: the copies between arguments and the runs of a gathering register.
2. `BatchCode.Gathered`: what the code of a batch holds after some positions of the signature.
-/

namespace SecureTape

open Action RegisterFile List Instruction

variable {f : RegisterFile} {arg r : Reg} {width : Nat}
  {Copy : RegisterFile → Reg → Reg → Instruction → Prop} {copies : List Instruction}

namespace BuildM

variable {g : RegisterFile}

/-! ## Copies -/

structure Copies (g : RegisterFile) (dest src : Reg) (i : Instruction) : Prop where
  typed : i.Typed g
  accesses : i.accesses = [(dest, .write), (src, .read)]

variable {dest src concat : Reg} {i : Instruction} {cls : RegisterClass} {access : Access}

theorem Copies.keeps (h : Copies f dest src i) (hg : Keeps f g) :
    Copies g dest src i := ⟨h.typed.keeps hg, h.accesses⟩

theorem Copies.reads (h : Copies g dest src i) : i.reads = [src] := by
  simp [Instruction.reads, h.accesses, Access.reads]

theorem Copies.writes (h : Copies g dest src i) : i.writes = [dest] := by
  simp [Instruction.writes, h.accesses, Access.writes]

theorem Copies.eq_or_eq {r : Reg} {a : Access} (h : Copies g dest src i) (ha : (r, a) ∈ i.accesses) :
    r = dest ∨ r = src := by
  rw [h.accesses] at ha
  simp only [mem_cons, Prod.mk.injEq, not_mem_nil, or_false] at ha
  exact ha.imp And.left And.left

theorem meets_moveInstruction (hf : f.Valid) (dest src : Reg) :
    Meets Grows (moveInstruction dest src) f fun i g =>
      g = f ∧ Copies f dest src i ∧ f.owns dest = true ∧ f.owns src = true := by
  refine .get_bind (.get_bind ((meets_instruction hf _ _ _ _).mono ?_))
  rintro i g - ⟨rfl, hmake⟩
  have haccesses : i.accesses = [(dest, .write), (src, .read)] := by
    obtain ⟨-, -, -, -, -, rfl⟩ := of_make_eq_ok hmake
    unfold byClass
    split
    · rfl
    · split <;> rfl
  refine ⟨rfl, ⟨typed_of_make hmake, haccesses⟩, ?_, ?_⟩
  · exact owns_of_make hmake (a := .write) (by simp [haccesses])
  · exact owns_of_make hmake (a := .read) (by simp [haccesses])

/-- The instruction copies between an argument and a run that belongs to a slot. -/
def IsCopy (Copy : RegisterFile → Reg → Reg → Instruction → Prop) (g : RegisterFile) (key : Nat)
    (arg : Reg × Nat) (i : Instruction) : Prop :=
  g.owns arg.1 = true ∧ ∃ run, g.owns run = true ∧ g.slotKey run = key ∧ Copy g run arg.1 i

variable {step : Reg → Reg → RegisterM Instruction}
  (Copy : RegisterFile → Reg → Reg → Instruction → Prop)
  (hkeeps : ∀ {f g run arg i}, Keeps f g → Copy f run arg i → Copy g run arg i)
  (hstep : ∀ {f : RegisterFile} (run arg : Reg), f.Valid → Meets Grows (step run arg) f fun i g =>
    g = f ∧ Copy f run arg i ∧ f.owns run = true ∧ f.owns arg = true)

include hkeeps hstep in
theorem meets_copyRuns (hf : f.Valid) {r : Reg} (hr : f.owns r = true) (offset : Nat)
    (args : List (Reg × Nat)) :
    Meets Grows (copyRuns step r offset args) f fun code g =>
      Forall₂ (IsCopy Copy g (f.slotKey r)) args code := by
  induction args generalizing f offset with
  | nil => exact .pure hf.grows .nil
  | cons a args ih =>
    obtain ⟨arg, width⟩ := a
    refine .bind (meets_viewOf hf hr offset width) ?_
    rintro run g hg ⟨hrun, hkey⟩
    refine .bind (hstep run arg hg.valid) ?_
    rintro i _ - ⟨rfl, hcopy, -, harg⟩
    refine .bind (ih hg.valid (hg.ext.owns hr) (offset + width)) ?_
    rintro code h hh hcode
    have hrkey := hg.ext.slotKey hf (owns_iff.mp hr).2
    refine .pure hh.valid.grows (.cons ⟨hh.ext.owns harg, run, hh.ext.owns hrun, ?_,
      hkeeps hh.ext.keeps hcopy⟩ ?_)
    · rw [hh.ext.slotKey hg.valid (owns_iff.mp hrun).2, hkey]
    · refine hcode.imp ?_
      rintro a' i' ⟨ha', run', hrun', hkey', hcopy'⟩
      exact ⟨ha', run', hrun', hkey'.trans hrkey, hcopy'⟩

/-! ## The code of a batch -/

variable {n k : Nat} {c : MacroCall} {code : BatchCode}

/-- The register is the argument of a site at a position of the signature whose access satisfies
`pick`. -/
def IsArgument (c : MacroCall) (pick : Access → Bool) (arg : Reg) : Prop :=
  ∃ site ∈ c.sites, ∃ (m : Nat) (cls : RegisterClass) (access : Access),
    c.template.signature[m]? = some (cls, access) ∧ pick access = true ∧
      arg = site.args.getD m default

/-- What the code of a batch holds after the first `k` positions of the signature. -/
structure Gathered (n : Nat) (g : RegisterFile) (c : MacroCall) (k : Nat) (code : BatchCode) :
    Prop where
  before : ∀ {i}, i ∈ code.before → ∃ run arg, Copies g run arg i ∧ g.FreshFrom n run ∧
    g.owns arg = true ∧ IsArgument c Access.reads arg
  after : ∀ {i}, i ∈ code.after → ∃ run arg, Copies g arg run i ∧ g.FreshFrom n run ∧
    g.owns arg = true ∧ IsArgument c Access.writes arg
  operands : ∀ {group r}, group ∈ code.inputs ++ code.outputs → .reg r ∈ group →
    g.FreshFrom n r
  complete : ∀ {m cls access site}, m < k → c.template.signature[m]? = some (cls, access) →
    access.writes = true → site ∈ c.sites →
    ∃ i ∈ code.after, ∃ run, Copies g (site.args.getD m default) run i

theorem Gathered.grows (h : Gathered n f c k code) (hf : f.Valid) (hg : Grows f g) :
    Gathered n g c k code where
  before hi := by
    obtain ⟨run, arg, hcopy, hrun, harg, hsite⟩ := h.before hi
    exact ⟨run, arg, hcopy.keeps hg.ext.keeps, hrun.grows hf hg, hg.ext.owns harg, hsite⟩
  after hi := by
    obtain ⟨run, arg, hcopy, hrun, harg, hsite⟩ := h.after hi
    exact ⟨run, arg, hcopy.keeps hg.ext.keeps, hrun.grows hf hg, hg.ext.owns harg, hsite⟩
  operands hgroup hr := (h.operands hgroup hr).grows hf hg
  complete hm hsig hw hsite := by
    obtain ⟨i, hi, run, hcopy⟩ := h.complete hm hsig hw hsite
    exact ⟨i, hi, run, hcopy.keeps hg.ext.keeps⟩

theorem Gathered.start (f : RegisterFile) (c : MacroCall) : Gathered n f c 0 {} where
  before := nofun
  after := nofun
  operands := nofun
  complete := nofun

theorem freshFrom_of_mem_batchGroup {param : Reg} (h : g.FreshFrom n concat)
    (hr : Operand.reg r ∈ batchGroup width cls param concat) : g.FreshFrom n r := by
  simp only [batchGroup, mem_cons, not_mem_nil, reduceCtorEq, Operand.reg.injEq,
    false_or, or_false] at hr
  rwa [hr]

theorem mem_argumentsAt (h : (arg, width) ∈ argumentsAt c k) :
    ∃ site ∈ c.sites, arg = site.args.getD k default := by
  obtain ⟨site, hsite, heq⟩ := mem_map.1 h
  exact ⟨site, hsite, (congrArg Prod.fst heq).symm⟩

include hkeeps hstep in
/-- Copies between the arguments at a position and a new register are put into the code of a
batch. -/
theorem meets_gather {pick : Access → Bool} {k' : Nat}
    (hf : f.Valid) (hn : n ≤ f.size) (h : Gathered n f c k code)
    (hsig : c.template.signature[k]? = some (cls, access)) (hpick : pick access = true) (width : Nat)
    {result : Reg → List Instruction → BatchCode}
    (hresult : ∀ {concat copies g}, Gathered n g c k code → g.FreshFrom n concat →
      (∀ i ∈ copies, ∃ run arg, Copy g run arg i ∧ g.FreshFrom n run ∧ g.owns arg = true ∧
        IsArgument c pick arg) →
      (∀ site ∈ c.sites, ∃ i ∈ copies, ∃ run, Copy g run (site.args.getD k default) i) →
      Gathered n g c k' (result concat copies)) :
    Meets Grows (do
      let concat ← RegisterM.create cls width
      let copies ← copyRuns step concat 0 (argumentsAt c k)
      pure (result concat copies) : RegisterM BatchCode) f fun code' g => Gathered n g c k' code' := by
  refine .bind (meets_create hf cls width) ?_
  rintro concat g hg ⟨-, -, hconcat, hkey⟩
  refine .bind (meets_copyRuns Copy hkeeps hstep hg.valid hconcat 0 _) ?_
  rintro copies e he hcopies
  have hfresh {run : Reg} (howns : e.owns run = true) (hrun : e.slotKey run = g.slotKey concat) :
      e.FreshFrom n run := ⟨howns, by omega⟩
  refine .pure he.valid.grows (hresult ((h.grows hf hg).grows hg.valid he) ?_ (fun i hi => ?_)
    fun site hsite => ?_)
  · exact hfresh (he.ext.owns hconcat) (he.ext.slotKey hg.valid (owns_iff.1 hconcat).2)
  · obtain ⟨⟨arg, width⟩, ha, howns, run, hrun, hrkey, hcopy⟩ := exists_left_of_forall₂ hcopies hi
    obtain ⟨site, hsite, rfl⟩ := mem_argumentsAt ha
    exact ⟨run, _, hcopy, hfresh hrun hrkey, howns, site, hsite, k, cls, access, hsig, hpick, rfl⟩
  · have hmem : (site.args.getD k default, site.width) ∈ argumentsAt c k :=
      mem_map.2 ⟨site, hsite, rfl⟩
    obtain ⟨i, hi, -, run, -, -, hcopy⟩ := exists_right_of_forall₂ hcopies hmem
    exact ⟨i, hi, run, hcopy⟩

section Arguments

variable (hf : f.Valid) (hn : n ≤ f.size) (h : Gathered n f c k code)
  (hsig : c.template.signature[k]? = some (cls, access))

include hf hn h hsig

theorem meets_gatherInput (hreads : access.reads) (width : Nat) (param : Reg) :
    Meets Grows (do
      let concat ← RegisterM.create cls width
      let copies ← copyRuns (fun run arg => moveInstruction run arg) concat 0 (argumentsAt c k)
      pure { code with
        before := code.before ++ copies
        inputs := code.inputs ++ [batchGroup width cls param concat] } : RegisterM BatchCode) f
      fun code' g => Gathered n g c k code' := by
  refine meets_gather Copies (fun hg h => h.keeps hg)
    (fun run arg hf => meets_moveInstruction hf run arg)
    hf hn h hsig hreads width fun h' hconcat hcopies _ => ⟨fun hi => ?_, h'.after, ?_, h'.complete⟩
  · exact (mem_append.1 hi).elim h'.before (hcopies _)
  · intro group r hgroup hr
    simp only [append_assoc, mem_append, mem_singleton] at hgroup
    rcases hgroup with hgroup | rfl | hgroup
    · exact h'.operands (mem_append_left _ hgroup) hr
    · exact freshFrom_of_mem_batchGroup hconcat hr
    · exact h'.operands (mem_append_right _ hgroup) hr

theorem meets_gatherOutput (hwrites : access.writes) (width : Nat) (param : Reg) :
    Meets Grows (do
      let concat ← RegisterM.create cls width
      let copies ← copyRuns (fun run arg => moveInstruction arg run) concat 0 (argumentsAt c k)
      pure { code with
        after := code.after ++ copies
        outputs := code.outputs ++ [batchGroup width cls param concat] } : RegisterM BatchCode) f
      fun code' g => Gathered n g c (k + 1) code' := by
  refine meets_gather (fun g => flip (Copies g)) (fun hg h => Copies.keeps h hg) (fun run arg hf =>
    (meets_moveInstruction hf arg run).mono fun _ _ _ h => ⟨h.1, h.2.1, h.2.2.2, h.2.2.1⟩)
    hf hn h hsig hwrites width fun h' hconcat hcopies hall => ⟨h'.before, fun hi => ?_, ?_, ?_⟩
  · exact (mem_append.1 hi).elim h'.after (hcopies _)
  · intro group r hgroup hr
    simp only [mem_append, mem_singleton] at hgroup
    rcases hgroup with hgroup | hgroup | rfl
    · exact h'.operands (mem_append_left _ hgroup) hr
    · exact h'.operands (mem_append_right _ hgroup) hr
    · exact freshFrom_of_mem_batchGroup hconcat hr
  · intro m cls' access' site hm hsig' hw hsite
    rcases Nat.lt_succ_iff_lt_or_eq.1 hm with hm | rfl
    · obtain ⟨i, hi, hcopy⟩ := h'.complete hm hsig' hw hsite
      exact ⟨i, mem_append_left _ hi, hcopy⟩
    · obtain ⟨i, hi, hcopy⟩ := hall site hsite
      exact ⟨i, mem_append_right _ hi, hcopy⟩

theorem meets_batchArgument (width : Nat) (param : Reg) :
    Meets Grows (batchArgument width cls access param (argumentsAt c k) code) f
      fun code' g => Gathered n g c (k + 1) code' := by
  have houtput {g : RegisterFile} (hg : Grows f g) {code : BatchCode}
      (h : Gathered n g c k code) : Meets Grows (if access.writes then do
      let concat ← RegisterM.create cls width
      let copies ← copyRuns (fun run arg => moveInstruction arg run) concat 0 (argumentsAt c k)
      pure { code with
        after := code.after ++ copies
        outputs := code.outputs ++ [batchGroup width cls param concat] }
      else pure code : RegisterM BatchCode) g fun code' e => Gathered n e c (k + 1) code' := by
    split
    · exact meets_gatherOutput hg.valid (Nat.le_trans hn hg.ext.size_le) h hsig ‹_› width param
    · refine .pure hg.valid.grows ⟨h.before, h.after, h.operands, ?_⟩
      intro m cls' access' site hm hsig' hw hsite
      rcases Nat.lt_succ_iff_lt_or_eq.1 hm with hm | rfl
      · exact h.complete hm hsig' hw hsite
      · cases hsig.symm.trans hsig'
        exact absurd hw ‹_›
  unfold batchArgument
  simp only []
  split
  · have hinput := meets_gatherInput hf hn h hsig ‹_› width param
    have hboth := hinput.bind fun code' g hg h' => houtput hg h'
    simpa only [bind_assoc] using hboth
  · exact .pure_bind (houtput hf.grows h)

end Arguments

theorem meets_batchFrom (width : Nat) (signature : MacroSignature) (params : List Reg)
    (hf : f.Valid) (hn : n ≤ f.size) (h : Gathered n f c k code)
    (hsig : c.template.signature.drop k = signature) :
    Meets Grows (batchFrom c width k signature params code) f fun code' g =>
      Gathered n g c (k + min signature.length params.length) code' := by
  induction signature generalizing f k params code with
  | nil => exact .pure hf.grows (by simpa using h)
  | cons entry signature ih =>
    cases params with
    | nil => exact .pure hf.grows (by simpa using h)
    | cons param params =>
      obtain ⟨cls, access⟩ := entry
      have hk : c.template.signature[k]? = some (cls, access) := by
        rw [← head?_drop, hsig]
        rfl
      have hdrop : c.template.signature.drop (k + 1) = signature := by
        rw [← drop_drop, hsig]
        rfl
      refine .bind (meets_batchArgument hf hn h hk width param) ?_
      rintro code' g hg h'
      have hrest := ih params hg.valid (Nat.le_trans hn hg.ext.size_le) h' hdrop
      simpa [Nat.add_assoc, Nat.add_comm 1, ← Nat.add_min_add_right] using hrest

/-! ## The call -/

theorem mem_callOperands {callee : TapeId} {inputs outputs : List (List Operand)}
    (h : Operand.reg r ∈ callOperands callee inputs outputs) :
    ∃ group ∈ inputs ++ outputs, .reg r ∈ group := by
  simp only [callOperands, cons_append, nil_append, mem_cons, reduceCtorEq,
    false_or, ← flatten_append] at h
  exact mem_flatten.1 h

theorem mem_operands_of_mem_accesses {a : Access} (h : (r, a) ∈ i.accesses) :
    .reg r ∈ i.operands := by
  obtain ⟨k, format, hget, -⟩ := mem_accesses_iff.1 h
  exact mem_of_getElem? (getElem?_zip_eq_some.1 hget).2

/-- The sites of the call have the arguments that the signature asks for, and the called tape has
the parameters. -/
def BatchFits (c : MacroCall) (params : List Reg) : Prop :=
  (∀ site ∈ c.sites, c.template.signature.length ≤ site.args.length) ∧
    c.template.signature.length ≤ params.length

theorem IsArgument.mem_arguments {pick : Access → Bool} (h : IsArgument c pick arg)
    (hfits : ∀ site ∈ c.sites, c.template.signature.length ≤ site.args.length) :
    arg ∈ c.arguments pick := by
  obtain ⟨site, hsite, m, cls, access, hsig, hpick, rfl⟩ := h
  refine MacroCall.mem_arguments_iff.2 ⟨site, hsite, m, cls, access, ?_, hsig, hpick⟩
  have hm : m < site.args.length :=
    Nat.lt_of_lt_of_le (List.getElem?_eq_some_iff.1 hsig).1 (hfits site hsite)
  rw [List.getD_eq_getElem?_getD, List.getElem?_eq_getElem hm]
  rfl

/-- Copies around a tape call replace a call, whatever its template does. -/
theorem replaces_of_gathered {params : List Reg} {call : Instruction} (hf : f.Valid)
    (hg : Grows f g) (hargs : ∀ q ∈ (Op.call c).registers, f.owns q)
    (h : Gathered f.size g c (min c.template.signature.length params.length) code)
    (htyped : call.Typed g) (hcall : ∀ {r a}, (r, a) ∈ call.accesses → g.FreshFrom f.size r) :
    Replaces (BatchFits c params) f g c (code.before ++ [call] ++ code.after) := by
  have hmem {j : Instruction} (hj : j ∈ code.before ++ [call] ++ code.after) :
      j ∈ code.before ∨ j = call ∨ j ∈ code.after := by
    simpa [or_assoc] using hj
  have hold {pick : Access → Bool} {arg : Reg} (ha : arg ∈ c.arguments pick) :
      g.slotKey arg = f.slotKey arg :=
    hg.ext.slotKey hf (owns_iff.1 (hargs arg (Op.mem_registers_of_mem_arguments ha))).2
  refine ⟨?_, ?_, ?_, ?_, ?_⟩
  · intro j hj
    rcases hmem hj with hj | rfl | hj
    · obtain ⟨run, arg, hcopy, -⟩ := h.before hj
      exact hcopy.typed
    · exact htyped
    · obtain ⟨run, arg, hcopy, -⟩ := h.after hj
      exact hcopy.typed
  · intro j r a hj ha
    rcases hmem hj with hj | rfl | hj
    · obtain ⟨run, arg, hcopy, hrun, harg, -⟩ := h.before hj
      rcases hcopy.eq_or_eq ha with rfl | rfl
      · exact hrun.1
      · exact harg
    · exact (hcall ha).1
    · obtain ⟨run, arg, hcopy, hrun, harg, -⟩ := h.after hj
      rcases hcopy.eq_or_eq ha with rfl | rfl
      · exact harg
      · exact hrun.1
  · intro hfits j r a hj ha
    have hargument {pick : Access → Bool} {arg : Reg} (harg : IsArgument c pick arg) :
        ∃ q ∈ (Op.call c).registers, g.slotKey arg = f.slotKey q := by
      have hmem := harg.mem_arguments hfits.1
      exact ⟨arg, Op.mem_registers_of_mem_arguments hmem, hold hmem⟩
    rcases hmem hj with hj | rfl | hj
    · obtain ⟨run, arg, hcopy, hrun, -, harg⟩ := h.before hj
      rcases hcopy.eq_or_eq ha with rfl | rfl
      · exact .inl hrun.2
      · exact .inr (hargument harg)
    · exact .inl (hcall ha).2
    · obtain ⟨run, arg, hcopy, hrun, -, harg⟩ := h.after hj
      rcases hcopy.eq_or_eq ha with rfl | rfl
      · exact .inr (hargument harg)
      · exact .inl hrun.2
  · intro hfits _ key hlt hexp
    obtain ⟨_, hop, r, hr, rfl⟩ := exists_reads_of_exposes hexp
    obtain ⟨j, hj, rfl⟩ := mem_map.1 hop
    rcases hmem hj with hj | rfl | hj
    · obtain ⟨run, arg, hcopy, -, -, harg⟩ := h.before hj
      rw [Op.reads, hcopy.reads, mem_singleton] at hr
      subst hr
      have harg' := harg.mem_arguments hfits.1
      exact ⟨r, harg', (hold harg').symm⟩
    · obtain ⟨a, ha, -⟩ := mem_reads_iff.1 hr
      exact absurd (hcall ha).2 (by omega)
    · obtain ⟨run, arg, hcopy, hrun, -⟩ := h.after hj
      rw [Op.reads, hcopy.reads, mem_singleton] at hr
      subst hr
      exact absurd hrun.2 (by omega)
  · rintro ⟨hsites, hparams⟩ - key ⟨r, hr, rfl⟩
    obtain ⟨site, hsite, m, cls, access, ha, hsig, hpick⟩ := MacroCall.mem_arguments_iff.1 hr
    have hm : m < c.template.signature.length := (List.getElem?_eq_some_iff.1 hsig).1
    obtain ⟨j, hj, run, hcopy⟩ := h.complete (by omega) hsig hpick hsite
    rw [List.getD_eq_getElem?_getD, ha, Option.getD_some] at hcopy
    refine ⟨j, by simp [hj], r, ?_, hold hr⟩
    rw [Op.writes, hcopy.writes]
    simp

theorem meets_batchInstructions (hf : f.Valid) (hargs : ∀ q ∈ (Op.call c).registers, f.owns q)
    (width : Nat) (callee : TapeId) (params : List Reg) :
    Meets Grows (batchInstructions c width callee params) f fun code g =>
      Replaces (BatchFits c params) f g c code := by
  refine .bind (meets_batchFrom width _ params hf (Nat.le_refl _) (.start f c) rfl) ?_
  rintro code g hg h
  rw [Nat.zero_add] at h
  refine .bind (meets_instruction hg.valid _ _ _ _) ?_
  rintro call _ - ⟨rfl, hmake⟩
  refine .pure hg.valid.grows (replaces_of_gathered hf hg hargs h ?_ ?_)
  · exact typed_of_make hmake
  · intro r a ha
    have hop := mem_operands_of_mem_accesses ha
    obtain ⟨-, -, -, -, -, rfl⟩ := of_make_eq_ok hmake
    obtain ⟨group, hgroup, hr⟩ := mem_callOperands hop
    exact h.operands hgroup hr

end BuildM

end SecureTape
