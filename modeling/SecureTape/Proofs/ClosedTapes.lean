import SecureTape.Proofs.BuildSteps

/-!
# Tapes that are closed

Actions that build a program leave the code of tapes alone that take no more instructions. Main
statements:
1. `Program.Durable`: the properties of programs that depend on the code of closed tapes only;
   `Program.Durable.tracked`: every step of building a program maintains them.
2. `BuildM.Careful`: the actions that build a program, in which every finalization of a tape
   succeeds or is undone.
3. `BuildM.Careful.maintains`: such actions maintain a durable property, if finalizations that
   succeed do.
-/

open SecureTape.Action

namespace SecureTape

open Program RegisterFile

/-! ## Durable properties -/

variable {p : Program} {I : Program → Prop}

theorem BuildM.Advance.isBuilding {c : Control} {t : Tape} {tree : RequirementTree}
    (h : Advance p c t tree) (hb : p.currentTape.isBuilding) : t.isBuilding := by
  unfold Tape.isBuilding at hb ⊢
  cases h with
  | callTape | runTapes => exact hb
  | _ => simpa only [Tape.modifyBlock, Tape.state_startBlock] using hb

namespace Program

/-- The change does not touch the code of a tape, or the tape is being built before and after it. -/
def Harmless (t t' : Tape) : Prop :=
  (t'.state = t.state ∧ t'.blocks = t.blocks) ∨ (t.isBuilding = true ∧ t'.isBuilding = true)

/-- The property depends on the code of closed tapes only. -/
structure Durable (I : Program → Prop) : Prop where
  aside : ∀ {p q : Program}, I p → q.tapes = p.tapes → I q
  edit : ∀ {p : Program} {id : TapeId} {f : Tape → Tape}, I p →
    Harmless (p.tapeAt id) (f (p.tapeAt id)) → I (p.modifyTape id f)
  push : ∀ {p : Program} {t : Tape}, I p → t.isBuilding = true →
    I { p with tapes := p.tapes.push t }
  take : ∀ {p : Program} (n : Nat), I p → I { p with tapes := p.tapes.take n }

namespace Durable

open BuildM

variable {I : Program → Prop} (hI : Durable I)

include hI

theorem quiet : Quiet I where
  aside h hsame := hI.aside h hsame.tapes
  note h hf := hI.edit h (.inl ⟨hf.state, hf.blocks⟩)
  push h hb _ := hI.edit h (.inr ⟨hb, hb⟩)
  prologue h _ := hI.edit h (.inl ⟨rfl, rfl⟩)
  increment _ _ h _ := hI.aside h rfl
  aggregate h _ := hI.aside h rfl

theorem tracked (outer inner : Rules) : Tracked outer inner fun _ => I where
  quiet _ := hI.quiet
  push h _ hb _ := hI.edit h.sane.2.2 (.inr ⟨hb, hb⟩)
  pushCall h hb _ := hI.edit h.sane.2.2 (.inr ⟨hb, hb⟩)
  advance h _ hb hadvance _ :=
    hI.aside (hI.edit (f := fun _ => _) h.sane.2.2 (.inr ⟨hb, hadvance.isBuilding hb⟩)) rfl
  sprout _ h := hI.aside h.sane.2.2 rfl
  addTape _ _ _ h _ := hI.aside (hI.push h.sane.2.2 rfl) rfl
  turn h _ _ := hI.aside h rfl
  enter _ _ _ h _ := hI.aside (hI.push h.sane.2.2 rfl) rfl
  leave h _ _ _ _ := hI.aside (hI.take _ h.sane.2.2) rfl

end Durable

end Program

/-! ## Careful actions -/

/-- Build what one likes, and compile nothing. -/
def Rules.building : Rules where
  bareCalls := True
  calls := True
  loops _ := True
  finals := False
  stages := False

namespace BuildM

variable {α : Type} {q : Program}

/-- Run an action; if it fails, the program is as if it had not been tried. -/
def orUndo (act : BuildM α) : BuildM α :=
  ExceptT.mk fun p => match act.run p with
    | (.ok a, q) => (.ok a, q)
    | (.error e, _) => (.error e, p)

theorem run_orUndo_of_ok {act : BuildM α} {a : α} (h : act.run p = (.ok a, q)) :
    (orUndo act).run p = (.ok a, q) := by
  show (match act.run p with
    | (.ok a, q) => (.ok a, q)
    | (.error e, _) => (.error e, p) : Except CompileError α × Program) = _
  rw [h]

theorem run_orUndo_of_error {act : BuildM α} {e : CompileError} (h : act.run p = (.error e, q)) :
    (orUndo act).run p = (.error e, p) := by
  show (match act.run p with
    | (.ok a, q) => (.ok a, q)
    | (.error e, _) => (.error e, p) : Except CompileError α × Program) = _
  rw [h]

theorem lawful_orUndo {act : BuildM α} (h : Lawful act) : Lawful (orUndo act) := by
  intro p hp
  rcases hrun : act.run p with ⟨e | a, q⟩
  · exact .of_run (run_orUndo_of_error hrun) (.refl hp) fun _ _ => trivial
  · have hends := (h p hp).ends
    rw [hrun] at hends
    exact .of_run (run_orUndo_of_ok hrun) hends fun _ _ => trivial

/-- Finalize a tape if the program is at one of the given moments, and fail otherwise. -/
def finalizeAt (moments : TapeId → Program → Bool) (id : TapeId) : BuildM Unit := do
  if moments id (← get) then
    orUndo (finalizeTape id)
  else
    misuse (.unknownTape id)

theorem lawful_finalizeAt (moments : TapeId → Program → Bool) (id : TapeId) :
    Lawful (finalizeAt moments id) :=
  .bind .get fun _ => iteInduction (fun _ => lawful_orUndo (lawful_finalizeTape id))
    fun _ => .throw _

/-- The actions that build a program, in which no finalization of a tape fails: one that would fail
is undone. Tapes are finalized at the given moments only. An action that follows another may depend
on its answer and on the whole program, and it may go on after a failure. -/
inductive Careful (moments : TapeId → Program → Bool) : {α : Type} → BuildM α → Prop
  | build {α : Type} {act : BuildM α} (h : Follows .building .building act) : Careful moments act
  | finalizeTape (id : TapeId) : Careful moments (finalizeAt moments id)
  | bind {α β : Type} {act : BuildM α} {k : α → BuildM β} (h : Careful moments act)
      (hk : ∀ a, Careful moments (k a)) : Careful moments (act >>= k)
  | attempt {α : Type} {act : BuildM α} (h : Careful moments act) : Careful moments (attempt act)
  | withVectorSize {α : Type} (size : Nat) {act : BuildM α} (h : Careful moments act) :
      Careful moments (withVectorSize size act)
  | withDomain {α : Type} (domain : FieldDomain) {act : BuildM α} (h : Careful moments act) :
      Careful moments (withDomain domain act)
  | callMacro {body : MacroBody} (h : ∀ args, Careful moments (body.build args)) (args : List Reg) :
      Careful moments (callMacro body args)
  | newTape {α : Type} (name : String) (options : ThreadOptions) {body : BuildM α}
      (h : Careful moments body) : Careful moments (newTape name options body)
  | newFunction {α : Type} (name : String) {body : BuildM α} (h : Careful moments body) :
      Careful moments (newFunction name body)

end BuildM

/-- Careful actions maintain a durable property that finalizations which succeed maintain. -/
theorem BuildM.Careful.maintains {α : Type} {moments : TapeId → Program → Bool} (hI : Durable I)
    (hfinal : ∀ id p q, moments id p → Sane I p →
      (BuildM.finalizeTape id).run p = (.ok ⟨⟩, q) → I q)
    {act : BuildM α} (h : Careful moments act) : Maintains (Sane I) act := by
  have htracked := hI.tracked .building .building
  suffices hall : Lawful act ∧ ∀ floors, Maintains (Within (fun _ => I) floors) act from
    fun p hp => (hall.2 [] p ⟨hp, nofun⟩).sane
  induction h with
  | build hact =>
    refine ⟨hact.api.lawful, fun floors => hact.maintains htracked ?_ ?_ (.inl rfl)⟩
    · rintro _ _ (rfl | ⟨rfl, -⟩) ⟨⟩
    · rintro _ _ (rfl | ⟨rfl, -⟩) ⟨⟩
  | bind _ _ ih ihk =>
    exact ⟨ih.1.bind fun a => (ihk a).1, fun floors => (ih.2 floors).bind fun a => (ihk a).2 floors⟩
  | attempt _ ih => exact ⟨ih.1.attempt, fun floors => maintains_attempt (ih.2 floors)⟩
  | withVectorSize size _ ih =>
    exact ⟨lawful_withVectorSize size ih.1, fun floors =>
      maintains_withVectorSize htracked.modify size (ih.2 floors)⟩
  | withDomain domain _ ih =>
    exact ⟨lawful_withDomain domain ih.1, fun floors =>
      maintains_withDomain htracked.modify domain (ih.2 floors)⟩
  | callMacro _ args ih =>
    exact ⟨lawful_callMacro (fun args => (ih args).1) args, fun floors =>
      htracked.callMacro (fun floors args => (ih args).2 floors) (fun args => (ih args).1) args⟩
  | newTape name options _ ih =>
    exact ⟨lawful_newTape name options ih.1, fun floors =>
      htracked.newTape name options (ih.2 floors) ih.1⟩
  | newFunction name _ ih =>
    exact ⟨lawful_newFunction name ih.1, fun floors => htracked.newFunction name (ih.2 floors) ih.1⟩
  | finalizeTape id =>
    refine ⟨lawful_finalizeAt moments id, fun floors p hp => ?_⟩
    rw [finalizeAt, run_get_bind]
    split
    · rename_i hmoment
      rcases hrun : (BuildM.finalizeTape id).run p with ⟨e | _, q⟩
      · rw [run_orUndo_of_error hrun]
        exact hp
      · have hends := (lawful_finalizeTape id p hp.sane.1).ends
        rw [run_orUndo_of_ok hrun]
        rw [hrun] at hends
        exact hp.evolves hends (hfinal id p q hmoment hp.sane hrun)
    · exact hp

end SecureTape
