import SecureTape.Block

/-!
# Liveness

Which registers a block takes over from outside, and which of its instructions are dead. An
instruction is dead when it has no side effect and nothing that it writes is protected, wanted at
the end of the block, or read by a later instruction that is kept.
-/

namespace SecureTape

namespace Block

/-- One step of the search for inherited registers: `defined` are the slots written so far, and
`found` the registers found so far. -/
def inheritStep (regs : RegisterFile) (defined : List Nat) (found : List Reg) (r : Reg) :
    List Reg :=
  if regs.slotKey r ∈ defined ∨ r ∈ found then found else found ++ [r]

/-- The registers that operations read before their slot is written, and the slots written. -/
def inheritFrom (regs : RegisterFile) : List Nat → List Reg → List Op → List Reg × List Nat
  | defined, found, [] => (found, defined)
  | defined, found, op :: ops =>
    inheritFrom regs (op.writes.map regs.slotKey ++ defined)
      (op.reads.foldl (inheritStep regs defined) found) ops

def findInherited (regs : RegisterFile) (b : Block) : List Reg :=
  let (found, defined) := inheritFrom regs [] [] b.ops
  match b.exit.bind (·.kind.condition?) with
  | some cond => inheritStep regs defined found cond
  | none => found

end Block

/-- Note the registers that each block inherits, and protect them from being dropped as dead. -/
def inheritAll (regs : RegisterFile) : List Block → List Block × RegisterFile
  | [] => ([], regs)
  | b :: bs =>
    let inherited := b.findInherited regs
    let (bs, regs) := inheritAll (inherited.foldl RegisterFile.keep regs) bs
    ({ b with inherited } :: bs, regs)

def Opcode.loadsImmediate : Opcode → Bool
  | .ldi | .ldsi | .ldint => true
  | _ => false

/-- Nothing needs what the operation writes. Unless `full`, only loads of immediates count. -/
def Op.isDead (regs : RegisterFile) (full : Bool) (live : List Nat) : Op → Bool
  | .call _ => false
  | .inst i =>
    !i.hasSideEffect && (full || i.opcode.loadsImmediate) && !i.writes.isEmpty &&
      i.writes.all fun r => regs.isEliminable (regs.baseOf r) && regs.slotKey r ∉ live

/-- The operations that are kept, the slots that are live before them, and the number of those
that were dropped. -/
def dropDead (regs : RegisterFile) (full : Bool) (liveOut : List Nat) :
    List Op → List Op × List Nat × Nat
  | [] => ([], liveOut, 0)
  | op :: ops =>
    let (kept, live, dropped) := dropDead regs full liveOut ops
    if op.isDead regs full live then (kept, live, dropped + 1)
    else (op :: kept, op.reads.map regs.slotKey ++ live, dropped)

end SecureTape
