import SecureTape.Error

/-!
# Register files

The registers of a tape. A base register of size `n` takes `n` virtual numbers of its class; a view
is a run of elements of a base register. Base registers can be linked: linked registers form an
alias set, whose members share one physical slot.
-/

namespace SecureTape

structure RegisterData where
  cls : RegisterClass
  size : Nat
  /-- The virtual number of the first element. -/
  index : Nat
  /-- The base register and the first element in it, for a view. -/
  view : Option (Nat × Nat) := none
  /-- The instruction that defines it may be dropped as dead. -/
  eliminable : Bool := true
  /-- Keeps its slot for the whole tape. -/
  exported : Bool := false
  aliasSet : Option Nat := none
  slot : Option Nat := none
  deriving Repr, DecidableEq, Inhabited

structure RegisterFile where
  tape : TapeId
  regs : Array RegisterData := #[]
  counters : PerClass Nat := .fill 0
  /-- Members of the alias sets; a set that was joined to another is empty. -/
  aliasSets : Array (List Nat) := #[]
  deriving Repr, DecidableEq, Inhabited

namespace RegisterFile

def maxVirtual : Nat := Nat.pow 2 32 - 1

def new (tape : TapeId) : RegisterFile := { tape }

def size (f : RegisterFile) : Nat := f.regs.size

def data (f : RegisterFile) (id : Nat) : RegisterData :=
  f.regs.getD id default

def modify (f : RegisterFile) (id : Nat) (g : RegisterData → RegisterData) : RegisterFile :=
  { f with regs := f.regs.modify id g }

def classOf (f : RegisterFile) (r : Reg) : RegisterClass := (f.data r.id).cls

def sizeOf (f : RegisterFile) (r : Reg) : Nat := (f.data r.id).size

def owns (f : RegisterFile) (r : Reg) : Bool :=
  r.tape = f.tape && r.id < f.size

/-- The base register of a register and the element of it at which the register starts. -/
def resolve (f : RegisterFile) (r : Reg) : Nat × Nat :=
  (f.data r.id).view.getD (r.id, 0)

def baseOf (f : RegisterFile) (r : Reg) : Nat := (f.resolve r).1

def handle (f : RegisterFile) (id : Nat) : Reg := ⟨f.tape, id⟩

/-- The name of a register in listings; a view shows its run of elements. -/
def label (f : RegisterFile) (r : Reg) : String :=
  let d := f.data r.id
  match d.view with
  | some (base, offset) =>
    let b := f.data base
    b.cls.letters ++ s!"{b.index}[{offset}:{offset + d.size}]"
  | none => d.cls.letters ++ toString d.index

/-! ## New registers -/

def push (f : RegisterFile) (d : RegisterData) : Reg × RegisterFile :=
  (f.handle f.size, { f with regs := f.regs.push d })

def create (f : RegisterFile) (cls : RegisterClass) (size : Nat) :
    Except CompileError (Reg × RegisterFile) :=
  let index := f.counters.get cls
  let next := index + size
  if maxVirtual < next then .error (.exhausted .registers cls next maxVirtual)
  else
    let f := { f with counters := f.counters.set cls next }
    .ok (f.push { cls, size, index })

/-- The view of `size` elements of a register from `start` on. A view of a whole base register is
that register. -/
def viewOf (f : RegisterFile) (r : Reg) (start size : Nat) :
    Except CompileError (Reg × RegisterFile) :=
  let total := f.sizeOf r
  if size = 0 then .error (.construction .emptyVector)
  else if total < start + size then .error (.construction (.viewOutOfRange start size total))
  else
    let (base, offset) := f.resolve r
    let b := f.data base
    if offset + start = 0 ∧ size = b.size then .ok (f.handle base, f)
    else
      .ok (f.push {
        cls := b.cls, size, index := b.index + offset + start
        view := some (base, offset + start), eliminable := b.eliminable })

/-! ## Alias sets -/

/-- The base registers that share a slot with a base register, itself included. -/
def aliases (f : RegisterFile) (base : Nat) : List Nat :=
  match (f.data base).aliasSet with
  | some set => f.aliasSets.getD set []
  | none => [base]

/-- The base register that stands for a register, its views and all that is linked to it. -/
def slotKey (f : RegisterFile) (r : Reg) : Nat :=
  let base := f.baseOf r
  match (f.data base).aliasSet with
  | some set => (f.aliasSets.getD set []).head?.getD base
  | none => base

/-- The registers overlap or are linked. -/
def aliased (f : RegisterFile) (a b : Reg) : Bool :=
  let (x, y) := (f.baseOf a, f.baseOf b)
  x == y || match (f.data x).aliasSet, (f.data y).aliasSet with
    | some s, some t => s == t
    | _, _ => false

def joinSet (f : RegisterFile) (set id : Nat) : RegisterFile :=
  let f := { f with aliasSets := f.aliasSets.modify set (· ++ [id]) }
  f.modify id ({ · with aliasSet := some set })

/-- Move all members of the alias set `drop` to the end of the set `keep`. -/
def mergeSets (f : RegisterFile) (keep drop : Nat) : RegisterFile :=
  let moved := f.aliasSets.getD drop []
  let f := { f with aliasSets := f.aliasSets.modify drop fun _ => [] }
  let f := moved.foldl (fun f id => f.modify id ({ · with aliasSet := some keep })) f
  { f with aliasSets := f.aliasSets.modify keep (· ++ moved) }

/-- Put two base registers into one alias set. Of two sets the smaller joins the larger. -/
def joinAliases (f : RegisterFile) (a b : Nat) : RegisterFile :=
  match (f.data a).aliasSet, (f.data b).aliasSet with
  | some x, some y =>
    if x = y then f
    else if (f.aliasSets.getD y []).length ≤ (f.aliasSets.getD x []).length then f.mergeSets x y
    else f.mergeSets y x
  | some x, none => f.joinSet x b
  | none, some y => f.joinSet y a
  | none, none =>
    let set := f.aliasSets.size
    let f := { f with aliasSets := f.aliasSets.push [a, b] }
    (f.modify a ({ · with aliasSet := some set })).modify b ({ · with aliasSet := some set })

def linkFlaw? (f : RegisterFile) (a b : Reg) : Option LinkFlaw :=
  let (x, y) := (f.data a.id, f.data b.id)
  if x.view.isSome ∨ y.view.isSome then some .view
  else if x.cls ≠ y.cls then some .classes
  else if x.size ≠ y.size then some .sizes
  else none

def pin (f : RegisterFile) (id : Nat) : RegisterFile :=
  f.modify id ({ · with eliminable := false })

def link (f : RegisterFile) (a b : Reg) : Except CompileError RegisterFile :=
  match f.linkFlaw? a b with
  | some flaw => .error (.construction (.invalidLink (f.label a) (f.label b) flaw))
  | none =>
    if a.id = b.id then .ok f
    else .ok (((f.joinAliases a.id b.id).pin a.id).pin b.id)

/-- Protect a register and all that is linked to it from being dropped as dead. -/
def keep (f : RegisterFile) (r : Reg) : RegisterFile :=
  ((f.aliases (f.baseOf r)).foldl pin f).pin r.id

/-- Protect a register, and let it keep its slot for the whole tape. -/
def markExported (f : RegisterFile) (r : Reg) : RegisterFile :=
  (f.keep r).modify (f.baseOf r) ({ · with exported := true })

/-- Nothing protects the instruction that defines a base register. -/
def isEliminable (f : RegisterFile) (base : Nat) : Bool :=
  (f.aliases base).all fun id => (f.data id).eliminable

def exported (f : RegisterFile) : List Reg :=
  ((List.range f.size).filter fun id => (f.data id).exported).map f.handle

/-! ## Physical slots -/

def setSlot (f : RegisterFile) (base slot : Nat) : RegisterFile :=
  f.modify base ({ · with slot := some slot })

def clearSlots (f : RegisterFile) : RegisterFile :=
  { f with regs := f.regs.map ({ · with slot := none }) }

/-- The physical number of the first element; the virtual one where no slot was given. -/
def physical (f : RegisterFile) (r : Reg) : Nat :=
  let (base, offset) := f.resolve r
  let b := f.data base
  b.slot.getD b.index + offset

end RegisterFile

end SecureTape
