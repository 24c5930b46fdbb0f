import SecureTape.Block

/-!
# Layout of a tape

The blocks of a tape stand one after the other. The jump at the end of a block is relative: its
offset counts instructions from the one behind the jump. An offset of -1 would be a jump to itself.
-/

namespace SecureTape

namespace Block

def insertAtEnd (b : Block) (is : List Instruction) : Block :=
  let front := if b.exit.isSome then b.ops.length - 1 else b.ops.length
  { b with ops := b.ops.take front ++ is.map .inst ++ b.ops.drop front }

def stop (b : Block) : Nat := b.offset + b.ops.length

def setJump (b : Block) (offset : Int) : Block :=
  match b.ops.getLast? with
  | some (.inst i) => { b with ops := b.ops.dropLast ++ [.inst (i.withJumpOffset offset)] }
  | _ => b

def resolve (start : BlockId → Nat) (index : BlockId) (b : Block) :
    Except ConstructionFault Block :=
  match b.exit with
  | none => .ok { b with state := .placed }
  | some { target := none, .. } => .error (.unresolvedJump index)
  | some { target := some target, .. } =>
    let offset := (start target : Int) - b.stop
    if offset = -1 then .error (.jumpToSelf index)
    else .ok { b.setJump offset with state := .placed }

end Block

namespace Layout

def place : Nat → List Block → List Block
  | _, [] => []
  | offset, b :: rest => { b with offset } :: place (offset + b.ops.length) rest

def starts (blocks : List Block) (index : BlockId) : Nat :=
  (blocks[index]?.map (·.offset)).getD 0

def resolveFrom (start : BlockId → Nat) :
    BlockId → List Block → Except ConstructionFault Unit × List Block
  | _, [] => (.ok (), [])
  | index, b :: rest =>
    match b.resolve start index with
    | .error fault => (.error fault, b :: rest)
    | .ok b =>
      let (result, rest) := resolveFrom start (index + 1) rest
      (result, b :: rest)

def resolve (blocks : List Block) : Except ConstructionFault Unit × List Block :=
  let placed := place 0 blocks
  resolveFrom (starts placed) 0 placed

end Layout

end SecureTape
