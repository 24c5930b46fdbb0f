/-!
# Free lists

The free cells of a heap, as blocks with a start and a size. Two indexes are kept in step: the
blocks by address, and the blocks by size. A block that is given back grows together with its free
neighbours, and a request is served from the front of the smallest block that is large enough, the
lowest of them if there are several.
-/

namespace SecureTape

structure FreeList where
  /-- Start and size of each block, by start. -/
  byAddress : List (Nat × Nat) := []
  /-- Size and start of each block, by size and then by start. -/
  bySize : List (Nat × Nat) := []
  deriving Repr, DecidableEq, Inhabited

namespace FreeList

def empty : FreeList := {}

def isEmpty (l : FreeList) : Bool := l.byAddress.isEmpty

def pairBefore (p q : Nat × Nat) : Bool :=
  p.1 < q.1 || (p.1 == q.1 && p.2 < q.2)

/-- Put a value for a key into a list that is ordered by keys; an old value is replaced. -/
def putKey (key value : Nat) : List (Nat × Nat) → List (Nat × Nat)
  | [] => [(key, value)]
  | (k, v) :: rest =>
    if key < k then (key, value) :: (k, v) :: rest
    else if key = k then (key, value) :: rest
    else (k, v) :: putKey key value rest

def putPair (p : Nat × Nat) : List (Nat × Nat) → List (Nat × Nat)
  | [] => [p]
  | q :: rest =>
    if pairBefore p q then p :: q :: rest
    else if p = q then q :: rest
    else q :: putPair p rest

def insert (l : FreeList) (addr size : Nat) : FreeList where
  byAddress := putKey addr size l.byAddress
  bySize := putPair (size, addr) l.bySize

def remove (l : FreeList) (addr size : Nat) : FreeList where
  byAddress := l.byAddress.filter (·.1 ≠ addr)
  bySize := l.bySize.filter (· ≠ (size, addr))

def blockBelow? (l : FreeList) (addr : Nat) : Option (Nat × Nat) :=
  (l.byAddress.filter (·.1 < addr)).getLast?

def sizeAt? (l : FreeList) (addr : Nat) : Option Nat :=
  l.byAddress.lookup addr

/-- Take out the block that ends where the given one starts, and let the given one begin there. -/
def joinBelow (l : FreeList) (addr size : Nat) : FreeList × Nat × Nat :=
  match l.blockBelow? addr with
  | some (a, s) => if a + s = addr then (l.remove a s, a, size + s) else (l, addr, size)
  | none => (l, addr, size)

/-- Take out the block that starts where the given one ends, and let the given one end there. -/
def joinAbove (l : FreeList) (addr size : Nat) : FreeList × Nat :=
  match l.sizeAt? (addr + size) with
  | some s => (l.remove (addr + size) s, size + s)
  | none => (l, size)

/-- Give a block back. It grows together with the block that ends where it starts and with the
block that starts where it ends. -/
def push (l : FreeList) (addr size : Nat) : FreeList :=
  let (l, addr, size) := l.joinBelow addr size
  let (l, size) := l.joinAbove addr size
  l.insert addr size

/-- Take `size` cells from the front of the smallest block that has them. -/
def pop? (l : FreeList) (size : Nat) : Option (Nat × FreeList) :=
  match l.bySize.find? (size ≤ ·.1) with
  | none => none
  | some (found, addr) =>
    let l := l.remove addr found
    some (addr, if size < found then l.insert (addr + size) (found - size) else l)

end FreeList

end SecureTape
