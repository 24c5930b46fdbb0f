import SecureTape.Handle
import SecureTape.Heap.FreeList
import SecureTape.Machine.RegisterClass

/-!
# Heaps

Every register class has a memory of its own. A heap hands out blocks of cells: from its free list
if reuse is on, and otherwise by raising its top. A block belongs to the pool that asked for it,
and only that pool may give it back, at once or at the next flush.
-/

namespace SecureTape

structure Allocation where
  cls : RegisterClass
  addr : Nat
  size : Nat
  pool : PoolId
  deriving Repr, DecidableEq, Inhabited

structure PendingFree where
  cls : RegisterClass
  addr : Nat
  size : Nat
  deriving Repr, DecidableEq, Inhabited

inductive HeapFault where
  | zeroSize
  | exhausted (cls : RegisterClass) (attempted limit : Nat)
  | unknownAddress (cls : RegisterClass) (addr : Nat)
  | foreignPool (cls : RegisterClass) (addr : Nat)
  deriving Repr, DecidableEq

structure Heap where
  reuse : Bool
  limit : Nat
  /-- The cells below the top have been handed out at some time. -/
  top : PerClass Nat := .fill 0
  free : PerClass FreeList := .fill .empty
  /-- Blocks in use, at most one for a class and an address. -/
  live : List Allocation := []
  pending : List PendingFree := []
  /-- Cells that were served without raising the top. -/
  saved : Nat := 0
  deriving Repr, DecidableEq, Inhabited

namespace Heap

/-- The largest address of 64 bits: a block cannot end after it. -/
def lastEnd : Nat := Nat.pow 2 64 - 1

def find? (h : Heap) (cls : RegisterClass) (addr : Nat) : Option Allocation :=
  h.live.find? fun a => a.cls = cls ∧ a.addr = addr

def forget (h : Heap) (cls : RegisterClass) (addr : Nat) : Heap :=
  { h with live := h.live.filter fun a => ¬ (a.cls = cls ∧ a.addr = addr) }

def record (h : Heap) (a : Allocation) : Heap :=
  let h := h.forget a.cls a.addr
  { h with live := a :: h.live }

def release (h : Heap) (p : PendingFree) : Heap :=
  { h with free := h.free.set p.cls ((h.free.get p.cls).push p.addr p.size) }

def flush (h : Heap) : Heap :=
  h.pending.foldl release { h with pending := [] }

end Heap

abbrev HeapM := ExceptT HeapFault (StateM Heap)

namespace HeapM

def takeFree (cls : RegisterClass) (size : Nat) : HeapM (Option Nat) := do
  let h ← get
  match if h.reuse then (h.free.get cls).pop? size else none with
  | some (addr, free) =>
    set { h with free := h.free.set cls free, saved := h.saved + size }
    return some addr
  | none => return none

def grow (cls : RegisterClass) (size : Nat) : HeapM Nat := do
  let h ← get
  let addr := h.top.get cls
  let stop := min (addr + size) Heap.lastEnd
  if h.limit < stop then
    throw (.exhausted cls stop h.limit)
  set { h with top := h.top.set cls stop }
  return addr

def allocate (cls : RegisterClass) (size : Nat) (pool : PoolId) : HeapM Nat := do
  if size = 0 then
    throw .zeroSize
  let addr ← match ← takeFree cls size with
    | some addr => pure addr
    | none => grow cls size
  modify (·.record ⟨cls, addr, size, pool⟩)
  return addr

def dealloc (cls : RegisterClass) (addr : Nat) (pool : PoolId) (now : Bool) : HeapM Unit := do
  match (← get).find? cls addr with
  | none => throw (.unknownAddress cls addr)
  | some a =>
    if a.pool ≠ pool then
      throw (.foreignPool cls addr)
    modify (·.forget cls addr)
    if now then
      modify (·.release ⟨cls, addr, a.size⟩)
    else
      modify fun h => { h with pending := h.pending ++ [⟨cls, addr, a.size⟩] }

end HeapM

namespace Heap

def allocate (h : Heap) (cls : RegisterClass) (size : Nat) (pool : PoolId) :
    Except HeapFault (Nat × Heap) :=
  match (HeapM.allocate cls size pool).run h with
  | (.ok addr, h) => .ok (addr, h)
  | (.error fault, _) => .error fault

def dealloc (h : Heap) (cls : RegisterClass) (addr : Nat) (pool : PoolId) (now : Bool) :
    Except HeapFault Heap :=
  match (HeapM.dealloc cls addr pool now).run h with
  | (.ok _, h) => .ok h
  | (.error fault, _) => .error fault

end Heap

end SecureTape
