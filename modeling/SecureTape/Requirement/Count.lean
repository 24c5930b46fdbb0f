/-!
# Counts

A count is a number of 64 bits or unbounded. Arithmetic that leaves the range of 64 bits answers
unbounded, and zero times anything is zero.
-/

namespace SecureTape

def countRange : Nat := Nat.pow 2 64

inductive Count where
  | finite (n : Nat)
  | unbounded
  deriving Repr, DecidableEq

namespace Count

def zero : Count := .finite 0

instance : Inhabited Count := ⟨zero⟩

/-- A number as a count: unbounded from the range of 64 bits on. -/
def ofNat (n : Nat) : Count :=
  if n < countRange then .finite n else .unbounded

def isZero : Count → Bool
  | .finite 0 => true
  | _ => false

def isUnbounded : Count → Bool
  | .unbounded => true
  | _ => false

def add : Count → Count → Count
  | .finite a, .finite b => ofNat (a + b)
  | _, _ => .unbounded

def mul : Count → Count → Count
  | .finite 0, _ => zero
  | _, .finite 0 => zero
  | .finite a, .finite b => ofNat (a * b)
  | _, _ => .unbounded

def lt : Count → Count → Bool
  | .finite a, .finite b => a < b
  | .finite _, .unbounded => true
  | .unbounded, _ => false

def max (a b : Count) : Count :=
  if a.lt b then b else a

/-- The operand that declares a count: the number if it fits 63 bits, -1 otherwise. -/
def declaration : Count → Int
  | .finite n => if n < Nat.pow 2 63 then n else -1
  | .unbounded => -1

def text : Count → String
  | .finite n => toString n
  | .unbounded => "unbounded"

@[simp] theorem isZero_eq_true_iff {a : Count} : a.isZero = true ↔ a = zero := by
  unfold isZero zero
  split <;> simp_all

@[simp] theorem zero_add {n : Nat} (h : n < countRange) : zero.add (.finite n) = .finite n := by
  simp [zero, add, ofNat, h]

theorem add_comm (a b : Count) : a.add b = b.add a := by
  cases a <;> cases b <;> simp [add, Nat.add_comm]

end Count

end SecureTape
