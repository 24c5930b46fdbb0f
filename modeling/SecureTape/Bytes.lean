/-!
# Bytes and numbers

Numbers are stored with the most significant byte first, negative ones in two's complement. A
reader takes values from the front of a byte sequence; what it took is gone also when it fails
later on.
-/

namespace SecureTape

abbrev Bytes := List UInt8

/-- `n` bytes of a number, most significant byte first; higher bits are dropped. -/
def bigEndian : Nat → Nat → Bytes
  | 0, _ => []
  | n + 1, value => bigEndian n (value / 256) ++ [UInt8.ofNat value]

def ofBigEndian (bytes : Bytes) : Nat :=
  bytes.foldl (fun acc b => acc * 256 + b.toNat) 0

def toUnsigned (bits : Nat) (value : Int) : Nat :=
  (value % (Nat.pow 2 bits : Int)).toNat

def toSigned (bits : Nat) (value : Nat) : Int :=
  if value < Nat.pow 2 (bits - 1) then value else (value : Int) - (Nat.pow 2 bits : Int)

@[simp] theorem length_bigEndian (n value : Nat) : (bigEndian n value).length = n := by
  induction n generalizing value with
  | zero => rfl
  | succ n ih => simp [bigEndian, ih]

theorem ofBigEndian_append_singleton (bytes : Bytes) (b : UInt8) :
    ofBigEndian (bytes ++ [b]) = ofBigEndian bytes * 256 + b.toNat := by
  simp [ofBigEndian]

/-- A reader: a value from the front of the bytes, or none, and the bytes left over. -/
abbrev Reader (α : Type) := Bytes → Option α × Bytes

namespace Reader

variable {α β : Type}

def map (f : α → β) (r : Reader α) : Reader β := fun bytes =>
  let (value, rest) := r bytes
  (value.map f, rest)

def andThen (r : Reader α) (k : α → Reader β) : Reader β := fun bytes =>
  match r bytes with
  | (some a, rest) => k a rest
  | (none, rest) => (none, rest)

/-- The next `n` bytes. Nothing is taken when there are fewer. -/
def take (n : Nat) : Reader Bytes := fun bytes =>
  if bytes.length < n then (none, bytes) else (some (bytes.take n), bytes.drop n)

def unsigned (n : Nat) : Reader Nat :=
  (take n).map ofBigEndian

def signed (n : Nat) : Reader Int :=
  (unsigned n).map (toSigned (8 * n))

def Shrinks (r : Reader α) : Prop :=
  ∀ bytes, (r bytes).2.length ≤ bytes.length

theorem Shrinks.map {r : Reader α} (h : r.Shrinks) (f : α → β) : (r.map f).Shrinks := h

theorem Shrinks.andThen {r : Reader α} {k : α → Reader β} (hr : r.Shrinks)
    (hk : ∀ a, (k a).Shrinks) : (r.andThen k).Shrinks := by
  intro bytes
  unfold Reader.andThen
  have hle := hr bytes
  split
  · rename_i a rest heq
    rw [heq] at hle
    exact Nat.le_trans (hk a rest) hle
  · rename_i rest heq
    rwa [heq] at hle

theorem shrinks_take (n : Nat) : (take n).Shrinks := by
  intro bytes
  unfold take
  split <;> simp

theorem shrinks_unsigned (n : Nat) : (unsigned n).Shrinks := (shrinks_take n).map _

theorem shrinks_signed (n : Nat) : (signed n).Shrinks := (shrinks_unsigned n).map _

theorem take_eq_some_iff {n : Nat} {bytes a rest : Bytes} :
    take n bytes = (some a, rest) ↔ bytes = a ++ rest ∧ a.length = n := by
  unfold take
  constructor
  · intro h
    split at h
    · simp at h
    · simp only [Prod.mk.injEq, Option.some.injEq] at h
      obtain ⟨rfl, rfl⟩ := h
      refine ⟨(List.take_append_drop n bytes).symm, ?_⟩
      rw [List.length_take]
      omega
  · rintro ⟨rfl, rfl⟩
    simp

end Reader

end SecureTape
