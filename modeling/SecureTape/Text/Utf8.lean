/-!
# UTF-8 with replacement

Texts are stored as UTF-8. Reading never fails: each maximal part that begins no character, or
begins one and is cut short, becomes one U+FFFD.
-/

namespace SecureTape.Text

def utf8 (s : String) : List UInt8 :=
  s.toList.flatMap String.utf8EncodeChar

def replacement : Char := '�'

/-- The second bytes that may follow a lead byte, and the number of bytes after the lead. -/
def lead? (b : UInt8) : Option (Nat × Nat × Nat) :=
  let n := b.toNat
  if 0xc2 ≤ n ∧ n ≤ 0xdf then some (0x80, 0xbf, 1)
  else if n = 0xe0 then some (0xa0, 0xbf, 2)
  else if n = 0xed then some (0x80, 0x9f, 2)
  else if 0xe1 ≤ n ∧ n ≤ 0xef then some (0x80, 0xbf, 2)
  else if n = 0xf0 then some (0x90, 0xbf, 3)
  else if 0xf1 ≤ n ∧ n ≤ 0xf3 then some (0x80, 0xbf, 3)
  else if n = 0xf4 then some (0x80, 0x8f, 3)
  else none

def leadBits (b : UInt8) (tails : Nat) : Nat :=
  b.toNat % Nat.pow 2 (6 - tails)

/-- Read `tails` bytes after a lead, the first between `low` and `high` and the others between
0x80 and 0xbf. The answer is the code point, or `none` where the sequence is cut short, with the
number of bytes used. -/
def tailBytes (low high : Nat) (acc : Nat) : Nat → Nat → List UInt8 → Option Nat × Nat
  | 0, used, _ => (some acc, used)
  | _ + 1, used, [] => (none, used)
  | tails + 1, used, b :: bs =>
    if low ≤ b.toNat ∧ b.toNat ≤ high then
      tailBytes 0x80 0xbf (acc * 64 + b.toNat % 64) tails (used + 1) bs
    else (none, used)

/-- The character that starts with byte `b`, and how many of the bytes after `b` it takes. -/
def charAt (b : UInt8) (bs : List UInt8) : Char × Nat :=
  if b.toNat < 0x80 then (Char.ofNat b.toNat, 0)
  else match lead? b with
    | none => (replacement, 0)
    | some (low, high, tails) =>
      match tailBytes low high (leadBits b tails) tails 0 bs with
      | (some code, used) => (Char.ofNat code, used)
      | (none, used) => (replacement, used)

def charsOfUtf8 : List UInt8 → List Char
  | [] => []
  | b :: bs =>
    let (c, used) := charAt b bs
    c :: charsOfUtf8 (bs.drop used)
termination_by bytes => bytes.length
decreasing_by simp only [List.length_cons, List.length_drop]; omega

def ofUtf8 (bytes : List UInt8) : String :=
  String.ofList (charsOfUtf8 bytes)

end SecureTape.Text
