/-!
# Numerals

Reading of unsigned numerals in a base up to sixteen: an optional `+`, then at least one digit, and
nothing else. A numeral is refused when its value does not lie below the given bound. Hexadecimal
numerals write bytes as two lower-case digits.
-/

namespace SecureTape.Text

def digit? (base : Nat) (c : Char) : Option Nat :=
  let n := c.toNat
  let value? :=
    if 0x30 ≤ n ∧ n ≤ 0x39 then some (n - 0x30)
    else if 0x61 ≤ n ∧ n ≤ 0x66 then some (n - 0x61 + 10)
    else if 0x41 ≤ n ∧ n ≤ 0x46 then some (n - 0x41 + 10)
    else none
  value?.filter (· < base)

def digitsValue? (base : Nat) : Nat → List Char → Option Nat
  | acc, [] => some acc
  | acc, c :: cs => do digitsValue? base (acc * base + (← digit? base c)) cs

def numeral? (base bound : Nat) (cs : List Char) : Option Nat :=
  let digits := match cs with
    | '+' :: rest => rest
    | _ => cs
  if digits.isEmpty then none else (digitsValue? base 0 digits).filter (· < bound)

def hexDigit (n : Nat) : Char :=
  Nat.digitChar (n % 16)

def hexByte (b : UInt8) : List Char :=
  [hexDigit (b.toNat / 16), hexDigit (b.toNat % 16)]

def toHex (bytes : List UInt8) : String :=
  String.ofList (bytes.flatMap hexByte)

/-- Bytes from a text cut into pairs of characters, each pair an unsigned hexadecimal numeral. -/
def ofHexPairs? : List Char → Option (List UInt8)
  | [] => some []
  | [_] => none
  | a :: b :: rest => do
    let byte ← numeral? 16 256 [a, b]
    return UInt8.ofNat byte :: (← ofHexPairs? rest)

def natToHex (n : Nat) : String :=
  String.ofList (Nat.toDigits 16 n)

def padLeft (width : Nat) (fill : Char) (s : String) : String :=
  String.ofList (List.replicate (width - s.length) fill) ++ s

end SecureTape.Text
