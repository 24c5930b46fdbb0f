import SecureTape.Machine.Operand

/-!
# Faults of single operands

An operand is refused when it has the wrong kind, class or size, when a number does not fit its
field, or when a text is too long or not plain ASCII.
-/

namespace SecureTape

inductive OperandFault where
  | immediateRange (value : Int) (bits : Nat)
  | invalidPlayer (value : Int)
  | textTooLong (length max : Nat)
  | invalidText
  | wrongClass (expected actual : RegisterClass)
  | wrongSize (expected actual : Nat)
  | wrongKind (expected : OperandFormat)
  deriving Repr, DecidableEq

namespace OperandFault

def message : OperandFault → String
  | .immediateRange value bits => s!"immediate {value} does not fit in {bits} bits"
  | .invalidPlayer value => s!"player number {value} is negative or too large"
  | .textTooLong length max => s!"string of {length} bytes exceeds {max}"
  | .invalidText => "string contains non-ASCII or NUL characters"
  | .wrongClass expected actual =>
    s!"expected {expected.letters} register, found {actual.letters}"
  | .wrongSize expected actual =>
    s!"register of size {actual} used in instruction of size {expected}"
  | .wrongKind expected => s!"expected {expected.name}"

def report (f : OperandFault) : String := "Invalid operand: " ++ f.message

end OperandFault

def fitsSigned32 (value : Int) : Bool :=
  -(Nat.pow 2 31 : Int) ≤ value && value < (Nat.pow 2 31 : Int)

def checkNumber (format : OperandFormat) (value : Int) : Except OperandFault Unit :=
  match format with
  | .imm | .int => if fitsSigned32 value then .ok () else .error (.immediateRange value 32)
  | .long => .ok ()
  | .player => if 0 ≤ value ∧ fitsSigned32 value then .ok () else .error (.invalidPlayer value)
  | other => .error (.wrongKind other)

/-- Texts of instructions are plain ASCII without NUL. -/
def isPlainText (s : String) : Bool :=
  s.toList.all fun c => c.toNat < 0x80 && c.toNat ≠ 0

def maxLongText : Nat := Nat.pow 2 32 - 1

def checkText (format : OperandFormat) (s : String) : Except OperandFault Unit :=
  if isPlainText s then
    match format with
    | .text =>
      if s.utf8ByteSize ≤ textFieldWidth then .ok ()
      else .error (.textTooLong s.utf8ByteSize textFieldWidth)
    | .longText =>
      if s.utf8ByteSize ≤ maxLongText then .ok ()
      else .error (.textTooLong s.utf8ByteSize maxLongText)
    | other => .error (.wrongKind other)
  else .error .invalidText

end SecureTape
