import SecureTape.Bytes
import SecureTape.Machine.Operand
import SecureTape.Text.Utf8

/-!
# Fields of the bytecode

An instruction starts with a code word of 64 bits: the code in the ten low bits and the vector
size above them, zero for an instruction without a vector form. Its operands are numbers of 32 or
64 bits and texts, which are either padded with zeros to a fixed field or have their length in
front.
-/

namespace SecureTape.Wire

def codeRange : Nat := Nat.pow 2 10

def wordRange : Nat := Nat.pow 2 64

def maxVectorSize : Nat := wordRange / codeRange - 1

def isVectorSize (size : Nat) : Bool :=
  1 ≤ size && size ≤ maxVectorSize

/-- The code word of a code and a vector size; bits that do not fit are dropped. -/
def codeWord (code size : Nat) : Nat :=
  (size * codeRange + code % codeRange) % wordRange

def splitWord (word : Nat) : Nat × Nat :=
  (word % codeRange, word / codeRange)

theorem splitWord_codeWord {code size : Nat} (hc : code < codeRange) (hs : size ≤ maxVectorSize) :
    splitWord (codeWord code size) = (code, size) := by
  simp only [codeRange, maxVectorSize, wordRange, Nat.pow_eq] at hc hs
  simp only [splitWord, codeWord, codeRange, wordRange, Nat.pow_eq, Prod.mk.injEq]
  omega

theorem codeWord_lt (code size : Nat) : codeWord code size < wordRange :=
  Nat.mod_lt _ (by decide)

/-! ## Writing -/

def word32 (value : Nat) : Bytes := bigEndian 4 value

def signed32 (value : Int) : Bytes := bigEndian 4 (toUnsigned 32 value)

def signed64 (value : Int) : Bytes := bigEndian 8 (toUnsigned 64 value)

/-- A text in a field of fixed width: cut at its end, or filled up with zeros. -/
def textField (s : String) : Bytes :=
  let bytes := (Text.utf8 s).take textFieldWidth
  bytes ++ List.replicate (textFieldWidth - bytes.length) 0

def longText (s : String) : Bytes :=
  let bytes := Text.utf8 s
  word32 bytes.length ++ bytes

@[simp] theorem length_word32 (value : Nat) : (word32 value).length = 4 := by simp [word32]

@[simp] theorem length_signed32 (value : Int) : (signed32 value).length = 4 := by simp [signed32]

@[simp] theorem length_signed64 (value : Int) : (signed64 value).length = 8 := by simp [signed64]

@[simp] theorem length_textField (s : String) : (textField s).length = textFieldWidth := by
  simp only [textField, List.length_append, List.length_take, List.length_replicate]
  omega

/-! ## Reading -/

/-- The text of a field of fixed width: its bytes up to the first zero. -/
def readTextField : Reader String :=
  (Reader.take textFieldWidth).map fun bytes => Text.ofUtf8 (bytes.takeWhile (· ≠ 0))

/-- A text with its length in front. The length is taken also when the text is cut short. -/
def readLongText : Reader String :=
  (Reader.unsigned 4).andThen fun length => (Reader.take length).map Text.ofUtf8

theorem shrinks_readTextField : readTextField.Shrinks := (Reader.shrinks_take _).map _

theorem shrinks_readLongText : readLongText.Shrinks :=
  (Reader.shrinks_unsigned 4).andThen fun n => (Reader.shrinks_take n).map _

end SecureTape.Wire
