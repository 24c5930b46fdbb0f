import SecureTape.Machine.RegisterClass

/-!
# Operand formats

Each opcode declares the format of its operands. A fixed layout lists one format per operand; a
grouped layout has a head and then any number of copies of a group.
-/

namespace SecureTape

inductive Access where
  | read
  | write
  | readWrite
  deriving Repr, DecidableEq, Inhabited

namespace Access

def reads : Access → Bool
  | .write => false
  | _ => true

def writes : Access → Bool
  | .read => false
  | _ => true

end Access

inductive OperandFormat where
  | reg (cls : RegisterClass) (access : Access)
  | anyReg (access : Access)
  | callee
  /-- A signed value of 32 bits. -/
  | imm
  /-- A signed integer of 32 bits. -/
  | int
  /-- A signed integer of 64 bits. -/
  | long
  /-- The number of a player, not negative, in 32 bits. -/
  | player
  /-- A text of at most sixteen bytes, padded with zeros. -/
  | text
  /-- A text with its length in front. -/
  | longText
  deriving Repr, DecidableEq, Inhabited

def textFieldWidth : Nat := 16

namespace OperandFormat

def isRegister : OperandFormat → Bool
  | .reg .. | .anyReg _ => true
  | _ => false

def isText : OperandFormat → Bool
  | .text | .longText => true
  | _ => false

def access? : OperandFormat → Option Access
  | .reg _ a | .anyReg a => some a
  | _ => none

def inDomain (f : OperandFormat) (d : FieldDomain) : OperandFormat :=
  match f with
  | .reg c a => .reg (c.inDomain d) a
  | other => other

/-- The bytes an operand takes; a text with its length in front has no fixed width. -/
def width? : OperandFormat → Option Nat
  | .long => some 8
  | .text => some textFieldWidth
  | .longText => none
  | _ => some 4

def name : OperandFormat → String
  | .reg c .read => c.letters
  | .reg c .write => c.letters ++ "w"
  | .reg c .readWrite => c.letters ++ "rw"
  | .anyReg .read => "r"
  | .anyReg _ => "rw"
  | .callee => "callee"
  | .imm => "i"
  | .int => "int"
  | .long => "long"
  | .player => "p"
  | .text => "str"
  | .longText => "varstr"

end OperandFormat

inductive OperandLayout where
  | fixed (formats : List OperandFormat)
  /-- A head, then copies of a group; the operand count is part of the encoding. -/
  | grouped (head group : List OperandFormat)
  deriving Repr, DecidableEq, Inhabited

namespace OperandLayout

def isGrouped : OperandLayout → Bool
  | .fixed _ => false
  | .grouped .. => true

def headLength : OperandLayout → Nat
  | .fixed formats => formats.length
  | .grouped head _ => head.length

/-- The operands of one group; a fixed layout has no groups. -/
def groupLength : OperandLayout → Nat
  | .fixed _ => 0
  | .grouped _ group => group.length

def formats? (layout : OperandLayout) (count : Nat) : Option (List OperandFormat) :=
  match layout with
  | .fixed formats => if formats.length = count then some formats else none
  | .grouped head group =>
    if count < head.length ∨ group.isEmpty ∨ (count - head.length) % group.length ≠ 0 then none
    else some (head ++ (List.replicate ((count - head.length) / group.length) group).flatten)

def arity : OperandLayout → String
  | .fixed formats => toString formats.length
  | .grouped head group => s!"{head.length} + {group.length}*k"

theorem length_of_formats? {layout : OperandLayout} {count : Nat} {fs : List OperandFormat}
    (h : layout.formats? count = some fs) : fs.length = count := by
  cases layout with
  | fixed formats =>
    simp only [formats?] at h
    split at h <;> simp_all
  | grouped head group =>
    simp only [formats?] at h
    split at h
    · simp at h
    · rename_i hne
      simp only [not_or, Nat.not_lt, ne_eq, Decidable.not_not] at hne
      obtain ⟨hle, -, hmod⟩ := hne
      simp only [Option.some.injEq] at h
      subst h
      have := Nat.div_add_mod (count - head.length) group.length
      simp only [List.length_append, List.length_flatten, List.map_replicate,
        List.sum_replicate_nat]
      rw [Nat.mul_comm]
      omega

end OperandLayout

end SecureTape
