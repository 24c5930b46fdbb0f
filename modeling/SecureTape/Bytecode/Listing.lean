import SecureTape.Bytecode.Decoded
import SecureTape.Text.Quoted

/-!
# Listings

The text of decoded instructions, and the listing of a tape: a line per instruction with its byte
offset, its number and, for a jump, the number of the instruction it goes to. A tape that cannot
be decoded to its end is listed up to the fault.
-/

namespace SecureTape

def DecodeFault.message : DecodeFault → String
  | .unknownOpcode code => "Unknown opcode: 0x" ++ Text.padLeft 3 '0' (Text.natToHex code)
  | .truncated offset => s!"Truncated instruction at byte {offset}"
  | .invalidOperandCount opcode count => s!"Operand count {count} does not fit {opcode.name}"
  | .invalidVectorSize opcode size => s!"Invalid vector prefix {size} for {opcode.name}"

def instructionText (opcode : Opcode) (domain : FieldDomain) (size : Nat)
    (operands : List String) : String :=
  (if domain = .extension then "g" else "") ++
    (if opcode.isVector && 1 < size then "v" ++ toString size else "") ++
    opcode.name ++
    (if operands.isEmpty then "" else " " ++ ", ".intercalate operands)

def DecodedOperand.render : DecodedOperand → String
  | .reg cls index => cls.letters ++ toString index
  | .anyReg index => "r" ++ toString index
  | .callee index => "@" ++ toString index
  | .number value => toString value
  | .text value => Text.quoted value

def DecodedInstruction.render (inst : DecodedInstruction) : String :=
  instructionText inst.opcode inst.domain inst.size (inst.operands.map (·.render))

namespace Bytecode

def listingLine (index : Nat) (inst : DecodedInstruction) : String :=
  Text.padLeft 8 '0' (Text.natToHex inst.offset).toUpper ++ "  " ++
    Text.padLeft 5 ' ' (toString index) ++ "  " ++ inst.render ++
    match inst.jumpOffset? with
    | some offset => "  ; -> " ++ toString ((index : Int) + 1 + offset)
    | none => ""

def listing (bytes : Bytes) : List String :=
  let (insts, fault) := decodeFrom 0 bytes
  ["; Tape bytecode disassembly",
    s!"; Size: {bytes.length} bytes ({insts.length} instructions)",
    ""] ++
    insts.mapIdx listingLine ++
    match fault with
    | some fault => ["; ERROR: " ++ fault.message]
    | none => []

end Bytecode

end SecureTape
