/-!
# Compiler options

The arithmetic a program computes in, the passes that run on it, and the limits that the
allocators keep.
-/

namespace SecureTape

/-- The structure that instructions of the base domain compute in. -/
inductive Arithmetic where
  | prime (bits : Nat)
  /-- The integers modulo `2 ^ bits`. -/
  | ring (bits : Nat)
  deriving Repr, DecidableEq, Inhabited

namespace Arithmetic

def bits : Arithmetic → Nat
  | .prime bits | .ring bits => bits

def isRing : Arithmetic → Bool
  | .prime _ => false
  | .ring _ => true

def description : Arithmetic → String
  | .prime bits => s!"{bits}-bit prime field"
  | .ring bits => s!"ring modulo 2^{bits}"

end Arithmetic

structure Options where
  arithmetic : Arithmetic := .prime 64
  security : Nat := 40
  galoisLength : Nat := 40
  mergeRounds : Bool := true
  /-- Remove every unused instruction, not only loads of immediates. -/
  fullDeadCode : Bool := false
  /-- Reuse registers; otherwise virtual numbers are emitted. -/
  reallocate : Bool := true
  cacheMacros : Bool := true
  macroCallThreshold : Nat := 10000
  reuseMemory : Bool := true
  registerLimit : Nat := Nat.pow 2 20
  memoryLimit : Nat := Nat.pow 2 36
  deriving Repr, DecidableEq, Inhabited

inductive OptionFault where
  | ringBits (bits : Nat)
  | primeBits (bits : Nat)
  | galoisLength (bits : Nat)
  | zeroRegisterLimit
  | zeroMemoryLimit
  | zeroMacroThreshold
  deriving Repr, DecidableEq

def OptionFault.message : OptionFault → String
  | .ringBits bits => s!"ring bit width {bits} not in range [2, 1024]"
  | .primeBits bits => s!"prime bit length {bits} not in range [3, 4096]"
  | .galoisLength bits => s!"extension field length {bits} not in range [1, 128]"
  | .zeroRegisterLimit => "register limit must be positive"
  | .zeroMemoryLimit => "memory limit must be positive"
  | .zeroMacroThreshold => "macro call threshold must be positive"

def OptionFault.report (f : OptionFault) : String := "Invalid configuration: " ++ f.message

namespace Options

def scheduleNotes (o : Options) : List String :=
  (if o.fullDeadCode then ["dead_code_elimination"] else []) ++
    (if o.mergeRounds then [] else ["no_merge"]) ++
    (if o.reallocate then [] else ["noreallocate"])

def arithmeticFault? : Arithmetic → Option OptionFault
  | .ring bits => if 2 ≤ bits ∧ bits ≤ 1024 then none else some (.ringBits bits)
  | .prime bits => if 3 ≤ bits ∧ bits ≤ 4096 then none else some (.primeBits bits)

def fault? (o : Options) : Option OptionFault :=
  arithmeticFault? o.arithmetic <|>
  (if 1 ≤ o.galoisLength ∧ o.galoisLength ≤ 128 then none
    else some (.galoisLength o.galoisLength)) <|>
  (if o.registerLimit = 0 then some .zeroRegisterLimit else none) <|>
  (if o.memoryLimit = 0 then some .zeroMemoryLimit else none) <|>
  (if o.macroCallThreshold = 0 then some .zeroMacroThreshold else none)

def description (o : Options) : String :=
  "CompilerOptions \x7b " ++ o.arithmetic.description ++
    s!", sec: {o.security}, lg2: {o.galoisLength}, merge: {o.mergeRounds}, dce: " ++
    s!"{o.fullDeadCode}, realloc: {o.reallocate}, cisc: {o.cacheMacros} \x7d"

end Options

end SecureTape
