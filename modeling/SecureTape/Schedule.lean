import SecureTape.Bytes
import SecureTape.Options
import SecureTape.Text.Blank
import SecureTape.Text.Numeral

/-!
# Schedules

A schedule tells the runtime which tapes a program has and what it expects from its surroundings.
Its text form has eleven lines: the number of parallel tapes, the number of tapes, the tapes with
their lengths, two constant lines, the program's name, the arithmetic, the notes, the security
parameter, the length of the extension field, and the digest of all bytecode.
-/

namespace SecureTape

structure ScheduleEntry where
  name : String
  length : Nat
  deriving Repr, DecidableEq

structure Schedule where
  programName : String
  maxParallelTapes : Nat
  tapes : List ScheduleEntry
  arithmetic : Arithmetic
  notes : List String
  security : Nat
  galoisLength : Nat
  digest : Bytes
  deriving Repr, DecidableEq

inductive ScheduleFlaw where
  | missingLine
  | expectedNumber
  | expectedEntry
  | countMismatch
  | unknownArithmetic
  | expectedNotes
  | unexpectedField
  | expectedDigest
  | invalidDigest
  deriving Repr, DecidableEq

def ScheduleFlaw.message : ScheduleFlaw → String
  | .missingLine => "missing line"
  | .expectedNumber => "expected a number"
  | .expectedEntry => "expected name:length"
  | .countMismatch => "tape count mismatch"
  | .unknownArithmetic => "unknown domain"
  | .expectedNotes => "expected opts:"
  | .unexpectedField => "unexpected field"
  | .expectedDigest => "expected hash:"
  | .invalidDigest => "invalid hash"

/-- The first flaw of a schedule's text and the line it is on; the first line is line 0. -/
structure ScheduleFault where
  line : Nat
  flaw : ScheduleFlaw
  deriving Repr, DecidableEq

/-- The wording of a fault, which counts lines from 1. -/
def ScheduleFault.message (f : ScheduleFault) : String :=
  s!"Malformed schedule at line {f.line + 1}: {f.flaw.message}"

namespace Schedule

/-! ## Writing -/

def entryText (e : ScheduleEntry) : String :=
  e.name ++ ":" ++ toString e.length

def arithmeticText : Arithmetic → String
  | .ring bits => "R:" ++ toString bits
  | .prime bits => "lgp:" ++ toString bits

def textLines (s : Schedule) : List String := [
  toString s.maxParallelTapes,
  toString s.tapes.length,
  " ".intercalate (s.tapes.map entryText),
  "1 0",
  "0",
  s.programName,
  arithmeticText s.arithmetic,
  "opts: " ++ " ".intercalate s.notes,
  "sec:" ++ toString s.security,
  "lg2:" ++ toString s.galoisLength,
  "hash:" ++ Text.toHex s.digest]

/-- The text of a schedule: each line is ended by a line feed. -/
def toText (s : Schedule) : String :=
  String.join (s.textLines.map (· ++ "\n"))

/-! ## Reading -/

def lineAt (lines : List (List Char)) (n : Nat) : Except ScheduleFault (List Char) :=
  match lines[n]? with
  | some line => .ok line
  | none => .error ⟨n, .missingLine⟩

def number (bound : Nat) (cs : List Char) (n : Nat) : Except ScheduleFault Nat :=
  match Text.numeral? 10 bound (Text.trim cs) with
  | some value => .ok value
  | none => .error ⟨n, .expectedNumber⟩

/-- One more than the largest number of 32 and of 64 bits. -/
def range32 : Nat := Nat.pow 2 32
@[inherit_doc range32] def range64 : Nat := Nat.pow 2 64

def readEntry (item : List Char) : Except ScheduleFault ScheduleEntry :=
  match Text.splitLast? ':' item with
  | some (name, length) => do
    return ⟨String.ofList name, ← number range64 length 2⟩
  | none => .error ⟨2, .expectedEntry⟩

def readArithmetic (line : List Char) : Except ScheduleFault Arithmetic :=
  match Text.dropHead? "R:".toList line with
  | some bits => .ring <$> number range32 bits 6
  | none =>
    match Text.dropHead? "lgp:".toList line with
    | some bits => .prime <$> number range32 bits 6
    | none => .error ⟨6, .unknownArithmetic⟩

def afterHead (head : String) (flaw : ScheduleFlaw) (line : List Char) (n : Nat) :
    Except ScheduleFault (List Char) :=
  match Text.dropHead? head.toList line with
  | some rest => .ok rest
  | none => .error ⟨n, flaw⟩

/-- The digest of a line: 64 ASCII characters, two for each byte. -/
def readDigest (cs : List Char) : Except ScheduleFault Bytes :=
  if cs.length = 64 ∧ cs.all (·.toNat < 0x80) then
    match Text.ofHexPairs? cs with
    | some bytes => .ok bytes
    | none => .error ⟨10, .invalidDigest⟩
  else .error ⟨10, .invalidDigest⟩

def ofLines (lines : List (List Char)) : Except ScheduleFault Schedule := do
  let maxParallelTapes ← number range32 (← lineAt lines 0) 0
  let count ← number range64 (← lineAt lines 1) 1
  let tapes ← (Text.words (← lineAt lines 2)).mapM readEntry
  if tapes.length ≠ count then
    throw ⟨2, .countMismatch⟩
  let programName ← lineAt lines 5
  let arithmetic ← readArithmetic (← lineAt lines 6)
  let notes ← afterHead "opts:" .expectedNotes (← lineAt lines 7) 7
  let security ← number range32 (← afterHead "sec:" .unexpectedField (← lineAt lines 8) 8) 8
  let galoisLength ← number range32 (← afterHead "lg2:" .unexpectedField (← lineAt lines 9) 9) 9
  let digest ← readDigest (← afterHead "hash:" .expectedDigest (← lineAt lines 10) 10)
  return {
    programName := String.ofList programName
    maxParallelTapes, tapes, arithmetic
    notes := (Text.words notes).map String.ofList
    security, galoisLength, digest }

def parse (text : String) : Except ScheduleFault Schedule :=
  ofLines (Text.lines text.toList)

end Schedule

end SecureTape
