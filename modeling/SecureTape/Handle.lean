/-!
# Handles

Tapes, blocks and registers are referred to by number. All are numbered in the order in which they
are made: tapes in the program, blocks and registers in their tape.
-/

namespace SecureTape

abbrev TapeId := Nat

abbrev BlockId := Nat

structure PoolId where
  tape : TapeId
  block : BlockId
  deriving Repr, DecidableEq, Inhabited

structure Reg where
  tape : TapeId
  id : Nat
  deriving Repr, DecidableEq, Inhabited

def Reg.debugText (r : Reg) : String :=
  "Reg \x7b tape: TapeId(" ++ toString r.tape ++ "), id: " ++ toString r.id ++ " \x7d"

end SecureTape
