import SecureTape.Machine.RegisterClass
import SecureTape.Requirement.Count

/-!
# Tallies

A tally counts the resources that a piece of a program needs. Its entries are kept in the order of
the resources, and resources without an entry count zero.
-/

namespace SecureTape

inductive Resource where
  | data (domain : FieldDomain) (kind : DataKind)
  | input (domain : FieldDomain) (player : Nat)
  /-- Extended double-authenticated bits of a length. -/
  | edabit (strict : Bool) (length : Nat)
  | rounds
  | groups
  deriving Repr, DecidableEq, Inhabited

namespace Resource

/-- The key that orders resources: data, inputs, extended bits, rounds, groups. -/
def sortKey : Resource → List Nat
  | .data domain kind => [0, domain.code, kind.code]
  | .input domain player => [1, domain.code, player]
  | .edabit strict length => [2, strict.toNat, length]
  | .rounds => [3]
  | .groups => [4]

def before (a b : Resource) : Bool :=
  a.sortKey < b.sortKey

def text : Resource → String
  | .data domain kind => s!"{domain.name} {kind.name}s"
  | .input domain player => s!"{domain.name} input from player {player}"
  | .edabit strict length =>
    (if strict then "strict" else "loose") ++ " edabits of length " ++ toString length
  | .rounds => "rounds"
  | .groups => "merged groups"

end Resource

structure Tally where
  /-- Resources with their counts, in order and each at most once. -/
  entries : List (Resource × Count) := []
  deriving Repr, DecidableEq, Inhabited

namespace Tally

def empty : Tally := {}

def get (t : Tally) (r : Resource) : Count :=
  (t.entries.lookup r).getD .zero

/-- The entries with the count of `r` changed; a missing entry is put in its place. -/
def alter (r : Resource) (f : Count → Count) : List (Resource × Count) → List (Resource × Count)
  | [] => [(r, f .zero)]
  | (k, n) :: rest =>
    if r = k then (k, f n) :: rest
    else if r.before k then (r, f .zero) :: (k, n) :: rest
    else (k, n) :: alter r f rest

def increment (t : Tally) (r : Resource) (n : Count) : Tally :=
  if n.isZero then t else ⟨alter r (·.add n) t.entries⟩

def sum (t u : Tally) : Tally :=
  u.entries.foldl (fun t e => t.increment e.1 e.2) t

def max (t u : Tally) : Tally :=
  u.entries.foldl (fun t e => ⟨alter e.1 (·.max e.2) t.entries⟩) t

def scale (t : Tally) (n : Count) : Tally :=
  t.entries.foldl (fun acc e => acc.increment e.1 (e.2.mul n)) empty

/-- The tally whose nonzero counts are unbounded. -/
def unbound (t : Tally) : Tally :=
  ⟨t.entries.map fun e => (e.1, if e.2.isZero then e.2 else .unbounded)⟩

def isEmpty (t : Tally) : Bool :=
  t.entries.all fun e => e.2.isZero

def hasUnbounded (t : Tally) : Bool :=
  t.entries.any fun e => e.2.isUnbounded

def text (t : Tally) : String :=
  let items := (t.entries.filter fun e => !e.2.isZero).map fun e => e.2.text ++ " " ++ e.1.text
  if items.isEmpty then "nothing" else ", ".intercalate items

def ofList (items : List (Resource × Count)) : Tally :=
  items.foldl (fun t e => t.increment e.1 e.2) empty

end Tally

end SecureTape
