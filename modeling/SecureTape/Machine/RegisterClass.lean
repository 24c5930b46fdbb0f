/-!
# Register classes and field domains

The machine has five register files: public and secret values of the base field, public and secret
values of the extension field, and public integers. Instructions on field values come in a base
form and, for some opcodes, in an extension form whose registers are those of the extension field.
-/

namespace SecureTape

inductive FieldDomain where
  /-- The configured prime field or ring. -/
  | base
  /-- The binary extension field. -/
  | extension
  deriving Repr, DecidableEq, Inhabited

namespace FieldDomain

def all : List FieldDomain := [.base, .extension]

def code : FieldDomain → Nat
  | .base => 0
  | .extension => 1

def ofCode? (code : Int) : Option FieldDomain :=
  all.find? fun d => (d.code : Int) = code

def name : FieldDomain → String
  | .base => "modp"
  | .extension => "gf2n"

@[simp] theorem ofCode?_code (d : FieldDomain) : ofCode? d.code = some d := by
  cases d <;> rfl

end FieldDomain

inductive RegisterClass where
  /-- Public values of the base field. -/
  | clear
  /-- Secret values of the base field. -/
  | secret
  /-- Public values of the extension field. -/
  | clearExt
  /-- Secret values of the extension field. -/
  | secretExt
  /-- Public integers. -/
  | int
  deriving Repr, DecidableEq, Inhabited

namespace RegisterClass

def all : List RegisterClass := [.clear, .secret, .clearExt, .secretExt, .int]

def index : RegisterClass → Nat
  | .clear => 0
  | .secret => 1
  | .clearExt => 2
  | .secretExt => 3
  | .int => 4

def ofIndex? (i : Nat) : Option RegisterClass :=
  all[i]?

def letters : RegisterClass → String
  | .clear => "c"
  | .secret => "s"
  | .clearExt => "cg"
  | .secretExt => "sg"
  | .int => "ci"

def ofLetters? (s : String) : Option RegisterClass :=
  all.find? fun c => c.letters == s

def isSecret : RegisterClass → Bool
  | .secret | .secretExt => true
  | _ => false

def isClear (c : RegisterClass) : Bool := !c.isSecret

def isExtension : RegisterClass → Bool
  | .clearExt | .secretExt => true
  | _ => false

/-- The class that stands for `c` in the instruction form of a domain. Integers and classes that
are in the extension field already stay as they are. -/
def inDomain (c : RegisterClass) : FieldDomain → RegisterClass
  | .base => c
  | .extension =>
    match c with
    | .clear => .clearExt
    | .secret => .secretExt
    | other => other

/-- The domain a class computes in; integers have none. -/
def domain? : RegisterClass → Option FieldDomain
  | .clear | .secret => some .base
  | .clearExt | .secretExt => some .extension
  | .int => none

theorem mem_all (c : RegisterClass) : c ∈ all := by
  cases c <;> decide

@[simp] theorem ofIndex?_index (c : RegisterClass) : ofIndex? c.index = some c := by
  cases c <;> rfl

end RegisterClass

structure PerClass (α : Type) where
  clear : α
  secret : α
  clearExt : α
  secretExt : α
  int : α
  deriving Repr, DecidableEq, Inhabited

namespace PerClass

variable {α β : Type}

def fill (a : α) : PerClass α := ⟨a, a, a, a, a⟩

def get (t : PerClass α) : RegisterClass → α
  | .clear => t.clear
  | .secret => t.secret
  | .clearExt => t.clearExt
  | .secretExt => t.secretExt
  | .int => t.int

def set (t : PerClass α) (c : RegisterClass) (a : α) : PerClass α :=
  match c with
  | .clear => { t with clear := a }
  | .secret => { t with secret := a }
  | .clearExt => { t with clearExt := a }
  | .secretExt => { t with secretExt := a }
  | .int => { t with int := a }

def toList (t : PerClass α) : List α :=
  RegisterClass.all.map t.get

@[simp] theorem get_fill (a : α) (c : RegisterClass) : (fill a).get c = a := by
  cases c <;> rfl

@[simp] theorem get_set_self (t : PerClass α) (c : RegisterClass) (a : α) :
    (t.set c a).get c = a := by
  cases c <;> rfl

theorem get_set_of_ne (t : PerClass α) {c d : RegisterClass} (a : α) (h : d ≠ c) :
    (t.set c a).get d = t.get d := by
  cases c <;> cases d <;> simp_all [set, get]

theorem get_set (t : PerClass α) (c d : RegisterClass) (a : α) :
    (t.set c a).get d = if d = c then a else t.get d := by
  split
  · subst d; simp
  · exact get_set_of_ne t a (by assumption)

end PerClass

inductive DataKind where
  | triple
  | square
  | bit
  | inverse
  | dabit
  | mixed
  | random
  | opening
  deriving Repr, DecidableEq, Inhabited

namespace DataKind

def all : List DataKind := [.triple, .square, .bit, .inverse, .dabit, .mixed, .random, .opening]

def code : DataKind → Nat
  | .triple => 0
  | .square => 1
  | .bit => 2
  | .inverse => 3
  | .dabit => 4
  | .mixed => 5
  | .random => 6
  | .opening => 7

def ofCode? (code : Int) : Option DataKind :=
  all.find? fun k => (k.code : Int) = code

def name : DataKind → String
  | .triple => "triple"
  | .square => "square"
  | .bit => "bit"
  | .inverse => "inverse"
  | .dabit => "dabit"
  | .mixed => "mixed"
  | .random => "random"
  | .opening => "open"

@[simp] theorem ofCode?_code (k : DataKind) : ofCode? k.code = some k := by
  cases k <;> rfl

end DataKind

end SecureTape
