/-!
# White space and lines

Texts are cut at white space in the sense of the Unicode `White_Space` property, and into lines at
line feeds. A carriage return directly before a line feed belongs to the line end, and a text that
ends with a line feed has no empty last line.
-/

namespace SecureTape.Text

/-- The code points with the Unicode property `White_Space`. -/
def isBlank (c : Char) : Bool :=
  let n := c.toNat
  (0x9 ≤ n && n ≤ 0xd) || n == 0x20 || n == 0x85 || n == 0xa0 || n == 0x1680 ||
    (0x2000 ≤ n && n ≤ 0x200a) || n == 0x2028 || n == 0x2029 || n == 0x202f || n == 0x205f ||
    n == 0x3000

def trim (cs : List Char) : List Char :=
  ((cs.dropWhile isBlank).reverse.dropWhile isBlank).reverse

/-- The maximal runs of characters that are not blank, in order; `acc` is the run being read,
last character first. -/
def wordsFrom : List Char → List Char → List (List Char)
  | acc, [] => if acc.isEmpty then [] else [acc.reverse]
  | acc, c :: cs =>
    if isBlank c then
      if acc.isEmpty then wordsFrom [] cs else acc.reverse :: wordsFrom [] cs
    else wordsFrom (c :: acc) cs

def words (cs : List Char) : List (List Char) :=
  wordsFrom [] cs

/-- A line without the carriage return that belonged to its line end; the line is given last
character first. -/
def closeLine : List Char → List Char
  | '\r' :: acc => acc.reverse
  | acc => acc.reverse

/-- The lines of a text; `acc` is the line being read, last character first. A last line that is
not ended keeps a carriage return. -/
def linesFrom : List Char → List Char → List (List Char)
  | acc, [] => if acc.isEmpty then [] else [acc.reverse]
  | acc, c :: cs => if c = '\n' then closeLine acc :: linesFrom [] cs else linesFrom (c :: acc) cs

def lines (cs : List Char) : List (List Char) :=
  linesFrom [] cs

def dropHead? : List Char → List Char → Option (List Char)
  | [], cs => some cs
  | _ :: _, [] => none
  | h :: hs, c :: cs => if h = c then dropHead? hs cs else none

@[simp] theorem dropHead?_append (head cs : List Char) :
    dropHead? head (head ++ cs) = some cs := by
  induction head with
  | nil => rfl
  | cons h hs ih => simp [dropHead?, ih]

/-- What stands before and after the last `mark`, if there is one. -/
def splitLast? (mark : Char) (cs : List Char) : Option (List Char × List Char) :=
  let rev := cs.reverse
  match rev.dropWhile (· ≠ mark) with
  | [] => none
  | _ :: before => some (before.reverse, (rev.takeWhile (· ≠ mark)).reverse)

end SecureTape.Text
