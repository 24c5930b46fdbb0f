import SecureTape.Text.CharClass
import SecureTape.Text.Numeral

/-!
# Quoted texts

A quoted text stands between double quotes. The double quote, the backslash and the usual controls
have short escapes; every other character that would not be seen on its own is written by its code
point in hexadecimal.
-/

namespace SecureTape.Text

def codePointEscape (c : Char) : List Char :=
  ['\\', 'u', '\x7b'] ++ Nat.toDigits 16 c.toNat ++ ['\x7d']

def quotedChar (c : Char) : List Char :=
  if c = '\x00' then ['\\', '0']
  else if c = '\t' then ['\\', 't']
  else if c = '\r' then ['\\', 'r']
  else if c = '\n' then ['\\', 'n']
  else if c = '\\' then ['\\', '\\']
  else if c = '"' then ['\\', '"']
  else if isHidden c.toNat then codePointEscape c
  else [c]

def quoted (s : String) : String :=
  String.ofList (['"'] ++ s.toList.flatMap quotedChar ++ ['"'])

end SecureTape.Text
