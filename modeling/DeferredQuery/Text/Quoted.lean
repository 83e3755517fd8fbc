import DeferredQuery.Text.Printable

/-!
# Quoted text

A text in double quotes. The quote, the backslash and the common blanks have escapes of two
characters; other characters that do not print, or that would attach to the character before
them, are written by code point.
-/

namespace DeferredQuery.Text

/-- A lower-case hexadecimal digit; the digit of a value above fifteen is not used. -/
def hexDigit (n : Nat) : Char :=
  if n < 10 then Char.ofNat (0x30 + n) else Char.ofNat (0x57 + n)

/-- The hexadecimal digits of a number, at most `places` of them, the highest first. -/
def hexDigits : (places : Nat) → Nat → List Char
  | 0, _ => []
  | places + 1, n => (if n < 16 then [] else hexDigits places (n / 16)) ++ [hexDigit (n % 16)]

def quoteChar (c : Char) : List Char :=
  if c = '"' then ['\\', '"']
  else if c = '\\' then ['\\', '\\']
  else if c = '\n' then ['\\', 'n']
  else if c = '\t' then ['\\', 't']
  else if c = '\r' then ['\\', 'r']
  else if c = '\x00' then ['\\', '0']
  else if isPrintable c && !extendsGrapheme c then [c]
  else ['\\', 'u', '\x7b'] ++ hexDigits 6 c.toNat ++ ['\x7d']

def quoted (s : String) : String :=
  String.ofList ('"' :: s.toList.flatMap quoteChar ++ ['"'])

end DeferredQuery.Text
