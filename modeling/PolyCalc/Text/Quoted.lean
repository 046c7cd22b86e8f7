import PolyCalc.Text.Printable
import PolyCalc.Text.Extending

/-!
# Quotations

How messages quote a character or a string. The quotation mark itself, the backslash and a few
controls have short escapes. A character that cannot be printed is written by its code point, and
so is an extending character, which would join what stands before it.
-/

namespace PolyCalc.Text

/-- A character by its code point, in hexadecimal without padding. -/
def codePoint (c : Char) : String :=
  "\\u\x7b" ++ String.ofList (Nat.toDigits 16 c.toNat) ++ "\x7d"

/-- A character inside a quotation between two marks. -/
def escape (mark : Char) (c : Char) : String :=
  if c = '\x00' then "\\0"
  else if c = '\t' then "\\t"
  else if c = '\n' then "\\n"
  else if c = '\r' then "\\r"
  else if c = '\\' then "\\\\"
  else if c = mark then "\\" ++ c.toString
  else if isPrintable c && !isExtending c then c.toString
  else codePoint c

def singleQuote : Char := '\x27'

def doubleQuote : Char := '\x22'

/-- A character in single quotes. -/
def quoteChar (c : Char) : String :=
  singleQuote.toString ++ escape singleQuote c ++ singleQuote.toString

/-- A string in double quotes. -/
def quote (s : String) : String :=
  doubleQuote.toString ++ String.join (s.toList.map (escape doubleQuote)) ++ doubleQuote.toString

end PolyCalc.Text
