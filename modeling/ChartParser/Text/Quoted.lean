/-
Text between double quotes, and text inside a graph label.

Both write a character either as itself, as a two-character escape, or by its
code point in hexadecimal between braces.  They differ in what stays as it is:

* `quoted` — the form of terminals and payloads: everything a reader can see
  stays raw, in any script, and an apostrophe is not escaped;
* `labelText` — the form of a graph label: only printable ASCII stays raw, and
  both kinds of quote are escaped.
-/
import ChartParser.Text.Printable

namespace ChartParser.Text

/-- A code point in lower-case hexadecimal between braces, after `\u`. -/
def codePoint (c : Char) : String :=
  "\\u\x7b" ++ String.ofList (Nat.toDigits 16 c.toNat) ++ "\x7d"

/-- One character of quoted text. -/
def quotedChar (c : Char) : String :=
  if c = '\x00' then "\\0"
  else if c = '\t' then "\\t"
  else if c = '\r' then "\\r"
  else if c = '\n' then "\\n"
  else if c = '"' then "\\\""
  else if c = '\\' then "\\\\"
  else if isHidden c then codePoint c
  else c.toString

/-- A string between double quotes, with everything a reader could not see or
would misread escaped. -/
def quoted (s : String) : String :=
  "\"" ++ String.join (s.toList.map quotedChar) ++ "\""

/-- One character of a graph label. -/
def labelChar (c : Char) : String :=
  if c = '\t' then "\\t"
  else if c = '\r' then "\\r"
  else if c = '\n' then "\\n"
  else if c = '\'' then "\\'"
  else if c = '"' then "\\\""
  else if c = '\\' then "\\\\"
  else if ' ' ≤ c ∧ c ≤ '~' then c.toString
  else codePoint c

/-- The inside of a graph label, without its quotes. -/
def labelText (s : String) : String :=
  String.join (s.toList.map labelChar)

end ChartParser.Text
