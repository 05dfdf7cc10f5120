import JvmClass.Text.Printable

/-!
# Quoted text

Messages show texts and characters between quotes. A backslash, the quote itself, and the usual
control characters are written with a backslash; any other character that is not shown as itself is
written as its code point in hexadecimal between braces.
-/

namespace JvmClass.Text

/-- Lower-case hexadecimal digits of a number. -/
def hexDigits (n : Nat) : String := String.ofList (Nat.toDigits 16 n)

/-- A character as it stands between the given quotes. -/
def escape (quote c : Char) : String :=
  if c = '\x00' then "\\0"
  else if c = '\t' then "\\t"
  else if c = '\r' then "\\r"
  else if c = '\n' then "\\n"
  else if c = '\\' then "\\\\"
  else if c = quote then String.ofList ['\\', quote]
  else if isShown c then c.toString
  else "\\u\x7b" ++ hexDigits c.toNat ++ "\x7d"

/-- A character between single quotes. -/
def quoteChar (c : Char) : String := "'" ++ escape '\'' c ++ "'"

/-- A text between double quotes. -/
def quote (text : String) : String :=
  "\"" ++ String.join (text.toList.map (escape '"')) ++ "\""

end JvmClass.Text
