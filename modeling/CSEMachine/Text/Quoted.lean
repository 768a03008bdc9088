import CSEMachine.Text.Printable

/-!
# Quoted text

A text between double quotes, in which a quote, a backslash and every character
that cannot be shown as it is are written as escapes.

Main results:

- Theorem `escape_of_isPrintable`: a printable character other than a quote or a
  backslash is written as itself.
-/

namespace CSEMachine
namespace Text

/-- The escape for a code point: its hexadecimal digits, without leading zeros. -/
def codeEscape (c : Char) : String :=
  "\\u\x7b" ++ String.ofList (Nat.toDigits 16 c.toNat) ++ "\x7d"

/-- The written form of one character inside quotes. -/
def escape (c : Char) : String :=
  if c = '"' then "\\\""
  else if c = '\\' then "\\\\"
  else if c = '\t' then "\\t"
  else if c = '\n' then "\\n"
  else if c = '\r' then "\\r"
  else if c = '\x00' then "\\0"
  else if isPrintable c then c.toString
  else codeEscape c

/-- The quoted form of a text. -/
def quoted (s : String) : String :=
  "\"" ++ String.join (s.toList.map escape) ++ "\""

/-- A printable character other than a quote or a backslash is written as itself. -/
theorem escape_of_isPrintable {c : Char} (hquote : c ≠ '"') (hbackslash : c ≠ '\\')
    (hc : isPrintable c = true) : escape c = c.toString := by
  have hcontrol (d : Char) (hd : isPrintable d = false) : c ≠ d := by
    rintro rfl
    simp [hc] at hd
  simp [escape, hquote, hbackslash, hc, hcontrol '\t' (by decide), hcontrol '\n' (by decide),
    hcontrol '\r' (by decide), hcontrol '\x00' (by decide)]

end Text
end CSEMachine
