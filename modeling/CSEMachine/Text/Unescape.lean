/-!
# Escapes in printed text

A text is printed with every backslash followed by `t` or `n` turned into a tab or
a newline.  The two characters are consumed together and what they turn into is
not looked at again; every other character is kept.

Main results:

- Theorem `toList_unescape`: printing is `unescapeChars` on the characters.
-/

namespace CSEMachine
namespace Text

/-- The characters of a text with its escapes carried out. -/
def unescapeChars : List Char → List Char
  | '\\' :: 't' :: cs => '\t' :: unescapeChars cs
  | '\\' :: 'n' :: cs => '\n' :: unescapeChars cs
  | c :: cs => c :: unescapeChars cs
  | [] => []

/-- Carries out the escapes of some characters and adds the result to a text. -/
def unescapeOnto (out : String) : List Char → String
  | '\\' :: 't' :: cs => unescapeOnto (out.push '\t') cs
  | '\\' :: 'n' :: cs => unescapeOnto (out.push '\n') cs
  | c :: cs => unescapeOnto (out.push c) cs
  | [] => out

/-- A text with its escapes carried out. -/
def unescape (s : String) : String :=
  unescapeOnto "" s.toList

theorem toList_unescapeOnto (out : String) (cs : List Char) :
    (unescapeOnto out cs).toList = out.toList ++ unescapeChars cs := by
  fun_induction unescapeOnto out cs with
  | case1 out cs ih => simp [unescapeChars, ih]
  | case2 out cs ih => simp [unescapeChars, ih]
  | case3 out c cs ht hn ih => simp [unescapeChars, ih]
  | case4 out => simp [unescapeChars]

/-- Printing is `unescapeChars` on the characters. -/
@[simp]
theorem toList_unescape (s : String) : (unescape s).toList = unescapeChars s.toList := by
  simp [unescape, toList_unescapeOnto]

end Text
end CSEMachine
