/-!
# Hexadecimal numbers

Code point numbers are shown in hexadecimal: in lower case inside escape
sequences, and in upper case with at least four digits in the standard
`U+0041` form.
-/

namespace StreamGrammar.Text

/-- The hexadecimal digits of a number in lower case, without leading zeros. -/
def hexadecimal (number : Nat) : String :=
  String.ofList (Nat.toDigits 16 number)

/-- The standard name of a code point number: `U+` and at least four upper case digits. -/
def codePointName (number : Nat) : String :=
  let digits := (Nat.toDigits 16 number).map Char.toUpper
  "U+" ++ String.ofList (List.replicate (4 - digits.length) '0' ++ digits)

/-- The escape sequence that stands for a code point, its number between braces. -/
def unicodeEscape (character : Char) : String :=
  "\\u\x7b" ++ hexadecimal character.toNat ++ "\x7d"

end StreamGrammar.Text
