import PredictiveParser.Text.Unprintable

/-!
# Quoted text

A text is quoted between double quotes. Quotes and backslashes are written behind a backslash, a few control characters
have short names, and characters that do not stand for themselves are written as their hexadecimal numbers.
-/

namespace PredictiveParser.Text

/-- The hexadecimal number of a character. -/
def hexNumber (c : Char) : String :=
  String.ofList (Nat.toDigits 16 c.toNat)

/-- A character as it is written between quotes. -/
def quoteChar (c : Char) : String :=
  match c with
  | '"' => "\\\""
  | '\\' => "\\\\"
  | '\n' => "\\n"
  | '\r' => "\\r"
  | '\t' => "\\t"
  | '\x00' => "\\0"
  | c => if isUnprintable c then "\\u\x7b" ++ hexNumber c ++ "\x7d" else c.toString

/-- The quoted text. -/
def quote (text : String) : String :=
  "\"" ++ String.join (text.toList.map quoteChar) ++ "\""

end PredictiveParser.Text
