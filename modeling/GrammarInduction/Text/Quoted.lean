import GrammarInduction.Text.Unprintable
import GrammarInduction.Text.GraphemeExtend

/-!
Quoted text as it stands in messages: in double quotes, with short escapes for the common control
characters and a number in braces for what has no shape of its own or shows only on the character
before it.
-/
namespace GrammarInduction.Text

/-- A number in lower-case hexadecimal digits. -/
def hex (n : Nat) : String := String.ofList (Nat.toDigits 16 n)

/-- The halfwidth sound marks of kana. They are the only letters with the property
Grapheme_Extend, and each fills a cell of its own. -/
def isHalfwidthSoundMark (c : Char) : Bool := c == '\uff9e' || c == '\uff9f'

/-- Whether a character shows only on the one before it. -/
def isCombining (c : Char) : Bool := isGraphemeExtend c && !isHalfwidthSoundMark c

/-- Whether a quoted text shows a character by its number. ASCII needs no table. -/
def isNumbered (c : Char) : Bool :=
  if c.toNat < 0x7f then c.toNat < 0x20 else isCombining c || isUnprintable c

/-- A character as a quoted text shows it. A single quote stands for itself. -/
def escape (c : Char) : String :=
  match c with
  | '\x00' => "\\0"
  | '\t' => "\\t"
  | '\r' => "\\r"
  | '\n' => "\\n"
  | '"' => "\\\""
  | '\\' => "\\\\"
  | c => if isNumbered c then "\\u\x7b" ++ hex c.toNat ++ "\x7d" else c.toString

/-- A text in double quotes. -/
def quoted (s : String) : String :=
  s.toList.foldl (fun out c => out ++ escape c) "\"" ++ "\""

example : quoted "it's \"é\"\n" = "\"it's \\\"é\\\"\\n\"" := by decide +kernel
example : quoted "a\u200b" = "\"a\\u\x7b200b\x7d\"" := by decide +kernel
example : quoted "e\u0301" = "\"e\\u\x7b301\x7d\"" := by decide +kernel
example : quoted "\uff76\uff9e" = "\"\uff76\uff9e\"" := by decide +kernel

end GrammarInduction.Text
