import DecompTracker.Text.Invisible
import DecompTracker.Text.Numeral

/-! Texts between double quotes, with every character visible: quotes and backslashes are escaped by
a backslash, line ends, tabs and NUL have an escape of their own, and any other character that
would leave no mark is spelled by its code point. -/
namespace DecompTracker.Text

def visible (c : Char) : String :=
  match c with
  | '"' => "\\\""
  | '\\' => "\\\\"
  | '\n' => "\\n"
  | '\r' => "\\r"
  | '\t' => "\\t"
  | '\x00' => "\\0"
  | _ =>
    if isInvisible c then "\\u\x7b" ++ hexadecimal c.toNat ++ "\x7d" else String.singleton c

def quoted (s : String) : String := "\"" ++ String.join (s.toList.map visible) ++ "\""

/-- Quoted texts between square brackets. -/
def quotedList (ss : List String) : String := "[" ++ ", ".intercalate (ss.map quoted) ++ "]"

end DecompTracker.Text
