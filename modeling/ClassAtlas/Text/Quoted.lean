/-!
# Quoted texts

A text between double quotes. The quote, the backslash and the four control
characters newline, tab, carriage return and backspace are written as a backslash
and one more character; everything else stands for itself.
-/

namespace ClassAtlas.Text.Quoted

/-- How one character is written between the quotes. -/
def escape (c : Char) : List Char :=
  match c with
  | '\\' => ['\\', '\\']
  | '\n' => ['\\', 'n']
  | '\t' => ['\\', 't']
  | '\r' => ['\\', 'r']
  | '\x08' => ['\\', 'b']
  | '"' => ['\\', '"']
  | c => [c]

def quote (text : String) : String :=
  String.ofList ('"' :: text.toList.flatMap escape ++ ['"'])

end ClassAtlas.Text.Quoted
