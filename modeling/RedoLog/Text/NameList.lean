import RedoLog.Text.Hidden

/-!
# Lists of names in messages

A message lists names between brackets, each name between double quotes. Inside the quotes a
backslash escapes the quote, the backslash, the usual controls and, by its hexadecimal code point
in braces, every hidden character.
-/

set_option autoImplicit false

namespace RedoLog.Text

def shownChar (c : Char) : List Char :=
  match c with
  | '\x00' => ['\\', '0']
  | '\t' => ['\\', 't']
  | '\n' => ['\\', 'n']
  | '\r' => ['\\', 'r']
  | '"' => ['\\', '"']
  | '\\' => ['\\', '\\']
  | c =>
    if isHidden c then ['\\', 'u', '\x7b'] ++ Nat.toDigits 16 c.toNat ++ ['\x7d'] else [c]

def shownName (name : String) : String :=
  String.ofList ('"' :: (name.toList.flatMap shownChar ++ ['"']))

def nameList (names : List String) : String :=
  "[" ++ String.intercalate ", " (names.map shownName) ++ "]"

end RedoLog.Text
