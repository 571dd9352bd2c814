import RedoLog.Text.Letters
import RedoLog.Text.Offset

/-!
# Tokens

A token knows its place in the sequence of tokens, the byte offset at which it starts, and its
text, quotes and escapes included.
-/

set_option autoImplicit false

namespace RedoLog

inductive TokenKind where
  | insertWord
  | intoWord
  | valuesWord
  | updateWord
  | setWord
  | whereWord
  | andWord
  | orWord
  | notWord
  | isWord
  | nullWord
  | allWord
  | firstWord
  | dateWord
  | timestampWord
  | text
  | number
  | name
  | quotedName
  | openParen
  | closeParen
  | comma
  | semicolon
  | dot
  | equals
  | notEquals
  | less
  | greater
  | lessEquals
  | greaterEquals
  | plus
  | minus
  | concat
  | endOfText
  deriving DecidableEq, Repr, Inhabited

namespace TokenKind

def words : List (String × TokenKind) :=
  [("INSERT", .insertWord), ("INTO", .intoWord), ("VALUES", .valuesWord),
    ("UPDATE", .updateWord), ("SET", .setWord), ("WHERE", .whereWord), ("AND", .andWord),
    ("OR", .orWord), ("NOT", .notWord), ("IS", .isWord), ("NULL", .nullWord), ("ALL", .allWord),
    ("FIRST", .firstWord), ("DATE", .dateWord), ("TIMESTAMP", .timestampWord)]

def ofWord (word : List Char) : TokenKind :=
  match words.find? fun entry => entry.1.toList == Text.upper word with
  | some entry => entry.2
  | none => .name

def describe : TokenKind → String
  | .insertWord => "INSERT"
  | .intoWord => "INTO"
  | .valuesWord => "VALUES"
  | .updateWord => "UPDATE"
  | .setWord => "SET"
  | .whereWord => "WHERE"
  | .andWord => "AND"
  | .orWord => "OR"
  | .notWord => "NOT"
  | .isWord => "IS"
  | .nullWord => "NULL"
  | .allWord => "ALL"
  | .firstWord => "FIRST"
  | .dateWord => "DATE"
  | .timestampWord => "TIMESTAMP"
  | .text => "string literal"
  | .number => "numeric literal"
  | .name => "identifier"
  | .quotedName => "identifier"
  | .openParen => "'('"
  | .closeParen => "')'"
  | .comma => "','"
  | .semicolon => "';'"
  | .dot => "'.'"
  | .equals => "'='"
  | .notEquals => "'<>'"
  | .less => "'<'"
  | .greater => "'>'"
  | .lessEquals => "'<='"
  | .greaterEquals => "'>='"
  | .plus => "'+'"
  | .minus => "'-'"
  | .concat => "'||'"
  | .endOfText => "<EOF>"

def isName : TokenKind → Bool
  | .name => true
  | .quotedName => true
  | _ => false

def isComparison : TokenKind → Bool
  | .equals => true
  | .notEquals => true
  | .less => true
  | .greater => true
  | .lessEquals => true
  | .greaterEquals => true
  | _ => false

end TokenKind

structure Token where
  kind : TokenKind
  index : Nat
  start : Nat
  text : String
  deriving DecidableEq, Repr

namespace Token

def stop (t : Token) : Nat :=
  t.start + Text.byteLength t.text.toList

def constantWords : List String :=
  ["TRUE", "FALSE", "DEFAULT", "DBTIMEZONE", "SESSIONTIMEZONE", "MINVALUE", "MAXVALUE"]

def isConstantWord (t : Token) : Bool :=
  t.kind = .name && constantWords.any fun word => Text.sameLetters word t.text

theorem kind_of_is_constant_word {t : Token} (h : t.isConstantWord = true) : t.kind = .name := by
  simp only [isConstantWord, Bool.and_eq_true, decide_eq_true_eq] at h
  exact h.1

end Token

end RedoLog
