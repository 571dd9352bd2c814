import RedoLog.Text.Offset

/-!
# Problems in a statement

A problem names its place by line and column. The problems of one statement are reported together.
-/

set_option autoImplicit false

namespace RedoLog

structure Problem where
  line : Nat
  column : Nat
  message : String
  deriving DecidableEq, Repr

namespace Problem

/-- A problem at a byte offset. An offset that is no character boundary of the source means its
end. The column counts the characters from the byte at which the last line starts. -/
def locate (source : List Char) (offset : Nat) (message : String) : Problem :=
  let passed := Text.before offset source
  let lastLine := (Text.dropBytes? (Text.lineStart passed) passed).getD []
  ⟨Text.lineAfter passed, lastLine.length, message⟩

def display (p : Problem) : String :=
  "line " ++ toString p.line ++ ":" ++ toString p.column ++ " " ++ p.message

def displayAll (ps : List Problem) : String :=
  "Parse problem(s): " ++ String.intercalate "; " (ps.map display)

end Problem

end RedoLog
