import RedoLog.Text.Letters
import RedoLog.Text.Offset

/-!
# Cutting a statement at WHERE

The cut is made at the first place where the letters `WHERE` stand, in any case, whatever they are
part of. A semicolon takes the place of what is cut off. The letters are searched among the bytes of
the statement; what is found can be said in characters as well.
-/

set_option autoImplicit false

namespace RedoLog

def whereLetters : List Char :=
  ['W', 'H', 'E', 'R', 'E']

def startsWithWhere (cs : List Char) : Bool :=
  Text.upper (cs.take 5) == whereLetters

def beforeWhere? : List Char → Option (List Char)
  | [] => none
  | c :: cs => if startsWithWhere (c :: cs) then some [] else (beforeWhere? cs).map (c :: ·)

def startsWithWhereBytes (bs : List UInt8) : Bool :=
  (bs.take 5).map Text.upperByte == Text.utf8 whereLetters

def whereOffset? : List UInt8 → Option Nat
  | [] => none
  | b :: bs => if startsWithWhereBytes (b :: bs) then some 0 else (whereOffset? bs).map (· + 1)

/-- The cut statement, if there is anything to cut. Nothing is cut at an offset inside a
character. -/
def truncate? (source : String) : Option String :=
  ((whereOffset? (Text.utf8 source.toList)).bind fun offset =>
    Text.takeBytes? offset source.toList).map fun head => String.ofList (head ++ [';'])

def truncateFromWhere (source : String) : String :=
  (truncate? source).getD source

end RedoLog
