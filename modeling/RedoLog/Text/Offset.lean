/-!
# Byte offsets

Positions in a text are counted in bytes of its UTF-8 form. A slice exists only between offsets
that stand on character boundaries. An offset is shown to a reader as a line and a column, the
line counted from one and the column from zero, in characters.
-/

set_option autoImplicit false

namespace RedoLog.Text

def utf8 (cs : List Char) : List UInt8 :=
  cs.flatMap String.utf8EncodeChar

def byteLength : List Char → Nat
  | [] => 0
  | c :: cs => c.utf8Size + byteLength cs

theorem byte_length_append (cs ds : List Char) :
    byteLength (cs ++ ds) = byteLength cs + byteLength ds := by
  induction cs with
  | nil => simp [byteLength]
  | cons c cs ih => simp [byteLength, ih, Nat.add_assoc]

theorem byte_length_pos {cs : List Char} (h : cs ≠ []) : 0 < byteLength cs := by
  cases cs with
  | nil => exact absurd rfl h
  | cons c cs =>
    have hc := c.utf8Size_pos
    simp only [byteLength]
    omega

/-- The first `n` bytes; `none` when that point is past the end or inside a character. -/
def takeBytes? : Nat → List Char → Option (List Char)
  | 0, _ => some []
  | _ + 1, [] => none
  | n + 1, c :: cs =>
    if c.utf8Size ≤ n + 1 then (takeBytes? (n + 1 - c.utf8Size) cs).map (c :: ·) else none

def dropBytes? : Nat → List Char → Option (List Char)
  | 0, cs => some cs
  | _ + 1, [] => none
  | n + 1, c :: cs =>
    if c.utf8Size ≤ n + 1 then dropBytes? (n + 1 - c.utf8Size) cs else none

def slice? (start stop : Nat) (cs : List Char) : Option (List Char) :=
  if start ≤ stop then (dropBytes? start cs).bind (takeBytes? (stop - start)) else none

/-- What stands before an offset; an offset that is no character boundary of the text means the
whole text. -/
def before (offset : Nat) (cs : List Char) : List Char :=
  (takeBytes? offset cs).getD cs

def lastFeed? : List Char → Option Nat
  | [] => none
  | c :: cs =>
    match lastFeed? cs with
    | some offset => some (c.utf8Size + offset)
    | none => if c = '\n' then some 0 else none

def lineStart (cs : List Char) : Nat :=
  (lastFeed? cs).elim 0 (· + 1)

def lineAfter (cs : List Char) : Nat :=
  cs.count '\n' + 1

def columnAfter (cs : List Char) : Nat :=
  (cs.reverse.takeWhile (· ≠ '\n')).length

end RedoLog.Text
