import RedoLog.Problem
import RedoLog.Replay.Error

/-!
# Why a record cannot be decoded
-/

set_option autoImplicit false

namespace RedoLog

inductive Failure where
  | malformed (problems : List Problem)
  | replay (error : ReplayError)
  | missingFields (names : List String)
  | unsupportedOperation (name : String)
  deriving DecidableEq, Repr

namespace Failure

def message : Failure → String
  | .malformed problems => Problem.displayAll problems
  | .replay error => error.message
  | .missingFields names => "Message doesn't contain required fields " ++ Text.nameList names
  | .unsupportedOperation name => "Unsupported operation kind '" ++ name ++ "'"

/-- What stands before the first line feed, without a carriage return at its end. -/
def firstLine (cs : List Char) : List Char :=
  let line := cs.takeWhile (· ≠ '\n')
  if cs.contains '\n' ∧ line.getLast? = some '\r' then line.dropLast else line

def summary (f : Failure) : String :=
  String.ofList (firstLine f.message.toList)

end Failure

end RedoLog
