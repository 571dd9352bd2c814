import RedoLog.Text.NameList
import RedoLog.Value

/-!
# Errors of a replay

A replay rebuilds column values from events. Its errors are of two kinds: a statement that is
outside the supported subset, and a sequence of events that is not one of a parsed statement.
-/

set_option autoImplicit false

namespace RedoLog

inductive StatementKind where
  | insert
  | update
  deriving DecidableEq, Repr

def StatementKind.word : StatementKind → String
  | .insert => "insert"
  | .update => "update"

inductive Stage where
  | begin
  | parsingNames
  | parsedNames
  | parsingValues
  | parsedValues
  deriving DecidableEq, Repr

def Stage.display : Stage → String
  | .begin => "Begin"
  | .parsingNames => "ParsingNames"
  | .parsedNames => "ParsedNames"
  | .parsingValues => "ParsingValues"
  | .parsedValues => "ParsedValues"

inductive SlotKind where
  | unary
  | function
  deriving DecidableEq, Repr

def SlotKind.word : SlotKind → String
  | .unary => "unary"
  | .function => "function"

inductive ReplayError where
  | stage (event : String) (expected actual : Stage) (text : String)
  | emptyStack (event text : String)
  | expressionNotFound (tokenIndex : Nat) (text : String)
  | tagMismatch (slot : SlotKind) (expected actual : Nat) (text : String)
  | multipleValues (tokenIndex count : Nat) (text : String)
  | alreadyCompleted (tokenIndex : Nat) (offered held : Value)
  | notCompleted (slot : SlotKind) (tokenIndex : Nat)
  | unsupportedFunction (text : String)
  | unsupportedMultiTableInsert (text : String)
  | missingColumnName (value : Value)
  | unusedColumnNames (names : List String)
  | uncompletedValues (statement : StatementKind) (count : Nat)
  | rowValueNotOpen (event text : String)
  | rowValueNotFlushed (event : String) (tokenIndex : Nat) (text : String)
  | columnAlreadySet (tokenIndex : Nat) (offered held : String)
  | valueAlreadySet (tokenIndex : Nat) (offered held : Value)
  | rowValueIncomplete (tokenIndex : Nat) (text : String)
  deriving DecidableEq, Repr

namespace ReplayError

def message : ReplayError → String
  | .stage event expected actual text =>
    "Incorrect stage for " ++ event ++ ", expected: " ++ expected.display ++ ", actual: "
      ++ actual.display ++ ", text: " ++ text
  | .emptyStack event text =>
    "Expression stack is empty for " ++ event ++ ", text: " ++ text
  | .expressionNotFound tokenIndex text =>
    "Expression with " ++ toString tokenIndex ++ " isn't found, text: " ++ text
  | .tagMismatch slot expected actual text =>
    "Internal problem during parse " ++ slot.word ++ " expression " ++ text
      ++ ": expected token " ++ toString expected ++ ", actual " ++ toString actual
  | .multipleValues tokenIndex count text =>
    "Expression " ++ toString tokenIndex ++ " must contain only one value instead of "
      ++ toString count ++ ", text: " ++ text
  | .alreadyCompleted tokenIndex offered held =>
    "Unary expression " ++ toString tokenIndex
      ++ " can't be completed twice, value for complete: " ++ offered.display
      ++ ", actual value: " ++ held.display
  | .notCompleted slot tokenIndex =>
    slot.word ++ " expression " ++ toString tokenIndex ++ " isn't completed"
  | .unsupportedFunction text => "Unsupported function " ++ text
  | .unsupportedMultiTableInsert text => "Unsupported multiple table insert " ++ text
  | .missingColumnName value => "Column name isn't specified for " ++ value.display ++ " value"
  | .unusedColumnNames names =>
    "Incorrect stage for parsing insert statement, unused column names: " ++ Text.nameList names
  | .uncompletedValues statement count =>
    "Incorrect stage for parsing " ++ statement.word ++ " statement, uncompleted values: "
      ++ toString count
  | .rowValueNotOpen event text =>
    "Incorrect state for " ++ event ++ ": row value isn't open, text: " ++ text
  | .rowValueNotFlushed event tokenIndex text =>
    "Incorrect state for " ++ event ++ ": previous row value " ++ toString tokenIndex
      ++ " isn't flushed, text: " ++ text
  | .columnAlreadySet tokenIndex offered held =>
    "Row value " ++ toString tokenIndex ++ " already has column, suggested: " ++ offered
      ++ ", actual: " ++ held
  | .valueAlreadySet tokenIndex offered held =>
    "Row value " ++ toString tokenIndex ++ " already has value, suggested: " ++ offered.display
      ++ ", actual: " ++ held.display
  | .rowValueIncomplete tokenIndex text =>
    "Row value " ++ toString tokenIndex ++ " isn't completed, text: " ++ text

end ReplayError

end RedoLog
