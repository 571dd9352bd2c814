import RedoLog.Statement.Nodes
import RedoLog.Statement.Parser
import RedoLog.Token.Lexer

/-!
# Reading statements

A source is cut into tokens and the tokens are parsed. Faults of characters are all reported and
keep the tokens from being parsed; of the tokens, the first that cannot stand in its place is the
only problem.
-/

set_option autoImplicit false

namespace RedoLog

def readWith {α : Type} (parser : List Token → Except ParseFault α) (source : String) :
    Except (List Problem) α :=
  match Lexer.lex source.toList with
  | .error problems => .error problems
  | .ok tokens =>
    match parser tokens with
    | .error fault => .error [fault.problem source.toList]
    | .ok statement => .ok statement

def Insert.read (source : String) : Except (List Problem) Insert :=
  readWith Parser.insert source

def Update.read (source : String) : Except (List Problem) Update :=
  readWith Parser.update source

def parseInsert (source : String) : Except (List Problem) ParseTree :=
  (Insert.read source).map fun s => ⟨source.toList, s.node⟩

def parseUpdate (source : String) : Except (List Problem) ParseTree :=
  (Update.read source).map fun s => ⟨source.toList, s.node⟩

end RedoLog
