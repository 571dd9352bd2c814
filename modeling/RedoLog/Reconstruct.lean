import RedoLog.Failure
import RedoLog.Replay.Update
import RedoLog.Statement.Reading

/-!
# Columns of a statement

The values of the columns that a statement writes: it is parsed, and the events of its tree are
replayed. An `INSERT` leaves out columns that are null, and an `UPDATE` yields every assignment.
-/

set_option autoImplicit false

namespace RedoLog

def replayInsert (options : Options) (events : List Event) : Except ReplayError InsertReplay :=
  events.foldlM (InsertReplay.handle options) InsertReplay.start

def replayUpdate (options : Options) (events : List Event) : Except ReplayError UpdateReplay :=
  events.foldlM (UpdateReplay.handle options) UpdateReplay.start

def insertColumns (options : Options) (tree : ParseTree) : Except Failure Columns :=
  match replayInsert options tree.events with
  | .ok r => .ok r.columns
  | .error e => .error (.replay e)

def updateColumns (options : Options) (tree : ParseTree) : Except Failure Columns :=
  match replayUpdate options tree.events with
  | .ok r => .ok r.columns
  | .error e => .error (.replay e)

def reconstructInsert (options : Options) (source : String) : Except Failure Columns :=
  match parseInsert source with
  | .error problems => .error (.malformed problems)
  | .ok tree => insertColumns options tree

def reconstructUpdate (options : Options) (source : String) : Except Failure Columns :=
  match parseUpdate source with
  | .error problems => .error (.malformed problems)
  | .ok tree => updateColumns options tree

def reconstruct (kind : StatementKind) (options : Options) (source : String) :
    Except Failure Columns :=
  match kind with
  | .insert => reconstructInsert options source
  | .update => reconstructUpdate options source

end RedoLog
