import RedoLog.Json.Fields
import RedoLog.Json.Writer
import RedoLog.Ordered.Names
import RedoLog.Replay.Insert

/-!
# Settings of a decoder

Every setting may be left out of the JSON form and takes its default then.
-/

set_option autoImplicit false

namespace RedoLog

def requiredFields : List String :=
  ["OPERATION", "SQL_REDO", "ROW_ID", "TIMESTAMP", "TABLE_NAME"]

structure Configuration where
  columnPrefix : String
  saveColumns : NameSet
  truncateUpdates : Bool
  trimText : Bool
  deriving DecidableEq

namespace Configuration

def standard : Configuration :=
  ⟨defaultColumnPrefix, NameSet.ofNames requiredFields, true, true⟩

instance : Inhabited Configuration :=
  ⟨standard⟩

def options (c : Configuration) : Options :=
  ⟨c.columnPrefix, c.trimText⟩

def fieldNames : List String :=
  ["column-prefix", "save-columns", "truncate-update-query-from-where-clause",
    "trim-parsed-content"]

def toJson (c : Configuration) : Json :=
  .object
    [Json.member "column-prefix" (Json.text c.columnPrefix),
      Json.member "save-columns" (.array (c.saveColumns.names.map Json.text)),
      Json.member "truncate-update-query-from-where-clause" (.bool c.truncateUpdates),
      Json.member "trim-parsed-content" (.bool c.trimText)]

def namesOfJson? (j : Json) : Option NameSet := do
  let items ← j.items?
  let names ← items.mapM Json.text?
  return NameSet.ofNames names

def ofJson? (j : Json) : Option Configuration := do
  match ← j.fields? fieldNames with
  | [label, save, truncate, trim] =>
    let label ← Json.orDefault standard.columnPrefix Json.text? label
    let save ← Json.orDefault standard.saveColumns namesOfJson? save
    let truncate ← Json.orDefault standard.truncateUpdates Json.bool? truncate
    let trim ← Json.orDefault standard.trimText Json.bool? trim
    return ⟨label, save, truncate, trim⟩
  | _ => none

def render (c : Configuration) : String :=
  c.toJson.render

def read? (s : String) : Option Configuration :=
  (Json.read? s).bind ofJson?

end Configuration

end RedoLog
