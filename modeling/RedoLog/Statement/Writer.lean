import RedoLog.Number.Numeral
import RedoLog.Text.Quoted
import RedoLog.Value

/-!
# Writing statements

Rows of columns as statements of the form that a redo log holds: names between double quotes,
texts between single quotes, no blank between the items of a list.
-/

set_option autoImplicit false

namespace RedoLog

namespace Value

mutual

/-- A value as an expression. A number that is not finite has no form and is written as null. -/
def writeSql : Value → List Char
  | .null => ['N', 'U', 'L', 'L']
  | .integer n => (Numeral.ofInt n.toInt).write
  | .real x => if x.isFinite then x.jsonNumeral.write else ['N', 'U', 'L', 'L']
  | .text s => Text.quoted '\'' s.toList
  | .call f ps => f.toList ++ '(' :: (writeSqlAll ps ++ [')'])

def writeSqlAll : List Value → List Char
  | [] => []
  | [p] => writeSql p
  | p :: ps => writeSql p ++ ',' :: writeSqlAll ps

end

end Value

def writeName (name : String) : List Char :=
  Text.quoted '"' name.toList

def writeTable (schema table : String) : List Char :=
  writeName schema ++ '.' :: writeName table

def writeList (items : List (List Char)) : List Char :=
  List.intercalate [','] items

def writeInsert (schema table : String) (row : List (String × Value)) : String :=
  String.ofList ("insert into ".toList ++ writeTable schema table
    ++ '(' :: (writeList (row.map fun entry => writeName entry.1)
      ++ ") values (".toList ++ writeList (row.map fun entry => entry.2.writeSql) ++ [')', ';']))

def writeAssignment (entry : String × Value) : List Char :=
  writeName entry.1 ++ " = ".toList ++ entry.2.writeSql

def writeUpdate (schema table : String) (row : List (String × Value)) : String :=
  String.ofList ("update ".toList ++ writeTable schema table ++ " set ".toList
    ++ writeList (row.map writeAssignment) ++ [';'])

end RedoLog
