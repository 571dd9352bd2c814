import RedoLog.Text.Offset

/-!
# Trees of nodes and their events

Every piece of syntax is shown to the outside as a node: what it is, the index of its first token,
the bytes that it covers, and its parts. A tree is read as a sequence of events, entering and
leaving each node. The sequence is defined by recursion on the tree, and it is also produced one
event at a time by a walk that keeps the open nodes on a stack.
-/

set_option autoImplicit false

namespace RedoLog

inductive Constant where
  | null
  | number (text : String) (integer : Bool)
  | quoted
  | word
  deriving DecidableEq, Repr

inductive Production where
  | insertStatement
  | insertIntoClause
  | multiTableInsert
  | valuesClause
  | updateStatement
  | updateSetClause
  | setItem
  | whereClause
  | condition
  | tableName
  | columnName
  | columnReference
  | unaryExpression
  | constant (constant : Constant)
  | quotedString
  | function (name : String)
  deriving DecidableEq, Repr

def Production.ruleName : Production → String
  | .insertStatement => "insert_statement"
  | .insertIntoClause => "insert_into_clause"
  | .multiTableInsert => "multi_table_insert"
  | .valuesClause => "values_clause"
  | .updateStatement => "update_statement"
  | .updateSetClause => "update_set_clause"
  | .setItem => "column_based_update_set_clause"
  | .whereClause => "where_clause"
  | .condition => "condition"
  | .tableName => "tableview_name"
  | .columnName => "column_name"
  | .columnReference => "column_reference"
  | .unaryExpression => "unary_expression"
  | .constant _ => "constant"
  | .quotedString => "quoted_string"
  | .function _ => "function"

structure Node where
  production : Production
  tokenIndex : Nat
  start : Nat
  stop : Nat
  children : List Node
  deriving Repr

inductive Phase where
  | enter
  | exit
  deriving DecidableEq, Repr

structure Event where
  phase : Phase
  production : Production
  tokenIndex : Nat
  text : String
  deriving DecidableEq, Repr

def Event.display (e : Event) : String :=
  (match e.phase with
    | .enter => "enter "
    | .exit => "exit ")
    ++ e.production.ruleName ++ " (token index " ++ toString e.tokenIndex ++ ")"

namespace Node

/-- The bytes of a source that a node covers, empty when they are no slice of it. -/
def text (source : List Char) (n : Node) : String :=
  String.ofList ((Text.slice? n.start n.stop source).getD [])

def event (source : List Char) (phase : Phase) (n : Node) : Event :=
  ⟨phase, n.production, n.tokenIndex, n.text source⟩

mutual

def size : Node → Nat
  | ⟨_, _, _, _, children⟩ => sizeAll children + 1

def sizeAll : List Node → Nat
  | [] => 0
  | n :: ns => size n + sizeAll ns

end

mutual

def events (source : List Char) : Node → List Event
  | ⟨production, tokenIndex, start, stop, children⟩ =>
    let n : Node := ⟨production, tokenIndex, start, stop, children⟩
    n.event source .enter :: (eventsAll source children ++ [n.event source .exit])

def eventsAll (source : List Char) : List Node → List Event
  | [] => []
  | n :: ns => events source n ++ eventsAll source ns

end

end Node

structure ParseTree where
  source : List Char
  root : Node

/-- A walk under way: the root as long as it is not entered, and the open nodes, innermost first,
each with the place of its next child. -/
structure Walk where
  source : List Char
  root : Option Node
  path : List (Node × Nat)

namespace Walk

/-- The next event and the walk behind it; a walk without one has ended and stays as it is. -/
def next? (w : Walk) : Option (Event × Walk) :=
  match w.root with
  | some root =>
    some (root.event w.source .enter, { w with root := none, path := (root, 0) :: w.path })
  | none =>
    match w.path with
    | [] => none
    | (n, place) :: path =>
      match n.children[place]? with
      | some child =>
        some (child.event w.source .enter,
          { w with path := (child, 0) :: (n, place + 1) :: path })
      | none => some (n.event w.source .exit, { w with path := path })

def take : Nat → Walk → List Event
  | 0, _ => []
  | count + 1, w =>
    match w.next? with
    | some (event, w) => event :: take count w
    | none => []

end Walk

namespace ParseTree

def text (t : ParseTree) (n : Node) : String :=
  n.text t.source

def walk (t : ParseTree) : Walk :=
  ⟨t.source, some t.root, []⟩

def events (t : ParseTree) : List Event :=
  t.walk.take (2 * t.root.size)

end ParseTree

end RedoLog
