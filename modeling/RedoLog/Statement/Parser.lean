import RedoLog.Problem
import RedoLog.Statement.Syntax

/-!
# Parsing statements

A parser takes the tokens that are left and gives back a piece of syntax and the tokens behind it.
The end of the statement is the end of the list. Parsing stops at the first token that cannot
stand where it does. Levels of nesting are counted down from a bound, and the level beyond it is a
problem of its own.
-/

set_option autoImplicit false

namespace RedoLog

inductive Expectation where
  | token (kind : TokenKind)
  | name
  | value
  | moreOrClose
  deriving DecidableEq, Repr

def Expectation.describe : Expectation → String
  | .token kind => kind.describe
  | .name => "identifier"
  | .value => "value expression"
  | .moreOrClose => "\x7b',', ')'\x7d"

inductive Complaint where
  | expected (what : Expectation)
  | extraneous
  | tooDeep
  deriving DecidableEq, Repr

/-- Where parsing stopped, by the tokens from there on, and why. -/
structure ParseFault where
  unread : List Token
  complaint : Complaint

abbrev Parse (α : Type) : Type :=
  List Token → Except ParseFault (α × List Token)

def maxLevels : Nat :=
  128

namespace ParseFault

def found (f : ParseFault) : String :=
  match f.unread with
  | [] => TokenKind.endOfText.describe
  | t :: _ => t.text

def message (f : ParseFault) : String :=
  match f.complaint with
  | .expected what => "mismatched input '" ++ f.found ++ "' expecting " ++ what.describe
  | .extraneous => "extraneous input '" ++ f.found ++ "' expecting " ++ TokenKind.endOfText.describe
  | .tooDeep => "maximum nesting depth of " ++ toString maxLevels ++ " exceeded"

def offset (source : List Char) (f : ParseFault) : Nat :=
  match f.unread with
  | [] => Text.byteLength source
  | t :: _ => t.start

def problem (source : List Char) (f : ParseFault) : Problem :=
  Problem.locate source (f.offset source) f.message

end ParseFault

namespace Parser

def fail {α : Type} (what : Expectation) : Parse α := fun ts =>
  .error ⟨ts, .expected what⟩

def tooDeep {α : Type} : Parse α := fun ts =>
  .error ⟨ts, .tooDeep⟩

def satisfy (what : Expectation) (test : Token → Bool) : Parse Token
  | [] => fail what []
  | t :: ts => if test t then .ok (t, ts) else fail what (t :: ts)

def kind (k : TokenKind) : Parse Token :=
  satisfy (.token k) fun t => t.kind = k

def name : Parse Token :=
  satisfy .name fun t => t.kind.isName

/-- The closing parenthesis of a list, where a comma could have stood too. -/
def closeList : Parse Token :=
  satisfy .moreOrClose fun t => t.kind = .closeParen

def optional (test : Token → Bool) (ts : List Token) : Option Token × List Token :=
  match ts with
  | [] => (none, [])
  | t :: rest => if test t then (some t, rest) else (none, t :: rest)

/-- Items with separators between them. Each separator is a token, so the number of tokens bounds
the number of items. -/
def chainUpTo {α : Type} (separator : TokenKind) (item : Parse α) : Nat → Parse (Chain α)
  | 0, ts => do
    let (a, ts) ← item ts
    return (.last a, ts)
  | fuel + 1, ts => do
    let (a, ts) ← item ts
    match optional (fun t => t.kind = separator) ts with
    | (some s, ts) =>
      let (rest, ts) ← chainUpTo separator item fuel ts
      return (.next a s rest, ts)
    | (none, ts) => return (.last a, ts)

def chain {α : Type} (separator : TokenKind) (item : Parse α) : Parse (Chain α) := fun ts =>
  chainUpTo separator item ts.length ts

def path : Parse (Chain Token) :=
  chain .dot name

def kindOf? (ts : List Token) : Option TokenKind :=
  ts.head?.map Token.kind

def valueWith (inner : Parse Expression) : Parse Expression
  | [] => fail .value []
  | t :: ts =>
    match t.kind with
    | .openParen => do
      let (e, ts) ← inner ts
      let (closing, ts) ← kind .closeParen ts
      return (.group t e closing, ts)
    | .plus | .minus =>
      match ts with
      | literal :: rest =>
        if literal.kind = .number then .ok (.number (some t) literal, rest)
        else fail .value (t :: ts)
      | [] => fail .value (t :: ts)
    | .number => .ok (.number none t, ts)
    | .text => .ok (.text none t, ts)
    | .dateWord | .timestampWord =>
      match ts with
      | literal :: rest =>
        if literal.kind = .text then .ok (.text (some t) literal, rest)
        else fail .value (t :: ts)
      | [] => fail .value (t :: ts)
    | .nullWord => .ok (.null t, ts)
    | .name =>
      match optional (fun o => o.kind = .openParen) ts with
      | (some opening, rest) => do
        let (arguments, rest) ← chain .comma inner rest
        let (closing, rest) ← closeList rest
        return (.call t opening arguments closing, rest)
      | (none, _) => if t.isConstantWord then .ok (.constant t, ts) else fail .value (t :: ts)
    | _ => fail .value (t :: ts)

def expression : Nat → Parse Expression
  | 0 => tooDeep
  | levels + 1 => valueWith (expression levels)

def startsColumn (ts : List Token) : Bool :=
  match ts with
  | [] => false
  | t :: rest => t.kind.isName && !(kindOf? rest == some .openParen) && !t.isConstantWord

def operand (levels : Nat) : Parse Operand := fun ts =>
  if startsColumn ts then do
    let (names, ts) ← path ts
    return (.column names, ts)
  else do
    let (e, ts) ← expression levels ts
    return (.value e, ts)

def test (levels : Nat) : Parse Test
  | [] => .ok (.holds, [])
  | t :: ts =>
    if t.kind.isComparison then do
      let (right, ts) ← operand levels ts
      return (.compare t right, ts)
    else if t.kind = .isWord then do
      let (negation, ts) := optional (fun t => t.kind = .notWord) ts
      let (null, ts) ← kind .nullWord ts
      return (.isNull t negation null, ts)
    else .ok (.holds, t :: ts)

def alternativesOf (condition : Parse Condition) : Parse Alternatives :=
  chain .orWord (chain .andWord condition)

def conditionWith (levels : Nat) (negated : Parse Condition) (inner : Parse Alternatives) :
    Parse Condition
  | [] => do
    let (left, ts) ← operand levels []
    let (asked, ts) ← test levels ts
    return (.operand left asked, ts)
  | t :: ts =>
    if t.kind = .notWord then do
      let (c, ts) ← negated ts
      return (.not t c, ts)
    else if t.kind = .openParen then do
      let (c, ts) ← inner ts
      let (closing, ts) ← kind .closeParen ts
      let (asked, ts) ← test levels ts
      return (.group t c closing asked, ts)
    else do
      let (left, ts) ← operand levels (t :: ts)
      let (asked, ts) ← test levels ts
      return (.operand left asked, ts)

def condition : Nat → Parse Condition
  | 0 => conditionWith 0 tooDeep tooDeep
  | levels + 1 =>
    conditionWith (levels + 1) (condition levels) (alternativesOf (condition levels))

def alternatives : Nat → Parse Alternatives
  | 0 => tooDeep
  | levels + 1 => alternativesOf (condition levels)

def columnList : Parse ColumnList := fun ts => do
  let (opening, ts) ← kind .openParen ts
  let (names, ts) ← chain .comma name ts
  let (closing, ts) ← closeList ts
  return (⟨opening, names, closing⟩, ts)

def optionalColumnList : Parse (Option ColumnList) := fun ts =>
  if kindOf? ts = some .openParen then do
    let (columns, ts) ← columnList ts
    return (some columns, ts)
  else .ok (none, ts)

def terminator (ts : List Token) : Except ParseFault (Option Token) :=
  match optional (fun t => t.kind = .semicolon) ts with
  | (semicolon, []) => .ok semicolon
  | (_, t :: rest) => .error ⟨t :: rest, .extraneous⟩

def rowInsert (insert : Token) (ts : List Token) : Except ParseFault Insert := do
  let (into, ts) ← kind .intoWord ts
  let (table, ts) ← path ts
  let (columns, ts) ← optionalColumnList ts
  let (values, ts) ← kind .valuesWord ts
  let (opening, ts) ← kind .openParen ts
  let (row, ts) ← chain .comma (expression maxLevels) ts
  let (closing, ts) ← closeList ts
  let semicolon ← terminator ts
  return .row ⟨insert, into, table, columns, values, opening, row, closing, semicolon⟩

def insert (ts : List Token) : Except ParseFault Insert := do
  let (insert, ts) ← kind .insertWord ts
  match optional (fun t => t.kind = .allWord || t.kind = .firstWord) ts with
  | (some word, rest) => return .several insert word rest
  | (none, ts) => rowInsert insert ts

def assignment : Parse Assignment := fun ts => do
  let (column, ts) ← name ts
  let (equals, ts) ← kind .equals ts
  let (value, ts) ← expression maxLevels ts
  return (⟨column, equals, value⟩, ts)

def optionalFilter : Parse (Option Filter) := fun ts =>
  match optional (fun t => t.kind = .whereWord) ts with
  | (some word, ts) => do
    let (condition, ts) ← alternatives maxLevels ts
    return (some ⟨word, condition⟩, ts)
  | (none, ts) => .ok (none, ts)

def update (ts : List Token) : Except ParseFault Update := do
  let (update, ts) ← kind .updateWord ts
  let (table, ts) ← path ts
  let (correlation, ts) := optional (fun t => t.kind.isName) ts
  let (setWord, ts) ← kind .setWord ts
  let (assignments, ts) ← chain .comma assignment ts
  let (filter, ts) ← optionalFilter ts
  let semicolon ← terminator ts
  return ⟨update, table, correlation, setWord, assignments, filter, semicolon⟩

end Parser

end RedoLog
