import RedoLog.Problem
import RedoLog.Text.Digits
import RedoLog.Token

/-!
# Cutting a text into tokens

A text is a sequence of pieces and a gap behind the last of them. Each piece is a gap, which may be
empty, and what follows it: a token, or characters that are no token. Gaps, pieces and their texts
together are the whole text. Scanning goes on behind a character that starts no token, so that all
of them are reported.
-/

set_option autoImplicit false

namespace RedoLog

inductive LexFault where
  | unknown (c : Char)
  | openText
  | openName
  deriving DecidableEq, Repr

def LexFault.message : LexFault → String
  | .unknown c => "token recognition error at: '" ++ String.singleton c ++ "'"
  | .openText => "unterminated string literal"
  | .openName => "unterminated quoted identifier"

inductive Item where
  | token (kind : TokenKind)
  | fault (fault : LexFault)
  deriving DecidableEq, Repr

namespace Lexer

def isSpace (c : Char) : Bool :=
  c = ' ' || c = '\t' || c = '\n' || c = '\x0c' || c = '\r'

/-- Where the scan of a gap stands: between comments, in a comment that ends with its line, or in
one that ends with an asterisk and a slash. -/
inductive Place where
  | between
  | line
  | block
  deriving DecidableEq, Repr

/-- A gap and what follows it. A comment may end with the text. -/
def splitGap : Place → List Char → List Char × List Char
  | .between, '-' :: '-' :: cs =>
    let (gap, rest) := splitGap .line cs
    ('-' :: '-' :: gap, rest)
  | .between, '/' :: '*' :: cs =>
    let (gap, rest) := splitGap .block cs
    ('/' :: '*' :: gap, rest)
  | .between, c :: cs =>
    if isSpace c then
      let (gap, rest) := splitGap .between cs
      (c :: gap, rest)
    else ([], c :: cs)
  | .line, c :: cs =>
    let (gap, rest) := splitGap (if c = '\n' then .between else .line) cs
    (c :: gap, rest)
  | .block, '*' :: '/' :: cs =>
    let (gap, rest) := splitGap .between cs
    ('*' :: '/' :: gap, rest)
  | .block, c :: cs =>
    let (gap, rest) := splitGap .block cs
    (c :: gap, rest)
  | _, [] => ([], [])

/-- A quoted text behind its opening quote, the closing quote included; `none` when there is no
closing quote. A doubled quote does not close. -/
def splitQuoted? (quote : Char) : List Char → Option (List Char × List Char)
  | [] => none
  | [c] => if c = quote then some ([c], []) else none
  | c :: d :: cs =>
    if c = quote then
      if d = quote then (splitQuoted? quote cs).map fun (text, rest) => (c :: d :: text, rest)
      else some ([c], d :: cs)
    else (splitQuoted? quote (d :: cs)).map fun (text, rest) => (c :: text, rest)

def splitFraction (cs : List Char) : List Char × List Char :=
  match cs with
  | '.' :: cs =>
    let (ds, rest) := Text.splitDigits cs
    ('.' :: ds, rest)
  | cs => ([], cs)

def splitExponent (cs : List Char) : List Char × List Char :=
  match cs with
  | e :: s :: d :: rest =>
    if (e = 'e' ∨ e = 'E') ∧ (s = '+' ∨ s = '-') ∧ d.isDigit then
      let (ds, rest) := Text.splitDigits rest
      (e :: s :: d :: ds, rest)
    else if (e = 'e' ∨ e = 'E') ∧ s.isDigit then
      let (ds, rest) := Text.splitDigits (d :: rest)
      (e :: s :: ds, rest)
    else ([], cs)
  | [e, d] => if (e = 'e' ∨ e = 'E') ∧ d.isDigit then ([e, d], []) else ([], cs)
  | cs => ([], cs)

def splitNumber (cs : List Char) : List Char × List Char :=
  let (whole, rest) := Text.splitDigits cs
  let (fraction, rest) := splitFraction rest
  let (exponent, rest) := splitExponent rest
  (whole ++ fraction ++ exponent, rest)

def startsWord (c : Char) : Bool :=
  c.isAlpha || c = '_'

def continuesWord (c : Char) : Bool :=
  c.isAlphanum || c = '_' || c = '$' || c = '#'

def symbol? : List Char → Option (TokenKind × Nat)
  | '(' :: _ => some (.openParen, 1)
  | ')' :: _ => some (.closeParen, 1)
  | ',' :: _ => some (.comma, 1)
  | ';' :: _ => some (.semicolon, 1)
  | '=' :: _ => some (.equals, 1)
  | '+' :: _ => some (.plus, 1)
  | '-' :: _ => some (.minus, 1)
  | '<' :: '>' :: _ => some (.notEquals, 2)
  | '!' :: '=' :: _ => some (.notEquals, 2)
  | '^' :: '=' :: _ => some (.notEquals, 2)
  | '<' :: '=' :: _ => some (.lessEquals, 2)
  | '>' :: '=' :: _ => some (.greaterEquals, 2)
  | '<' :: _ => some (.less, 1)
  | '>' :: _ => some (.greater, 1)
  | '|' :: '|' :: _ => some (.concat, 2)
  | '.' :: _ => some (.dot, 1)
  | _ => none

def startsNumber : List Char → Bool
  | '.' :: d :: _ => d.isDigit
  | c :: _ => c.isDigit
  | [] => false

structure Scan where
  item : Item
  text : List Char
  rest : List Char

def scanQuoted (quote : Char) (kind : TokenKind) (fault : LexFault) (cs : List Char) : Scan :=
  match splitQuoted? quote cs with
  | some (text, rest) => ⟨.token kind, quote :: text, rest⟩
  | none => ⟨.fault fault, quote :: cs, []⟩

def scan (c : Char) (cs : List Char) : Scan :=
  if startsNumber (c :: cs) then
    let (text, rest) := splitNumber (c :: cs)
    ⟨.token .number, text, rest⟩
  else if c = '\'' then scanQuoted c .text .openText cs
  else if c = '"' then scanQuoted c .quotedName .openName cs
  else if startsWord c then
    let word := c :: cs.takeWhile continuesWord
    ⟨.token (TokenKind.ofWord word), word, cs.dropWhile continuesWord⟩
  else
    match symbol? (c :: cs) with
    | some (kind, size) => ⟨.token kind, (c :: cs).take size, (c :: cs).drop size⟩
    | none => ⟨.fault (.unknown c), [c], cs⟩

structure Piece where
  gap : List Char
  item : Item
  text : List Char
  deriving DecidableEq, Repr

/-- The pieces of a text and the gap at its end. Every piece takes at least one character, so the
length of the text bounds their number. -/
def pieces : Nat → List Char → List Piece × List Char
  | fuel, cs =>
    match splitGap .between cs with
    | (gap, []) => ([], gap)
    | (gap, c :: rest) =>
      match fuel with
      | 0 => ([], gap)
      | fuel + 1 =>
        let found := scan c rest
        let (more, last) := pieces fuel found.rest
        (⟨gap, found.item, found.text⟩ :: more, last)

def place : Nat → Nat → List Piece → List Token
  | _, _, [] => []
  | offset, index, piece :: more =>
    let start := offset + Text.byteLength piece.gap
    let next := start + Text.byteLength piece.text
    match piece.item with
    | .token kind => ⟨kind, index, start, String.ofList piece.text⟩ :: place next (index + 1) more
    | .fault _ => place next index more

def faults : Nat → List Piece → List (Nat × LexFault)
  | _, [] => []
  | offset, piece :: more =>
    let start := offset + Text.byteLength piece.gap
    let next := start + Text.byteLength piece.text
    match piece.item with
    | .token _ => faults next more
    | .fault fault => (start, fault) :: faults next more

def lex (source : List Char) : Except (List Problem) (List Token) :=
  let found := (pieces source.length source).1
  match faults 0 found with
  | [] => .ok (place 0 0 found)
  | problems =>
    .error (problems.map fun (offset, fault) => Problem.locate source offset fault.message)

def endToken (source : List Char) (count : Nat) : Token :=
  ⟨.endOfText, count, Text.byteLength source, ""⟩

end Lexer

def tokenize (source : String) : Except (List Problem) (List Token) :=
  (Lexer.lex source.toList).map fun tokens =>
    tokens ++ [Lexer.endToken source.toList tokens.length]

end RedoLog
