import Jack.LexicalError
import Jack.Segment
import Jack.Text.Line

namespace Jack

/-- Where a scanner stands: in code, with the word that it is reading, in a string literal, with
its body so far, or in a block comment, with the line of its opener. -/
inductive ScanState where
  | code (word : List Char)
  | string (body : List Char)
  | block (opened : Nat)
  deriving DecidableEq, Repr

def ScanState.openBlock : ScanState → Option Nat
  | .block opened => some opened
  | _ => none

def ScanState.inString : ScanState → Bool
  | .string _ => true
  | _ => false

/-- Where the next line starts: a block comment is carried over a line end, a string is not. -/
def ScanState.ofOpenBlock : Option Nat → ScanState
  | none => .code []
  | some opened => .block opened

def wordTokens (line : Nat) (word : List Char) : List Token :=
  if word.isEmpty then [] else [⟨Lexeme.ofSegment (String.ofList word), line⟩]

/-- Scan a line from left to right, and say where the scanner stands at its end. -/
def scanLine (line : Nat) : ScanState → List Char → List Token × ScanState
  | .code word, [] => (wordTokens line word, .code [])
  | .code word, '"' :: cs =>
    let (tokens, last) := scanLine line (.string []) cs
    (wordTokens line word ++ tokens, last)
  | .code word, '/' :: '/' :: _ => (wordTokens line word, .code [])
  | .code word, '/' :: '*' :: cs =>
    let (tokens, last) := scanLine line (.block line) cs
    (wordTokens line word ++ tokens, last)
  | .code word, c :: cs =>
    if Text.isWord c then scanLine line (.code (word ++ [c])) cs
    else
      let single := if Text.isBlank c then [] else [⟨Lexeme.ofSegment (String.ofList [c]), line⟩]
      let (tokens, last) := scanLine line (.code []) cs
      (wordTokens line word ++ single ++ tokens, last)
  | .string body, [] => ([], .string body)
  | .string body, '"' :: cs =>
    let (tokens, last) := scanLine line (.code []) cs
    (⟨.string (String.ofList body), line⟩ :: tokens, last)
  | .string body, c :: cs => scanLine line (.string (body ++ [c])) cs
  | .block opened, [] => ([], .block opened)
  | .block _, '*' :: '/' :: cs => scanLine line (.code []) cs
  | .block opened, _ :: cs => scanLine line (.block opened) cs

/-- What a scanner has found: tokens, the first line that it left inside a string literal, and the
line of the opener of a block comment in which it ended. -/
structure Scan where
  tokens : List Token
  openString : Option Nat
  openBlock : Option Nat
  deriving DecidableEq, Repr

def scanLines (line : Nat) (openBlock : Option Nat) : List (List Char) → Scan
  | [] => ⟨[], none, openBlock⟩
  | raw :: rest =>
    let (tokens, last) := scanLine line (.ofOpenBlock openBlock) raw
    let scan := scanLines (line + 1) last.openBlock rest
    ⟨tokens ++ scan.tokens, if last.inString then some line else scan.openString, scan.openBlock⟩

def scan (text : String) : Scan := scanLines 1 none (Text.lines text.toList)

/-- A block comment left open is an error on the line of its opener, a string literal left open is
one on its line, and the first of these strings counts. -/
def Scan.outcome (scan : Scan) : Except LexicalError (List Token) :=
  match scan.openBlock, scan.openString with
  | some opened, _ => .error (.unterminatedComment opened)
  | none, some line => .error (.unterminatedString line)
  | none, none => .ok scan.tokens

end Jack
