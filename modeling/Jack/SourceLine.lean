import Jack.LexicalError
import Jack.LineParts
import Jack.Text.Blank
import Jack.Text.Line

namespace Jack

/-- A physical line with its comments separated from its code. -/
inductive SourceLine where
  | comment (text : String)
  | code (text : String)
  | codeWithComment (code comment : String)
  deriving DecidableEq, Repr

def SourceLine.codePart : SourceLine → String
  | .comment _ => ""
  | .code text => text
  | .codeWithComment text _ => text

def SourceLine.commentPart? : SourceLine → Option String
  | .comment text => some text
  | .code _ => none
  | .codeWithComment _ text => some text

/-- The comment text of a line: its pieces without outer blanks, joined by single spaces. -/
def commentText (pieces : List (List Char)) : List Char :=
  List.intercalate [' '] (pieces.map Text.trim)

def SourceLine.ofParts (parts : LineParts) : SourceLine :=
  let code := String.ofList (Text.trimEnd parts.code)
  let comment := String.ofList (commentText parts.comments)
  if parts.comments.isEmpty then .code code
  else if parts.code.all Text.isBlank then .comment comment
  else .codeWithComment code comment

/-- The records of consecutive physical lines, the first of which has number `line` and may start
inside a block comment, and the opening line of a block comment still open after the last. -/
def SourceLine.ofLines (line : Nat) (openBlock : Option Nat) :
    List (List Char) → List SourceLine × Option Nat
  | [] => ([], openBlock)
  | raw :: rest =>
    let parts := LineParts.ofLine line openBlock raw
    let (records, stillOpen) := SourceLine.ofLines (line + 1) parts.openBlock rest
    (SourceLine.ofParts parts :: records, stillOpen)

def sourceLines (text : String) : Except LexicalError (List SourceLine) :=
  match SourceLine.ofLines 1 none (Text.lines text.toList) with
  | (records, none) => .ok records
  | (_, some opened) => .error (.unterminatedComment opened)

end Jack
