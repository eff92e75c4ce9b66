import Jack.Segment
import Jack.SourceLine

namespace Jack

/-- The tokens of line number `line`: those of its code, then its comment. -/
def SourceLine.tokens (line : Nat) (record : SourceLine) : Except LexicalError (List Token) :=
  match codeTokens? record.codePart line with
  | none => .error (.unterminatedString line)
  | some tokens =>
    .ok (tokens ++ record.commentPart?.toList.map fun text => ⟨.comment text, line⟩)

def tokensFrom (line : Nat) : List SourceLine → Except LexicalError (List Token)
  | [] => .ok []
  | record :: rest =>
    match record.tokens line with
    | .error e => .error e
    | .ok tokens =>
      match tokensFrom (line + 1) rest with
      | .error e => .error e
      | .ok more => .ok (tokens ++ more)

def tokenize (records : List SourceLine) : Except LexicalError (List Token) :=
  tokensFrom 1 records

end Jack
