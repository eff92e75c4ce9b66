namespace Jack

/-- A physical line taken apart: the code with one blank in the place of each block comment that
starts on the line, the comment pieces in order, and the line where a block comment still open at
the end was opened. -/
structure LineParts where
  code : List Char
  comments : List (List Char)
  openBlock : Option Nat
  deriving DecidableEq, Repr

def LineParts.addCode (c : Char) (parts : LineParts) : LineParts :=
  { parts with code := c :: parts.code }

def LineParts.addComment (piece : List Char) (parts : LineParts) : LineParts :=
  { parts with comments := piece :: parts.comments }

mutual

/-- Take apart a line from a place in code; `inString` says whether a string literal is open there,
in which case comment openers are code. -/
def splitCode (line : Nat) : (inString : Bool) → List Char → LineParts
  | _, [] => ⟨[], [], none⟩
  | false, '/' :: '/' :: rest => ⟨[], ['/' :: '/' :: rest], none⟩
  | false, '/' :: '*' :: rest =>
    let (piece, parts) := splitBlock line line rest
    (parts.addComment ('/' :: '*' :: piece)).addCode ' '
  | inString, c :: rest =>
    (splitCode line (if c = '"' then !inString else inString) rest).addCode c

/-- Take apart a line from a place inside the block comment opened on line `opened`: the rest of
that comment's piece, and the parts after it. -/
def splitBlock (line opened : Nat) : List Char → List Char × LineParts
  | [] => ([], ⟨[], [], some opened⟩)
  | '*' :: '/' :: rest => (['*', '/'], splitCode line false rest)
  | c :: rest =>
    let (piece, parts) := splitBlock line opened rest
    (c :: piece, parts)

end

def LineParts.ofLine (line : Nat) (openBlock : Option Nat) (raw : List Char) : LineParts :=
  match openBlock with
  | none => splitCode line false raw
  | some opened =>
    let (piece, parts) := splitBlock line opened raw
    parts.addComment piece

end Jack
