import Jack.Grammar

namespace Jack

inductive Dispatch where
  | opened (rule : Rule) (line : Nat)
  | closer (line : Nat)
  deriving DecidableEq, Repr

structure Cursor where
  unread : List Token
  trace : Array Dispatch

/-- A reader of tokens. When it fails, the cursor stays where the failure arose. -/
abbrev Parser := EStateM ParseError Cursor

namespace Parser

def fail (e : ParseError) : Parser α := fun cursor => .error e cursor

def unread : Parser (List Token) := fun cursor => .ok cursor.unread cursor

def resume (rest : List Token) : Parser Unit := fun cursor => .ok () { cursor with unread := rest }

def record (dispatch : Dispatch) : Parser Unit := fun cursor =>
  .ok () { cursor with trace := cursor.trace.push dispatch }

def ofExcept : Except ParseError α → Parser α
  | .ok a => pure a
  | .error e => fail e

def significant? (ts : List Token) : Option Token := ts.find? fun t => !t.isComment

def nextIs (expected : Expected) : Parser Bool := do
  return (significant? (← unread)).any expected.accepts

def comments : Parser (List Tree) := do
  let ts ← unread
  resume (ts.dropWhile Token.isComment)
  return (ts.takeWhile Token.isComment).map Tree.leaf

def optionally (sign : Expected) (part : Parser (List Tree)) : Parser (List Tree) := do
  if ← nextIs sign then part else return []

def expect (expected : Expected) : Parser Tree := do
  match ← unread with
  | [] => fail (.unexpectedEnd expected)
  | t :: rest =>
    if expected.accepts t then
      resume rest
      return .leaf t
    else fail (.unexpected expected t)

end Parser

/-- Read what a production describes, where `items` reads a run of items up to a closer. -/
def Production.read (items : Char → Parser (List Tree)) : Production → Parser (List Tree)
  | .done => return []
  | .token expected next => do
    let before ← Parser.comments
    let leaf ← Parser.expect expected
    return before ++ leaf :: (← next.read items)
  | .run closer layout next => do
    let arranged ← Parser.ofExcept (layout.arrange (← items closer))
    let leaf ← Parser.expect (.symbol closer)
    return arranged ++ leaf :: (← next.read items)
  | .optional sign part next => do
    let front ← Parser.optionally sign (part.read items)
    return front ++ (← next.read items)
  | .nested construct part next => do
    let before ← Parser.comments
    let children ← part.read items
    return before ++ .node construct children :: (← next.read items)

namespace Parser

/-- Read the item that starts with `head` and goes on in `rest`, or nothing when `head` closes a
run, in which case it stays unread. -/
def item (items : Char → Parser (List Tree)) (head : Token) (rest : List Token) :
    Parser (Option (List Tree)) :=
  match Choice.of head (significant? rest) with
  | .closer => do
    record (.closer head.line)
    return none
  | .forbidden => fail (.noRule head)
  | .terminal => do
    resume rest
    return some [.leaf head]
  | .opens rule => do
    record (.opened rule head.line)
    resume rest
    return some (rule.build head (← rule.production.read items))

/-- Read items up to a closer, which stays unread. At most `limit` tokens are unread, so that none
is left when it is zero. -/
def items : (limit : Nat) → (closer : Char) → Parser (List Tree)
  | 0, closer => fail (.unexpectedEnd (.symbol closer))
  | limit + 1, closer => do
    match ← unread with
    | [] => fail (.unexpectedEnd (.symbol closer))
    | head :: rest =>
      if head.isSymbol closer then return []
      else
        match ← item (items limit) head rest with
        | none => fail (.mismatchedCloser closer head)
        | some trees => return trees ++ (← items limit closer)

def classTree : Parser Tree := do
  let limit := (← unread).length
  let children ← Production.wholeClass.read (items limit)
  return .node .class_ (children ++ (← comments))

def program : Parser Tree := do
  let tree ← classTree
  match ← unread with
  | [] => return tree
  | t :: _ => fail (.trailingInput t)

end Parser

end Jack
