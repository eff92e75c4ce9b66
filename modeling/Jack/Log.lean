import Jack.Parser

namespace Jack

inductive Level where
  | info | debug
  deriving DecidableEq, Repr

def Level.label : Level → String
  | .info => "INFO"
  | .debug => "DEBUG"

def Level.shows (level entry : Level) : Bool :=
  match level, entry with
  | .info, .debug => false
  | _, _ => true

/-- What the stages report: the tokens of all lines, the tokens that are kept, a choice of the
parser, and a class read to the end of the input. -/
inductive LogEntry where
  | scanned (lines tokens : Nat)
  | kept (lines tokens : Nat)
  | dispatched (dispatch : Dispatch)
  | parsed (children tokens : Nat)
  deriving DecidableEq, Repr

def LogEntry.level : LogEntry → Level
  | .scanned _ _ | .dispatched _ => .debug
  | .kept _ _ | .parsed _ _ => .info

def Dispatch.message : Dispatch → String
  | .opened rule line => "line " ++ line.repr ++ ": dispatching " ++ rule.name
  | .closer line => "line " ++ line.repr ++ ": dispatching Closer"

def LogEntry.message : LogEntry → String
  | .scanned lines tokens | .kept lines tokens =>
    "tokenized " ++ lines.repr ++ " lines into " ++ tokens.repr ++ " tokens"
  | .dispatched dispatch => dispatch.message
  | .parsed children tokens =>
    "parsed class with " ++ children.repr ++ " top-level children from " ++ tokens.repr ++ " tokens"

def LogEntry.render (entry : LogEntry) : String :=
  "[" ++ entry.level.label ++ "] " ++ entry.message

def renderLog (level : Option Level) (log : List LogEntry) : List String :=
  match level with
  | none => []
  | some level => (log.filter fun entry => level.shows entry.level).map LogEntry.render

/-- The result of a stage, and what it reported on the way, also when it failed. -/
structure Traced (ε α : Type) where
  result : Except ε α
  log : List LogEntry

def Traced.andThen (first : Traced ε α) (next : α → Traced ε β) : Traced ε β :=
  match first.result with
  | .error e => ⟨.error e, first.log⟩
  | .ok a => ⟨(next a).result, first.log ++ (next a).log⟩

def Traced.mapError (f : ε → δ) (stage : Traced ε α) : Traced δ α :=
  ⟨stage.result.mapError f, stage.log⟩

end Jack
