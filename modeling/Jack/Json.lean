namespace Jack

inductive Json where
  | number (value : Nat)
  | string (value : String)
  | array (items : List Json)
  | object (fields : List (String × Json))

namespace Json

/-- The two ways to write a value: on one line, or with every item and field on its own line. -/
inductive Style where
  | compact | pretty
  deriving DecidableEq, Repr

def Style.lineBreak : Style → Nat → List Char
  | .compact, _ => []
  | .pretty, depth => '\n' :: List.replicate (2 * depth) ' '

def Style.colon : Style → List Char
  | .compact => [':']
  | .pretty => [':', ' ']

/-- A character inside a string: quotes, backslashes and the control characters below U+0020 are
escaped, and all others stand for themselves. -/
def escapeChar (c : Char) : List Char :=
  match c with
  | '"' => ['\\', '"']
  | '\\' => ['\\', '\\']
  | '\x08' => ['\\', 'b']
  | '\t' => ['\\', 't']
  | '\n' => ['\\', 'n']
  | '\x0c' => ['\\', 'f']
  | '\r' => ['\\', 'r']
  | _ =>
    if c.toNat < 0x20 then
      ['\\', 'u', '0', '0', Nat.digitChar (c.toNat / 16), Nat.digitChar (c.toNat % 16)]
    else [c]

def quote (s : String) : List Char := '"' :: (s.toList.flatMap escapeChar ++ ['"'])

mutual

def write (style : Style) (depth : Nat) : Json → List Char
  | .number value => Nat.toDigits 10 value
  | .string value => quote value
  | .array [] => ['[', ']']
  | .array (item :: items) =>
    '[' :: (style.lineBreak (depth + 1) ++ write style (depth + 1) item ++
      writeItems style depth items)
  | .object [] => ['\x7b', '\x7d']
  | .object ((name, value) :: fields) =>
    '\x7b' :: (style.lineBreak (depth + 1) ++ quote name ++ style.colon ++
      write style (depth + 1) value ++ writeFields style depth fields)

def writeItems (style : Style) (depth : Nat) : List Json → List Char
  | [] => style.lineBreak depth ++ [']']
  | item :: items =>
    ',' :: (style.lineBreak (depth + 1) ++ write style (depth + 1) item ++
      writeItems style depth items)

def writeFields (style : Style) (depth : Nat) : List (String × Json) → List Char
  | [] => style.lineBreak depth ++ ['\x7d']
  | (name, value) :: fields =>
    ',' :: (style.lineBreak (depth + 1) ++ quote name ++ style.colon ++
      write style (depth + 1) value ++ writeFields style depth fields)

end

def render (style : Style) (json : Json) : String := String.ofList (json.write style 0)

end Json

end Jack
