namespace Jack

/-- The reserved words of Jack. -/
inductive Keyword where
  | class_ | constructor | function | method | field | static | var
  | int | char | boolean | void | true_ | false_ | null | this
  | let_ | do_ | if_ | else_ | while_ | return_
  deriving DecidableEq, Repr

def Keyword.all : List Keyword :=
  [.class_, .constructor, .function, .method, .field, .static, .var,
   .int, .char, .boolean, .void, .true_, .false_, .null, .this,
   .let_, .do_, .if_, .else_, .while_, .return_]

def Keyword.spelling : Keyword → String
  | .class_ => "class"
  | .constructor => "constructor"
  | .function => "function"
  | .method => "method"
  | .field => "field"
  | .static => "static"
  | .var => "var"
  | .int => "int"
  | .char => "char"
  | .boolean => "boolean"
  | .void => "void"
  | .true_ => "true"
  | .false_ => "false"
  | .null => "null"
  | .this => "this"
  | .let_ => "let"
  | .do_ => "do"
  | .if_ => "if"
  | .else_ => "else"
  | .while_ => "while"
  | .return_ => "return"

def Keyword.ofSpelling? (word : String) : Option Keyword :=
  Keyword.all.find? fun keyword => keyword.spelling == word

@[simp] theorem Keyword.ofSpelling?_spelling (keyword : Keyword) :
    Keyword.ofSpelling? keyword.spelling = some keyword := by
  cases keyword <;> decide

theorem Keyword.spelling_of_ofSpelling? {word : String} {keyword : Keyword}
    (h : Keyword.ofSpelling? word = some keyword) : keyword.spelling = word := by
  simpa using List.find?_some h

end Jack
