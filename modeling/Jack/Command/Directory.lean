namespace Jack.Command

inductive ReadError where
  | notFound
  | notDirectory
  | isDirectory
  | invalidText
  | other (reason : String)
  deriving DecidableEq, Repr

def ReadError.reason : ReadError → String
  | .notFound => "No such file or directory (os error 2)"
  | .notDirectory => "Not a directory (os error 20)"
  | .isDirectory => "Is a directory (os error 21)"
  | .invalidText => "stream did not contain valid UTF-8"
  | .other reason => reason

def decodeText (bytes : ByteArray) : Except ReadError String :=
  match String.fromUTF8? bytes with
  | some text => .ok text
  | none => .error .invalidText

/-- The names between the slashes of a path, with an empty name where two slashes meet. -/
def pathNames : List Char → List (List Char)
  | [] => [[]]
  | '/' :: rest => [] :: pathNames rest
  | c :: rest =>
    match pathNames rest with
    | [] => [[c]]
    | name :: names => (c :: name) :: names

structure Directory where
  files : List (String × ByteArray)

/-- Where a path leads: to a directory at or below the working directory, to a directory
elsewhere, of which nothing is known, or to a file. -/
inductive Place where
  | inside (path : List (List Char))
  | outside
  | file (bytes : ByteArray)

def Directory.enter (directory : Directory) (path : List (List Char)) (name : List Char) :
    Except ReadError Place :=
  let target := path ++ [name]
  match directory.files.find? fun file => pathNames file.1.toList == target with
  | some file => .ok (.file file.2)
  | none =>
    if directory.files.any fun file => target.isPrefixOf (pathNames file.1.toList) then
      .ok (.inside target)
    else .error .notFound

/-- Follow one name of a path. An empty name or a dot stays in a directory, two dots leave it, and
nothing leads on from a file. -/
def Directory.follow (directory : Directory) (place : Place) (name : List Char) :
    Except ReadError Place :=
  match place with
  | .file _ => .error .notDirectory
  | .outside =>
    if name = [] ∨ name = ['.'] ∨ name = ['.', '.'] then .ok .outside else .error .notFound
  | .inside path =>
    if name = [] ∨ name = ['.'] then .ok (.inside path)
    else if name = ['.', '.'] then .ok (if path = [] then .outside else .inside path.dropLast)
    else directory.enter path name

def Directory.read (directory : Directory) (path : String) : Except ReadError String :=
  let start := if path.toList.head? = some '/' then Place.outside else .inside []
  match (pathNames path.toList).foldlM directory.follow start with
  | .error e => .error e
  | .ok (.file bytes) => decodeText bytes
  | .ok _ => .error .isDirectory

end Jack.Command
