import Jack.Log

namespace Jack.Command

structure Settings where
  file : String
  tokens : Bool
  json : Bool
  stripComments : Bool
  verbosity : Nat
  deriving DecidableEq, Repr

inductive Ending where
  | help | version | usage
  deriving DecidableEq, Repr

structure Arguments where
  file : Option String := none
  tokens : Bool := false
  json : Bool := false
  stripComments : Bool := false
  verbosity : Nat := 0
  deriving DecidableEq, Repr

/-- End with a request for help or for the version, which an empty file name before it spoils. -/
def Arguments.finish (arguments : Arguments) (ending : Ending) : Except Ending Arguments :=
  .error (if arguments.file = some "" then .usage else ending)

def Arguments.addFile (arguments : Arguments) (file : String) : Except Ending Arguments :=
  match arguments.file with
  | none => .ok { arguments with file := some file }
  | some _ => .error .usage

/-- An option with two dashes is written in full and takes no value, and all but the verbosity
stand at most once. -/
def Arguments.addLong (arguments : Arguments) (name : String) : Except Ending Arguments :=
  match name with
  | "tokens" =>
    if arguments.tokens then .error .usage else .ok { arguments with tokens := true }
  | "json" => if arguments.json then .error .usage else .ok { arguments with json := true }
  | "strip-comments" =>
    if arguments.stripComments then .error .usage
    else .ok { arguments with stripComments := true }
  | "verbose" => .ok { arguments with verbosity := arguments.verbosity + 1 }
  | "help" => arguments.finish .help
  | "version" => arguments.finish .version
  | _ => .error .usage

/-- Options with one dash may be written together; the first that ends the program wins. -/
def Arguments.addShort (arguments : Arguments) : List Char → Except Ending Arguments
  | [] => .ok arguments
  | 'v' :: rest => { arguments with verbosity := arguments.verbosity + 1 }.addShort rest
  | 'h' :: _ => arguments.finish .help
  | 'V' :: _ => arguments.finish .version
  | _ => .error .usage

/-- A single dash is a file name. -/
def Arguments.add (arguments : Arguments) (argument : String) : Except Ending Arguments :=
  match argument.toList with
  | '-' :: '-' :: name => arguments.addLong (String.ofList name)
  | '-' :: c :: rest => arguments.addShort (c :: rest)
  | _ => arguments.addFile argument

/-- Read arguments from left to right; after two dashes all are file names. -/
def Arguments.addAll (arguments : Arguments) : List String → Except Ending Arguments
  | [] => .ok arguments
  | argument :: rest =>
    if argument = "--" then rest.foldlM Arguments.addFile arguments
    else
      match arguments.add argument with
      | .error ending => .error ending
      | .ok added => added.addAll rest

def Settings.ofArguments (arguments : List String) : Except Ending Settings :=
  match ({} : Arguments).addAll arguments with
  | .error ending => .error ending
  | .ok ⟨some file, tokens, json, stripComments, verbosity⟩ =>
    if file = "" then .error .usage else .ok ⟨file, tokens, json, stripComments, verbosity⟩
  | .ok _ => .error .usage

def Settings.level (settings : Settings) : Option Level :=
  match settings.verbosity with
  | 0 => none
  | 1 => some .info
  | _ => some .debug

end Jack.Command
