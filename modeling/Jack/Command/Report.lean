import Jack.Command.Arguments
import Jack.Command.Directory
import Jack.Source
import Jack.Tree.Json
import Jack.Tree.Outline

namespace Jack.Command

structure Report where
  exit : UInt32
  out : String
  err : String
  deriving DecidableEq, Repr

def usageText : String :=
  "error: invalid arguments\n\n" ++
  "Usage: jackfront [OPTIONS] <FILE>\n\n" ++
  "For more information, try '--help'.\n"

def versionText : String := "jackfront 0.1.0\n"

def helpText : String :=
  "Tokenize and parse a Jack source file\n\n" ++
  "Usage: jackfront [OPTIONS] <FILE>\n\n" ++
  "Arguments:\n" ++
  "  <FILE>  Jack source file to read\n\n" ++
  "Options:\n" ++
  "      --tokens          Print the token stream instead of the parse tree\n" ++
  "      --json            Emit JSON instead of the indented text form\n" ++
  "      --strip-comments  Drop comments before parsing\n" ++
  "  -v, --verbose...      Log pipeline progress to stderr (-v info, -vv debug)\n" ++
  "  -h, --help            Print help\n" ++
  "  -V, --version         Print version\n"

def Ending.report : Ending → Report
  | .help => ⟨0, helpText, ""⟩
  | .version => ⟨0, versionText, ""⟩
  | .usage => ⟨2, "", usageText⟩

/-- A line of the token listing: the line number in four columns, and the token's description. -/
def listingLine (t : Token) : List Char :=
  let number := t.line.repr.toList
  List.replicate (4 - number.length) ' ' ++ number ++ ' ' :: ' ' :: t.description.toList

def listing (ts : List Token) : String :=
  String.ofList (List.intercalate ['\n'] (ts.map listingLine))

def Settings.showTokens (settings : Settings) (ts : List Token) : String :=
  if settings.json then (tokensToJson ts).render .pretty else listing ts

def Settings.showTree (settings : Settings) (tree : Tree) : String :=
  if settings.json then tree.toJson.render .pretty else tree.outline

/-- The text that the settings ask for, as it is before blanks at its end are removed. -/
def Settings.output (settings : Settings) (text : String) : Traced SourceError String :=
  let options : Options := ⟨!settings.stripComments⟩
  if settings.tokens then
    ((tokenizeText options text).mapError .lexical).andThen fun ts =>
      ⟨.ok (settings.showTokens ts), []⟩
  else (parseText options text).andThen fun tree => ⟨.ok (settings.showTree tree), []⟩

/-- What is printed of an output: no blanks at the end, but one line feed. -/
def printed (output : String) : String := String.ofList (Text.trimEnd output.toList) ++ "\n"

def errorLine (message : String) : String := "error: " ++ message ++ "\n"

def Settings.run (settings : Settings) (contents : Except ReadError String) : Report :=
  match contents with
  | .error e => ⟨1, "", errorLine ("cannot read '" ++ settings.file ++ "': " ++ e.reason)⟩
  | .ok text =>
    let stage := settings.output text
    let log := String.join ((renderLog settings.level stage.log).map fun line => line ++ "\n")
    match stage.result with
    | .error e => ⟨1, "", log ++ errorLine e.message⟩
    | .ok output => ⟨0, printed output, log⟩

def Directory.run (directory : Directory) (arguments : List String) : Report :=
  match Settings.ofArguments arguments with
  | .error ending => ending.report
  | .ok settings => settings.run (directory.read settings.file)

end Jack.Command
