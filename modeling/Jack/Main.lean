import Jack.Command.Report

namespace Jack.Command

/-- The reason that an error of the file system stands for. A path that leads through a file is
refused with its name when it is opened, a directory without a name when it is read. -/
def readErrorOf (e : IO.Error) : ReadError :=
  match e with
  | .noFileOrDirectory .. => .notFound
  | .inappropriateType (some _) .. => .notDirectory
  | .inappropriateType none .. => .isDirectory
  | _ => .other e.toString

def readText (file : String) : IO (Except ReadError String) := do
  match ← (IO.FS.readBinFile file).toBaseIO with
  | .ok bytes => return decodeText bytes
  | .error e => return .error (readErrorOf e)

end Jack.Command

open Jack.Command in
def main (arguments : List String) : IO UInt32 := do
  let report ← match Settings.ofArguments arguments with
    | .error ending => pure ending.report
    | .ok settings => pure (settings.run (← readText settings.file))
  IO.print report.out
  IO.eprint report.err
  return report.exit
