import Petri.CommandLine

/-! The program: the command line on real files. -/

namespace Petri.Main

open CommandLine

def faultOf : IO.Error → FileFault
  | .noFileOrDirectory .. => .notFound
  | .inappropriateType _ 21 _ => .isADirectory
  | .inappropriateType .. => .notADirectory
  | .invalidArgument _ 36 _ => .nameTooLong
  | error => .other (toString error)

def attempt {α : Type} (action : IO α) : IO (Except FileFault α) := do
  try
    return .ok (← action)
  catch error =>
    return .error (faultOf error)

def files : Disk IO where
  read path := attempt (IO.FS.readBinFile path)
  write path content := attempt (IO.FS.writeFile path content)

end Petri.Main

def main (args : List String) : IO UInt32 := do
  let outcome ← Petri.CommandLine.run Petri.Main.files args
  IO.print outcome.output
  (← IO.getStdout).flush
  IO.eprint outcome.errors
  return outcome.exitCode.toUInt32
