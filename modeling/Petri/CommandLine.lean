import Petri.Error.Inspection
import Petri.Report
import Petri.Rule.Assembly

/-! The command line over an abstract disk, so that the same steps run on real files and on a folder in memory. -/

namespace Petri.CommandLine

inductive FileFault where
  | notFound
  | notADirectory
  | isADirectory
  | nameTooLong
  | notText
  | other (text : String)

def inspectSystem (code : Nat) (kind message : String) : String :=
  inspectRecord "Os" [("code", toString code), ("kind", kind), ("message", Text.quoted message)]

def FileFault.inspect : FileFault → String
  | notFound => inspectSystem 2 "NotFound" "No such file or directory"
  | notADirectory => inspectSystem 20 "NotADirectory" "Not a directory"
  | isADirectory => inspectSystem 21 "IsADirectory" "Is a directory"
  | nameTooLong => inspectSystem 36 "InvalidFilename" "File name too long"
  | notText =>
    inspectRecord "Error"
      [("kind", "InvalidData"), ("message", Text.quoted "stream did not contain valid UTF-8")]
  | other text => text

structure Disk (m : Type → Type) where
  read : String → m (Except FileFault ByteArray)
  write : String → String → m (Except FileFault Unit)

structure Outcome where
  exitCode : Nat
  output : String := ""
  errors : String := ""

def usage : Outcome where
  exitCode := 2
  errors := "Usage: petri_checker <net.petri> [output directory]\n"

def parts (path : String) : List String :=
  (path.toList.splitOn '/').map String.ofList

def components (path : String) : List String :=
  (parts path).filter fun part => part ≠ "" && part ≠ "."

/-- A name without its last dot and what follows, unless that dot comes first. -/
def stem (name : String) : String :=
  let tail := name.toList.reverse
  match tail.dropWhile (· ≠ '.') with
  | '.' :: c :: front => String.ofList (c :: front).reverse
  | _ => name

def netId (path : String) : String :=
  match (components path).getLast? with
  | none => "net"
  | some name => if name = ".." then "net" else stem name

def join (directory name : String) : String :=
  if directory.isEmpty || directory.toList.getLast? = some '/' then directory ++ name
  else directory ++ "/" ++ name

def failure (output : String) : Error → Outcome
  | .tokenOverflow => { exitCode := 101, output, errors := Error.tokenOverflow.message ++ "\n" }
  | error => { exitCode := 1, output, errors := "Error: " ++ error.inspect ++ "\n" }

def fileFailure (output : String) (fault : FileFault) : Outcome :=
  { exitCode := 1, output, errors := "Error: IOError(" ++ fault.inspect ++ ")\n" }

def report (id : String) (bytes : ByteArray) : Except Outcome Report :=
  match String.fromUTF8? bytes with
  | none => .error (fileFailure "" .notText)
  | some text =>
    match Net.ofText id text >>= Report.ofNet with
    | .error error => .error (failure "" error)
    | .ok R => .ok R

variable {m : Type → Type} [Monad m]

def writeAll (disk : Disk m) (directory : String) : List (String × String) → m (Option FileFault)
  | [] => return none
  | (name, content) :: files => do
    match ← disk.write (join directory name) content with
    | .error fault => return some fault
    | .ok () => writeAll disk directory files

def run (disk : Disk m) : List String → m Outcome
  | [] => return usage
  | path :: rest => do
    match ← disk.read path with
    | .error fault => return fileFailure "" fault
    | .ok bytes =>
      match report (netId path) bytes with
      | .error outcome => return outcome
      | .ok R =>
        let done : Outcome := { exitCode := 0, output := R.render }
        match rest with
        | [] => return done
        | directory :: _ =>
          match ← writeAll disk directory R.drawings with
          | none => return done
          | some fault => return fileFailure R.render fault

end Petri.CommandLine
