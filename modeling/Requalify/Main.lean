import Requalify.CommandLine.Execution

/-! The program: a command line, carried out on the disk of the machine. -/

namespace Requalify.Machine

/-- The number of an error, which some requests report negated. -/
def numberOf (code : UInt32) : UInt32 :=
  if code < 0x80000000 then code else 0 - code

def causeOf (error : IO.Error) : DiskError :=
  match error with
  | .noFileOrDirectory .. => .missing
  | .permissionDenied .. => .denied
  | .inappropriateType _ code _ => if numberOf code = 20 then .notDirectory else .isDirectory
  | .invalidArgument _ code _ =>
      if numberOf code = 36 then .nameTooLong else .other (toString error)
  | _ => .other (toString error)

def guarded {α : Type} (action : IO α) : IO (Except DiskError α) := do
  try return .ok (← action) catch error => return .error (causeOf error)

def kind? (path : FilePath) : IO (Option IO.FS.FileType) := do
  try return some (← (← IO.FS.realPath path.text).metadata).type catch _ => return none

/-- The files below a directory; links are not followed. -/
partial def filesBelow (enters : String → Bool) (path : FilePath) :
    IO (Except (FilePath × DiskError) (List FilePath)) := do
  match ← guarded do (← IO.FS.realPath path.text).readDir with
  | .error cause => return .error (path, cause)
  | .ok entries =>
      let mut found := #[]
      for entry in entries do
        let inner := path.join ⟨entry.fileName⟩
        match ← guarded entry.path.symlinkMetadata with
        | .error cause => return .error (inner, cause)
        | .ok data =>
            if data.type == .file then found := found.push inner
            if data.type == .dir && enters entry.fileName then
              match ← filesBelow enters inner with
              | .error failure => return .error failure
              | .ok files => found := found ++ files
      return .ok found.toList

def disk : Disk IO where
  isDirectory path := return (← kind? path) == some .dir
  isFile path := return (← kind? path) == some .file
  read path := guarded (IO.FS.readBinFile path.text)
  write path content := guarded (IO.FS.writeBinFile path.text content)
  filesBelow path enters := filesBelow enters path

end Requalify.Machine

open Requalify

def main (words : List String) : IO UInt32 := do
  let current := FilePath.mk (← IO.currentDir).toString
  let response ← CommandLine.respond Machine.disk current words
  (← IO.getStdout).putStr response.output
  (← IO.getStderr).putStr response.errors
  return response.exit.toUInt32
