import StylesheetPruning.Command.Run

/-!
# The command line program

The host of a real file system, and the entry point of the program.
-/

namespace StylesheetPruning

/--
An error by its number and description. Numbers may come as negatives of 32
bits, and the errors that the library names have its descriptions.
-/
def numberedError (code : UInt32) (description : String) : SystemError :=
  let n :=
    if code.toNat < UInt32.size / 2 then code.toNat
    else UInt32.size - code.toNat
  (SystemError.named.find? (fun error => error.code = n)).getD ⟨n, description⟩

/-- An error of the file system, as the library knows it. -/
def systemErrorOf : IO.Error → SystemError
  | .noFileOrDirectory _ code description => numberedError code description
  | .alreadyExists _ code description => numberedError code description
  | .inappropriateType _ code description => numberedError code description
  | .permissionDenied _ code description => numberedError code description
  | .invalidArgument _ code description => numberedError code description
  | .interrupted _ code description => numberedError code description
  | .resourceExhausted _ code description => numberedError code description
  | .noSuchThing _ code description => numberedError code description
  | .resourceVanished code description => numberedError code description
  | .unsupportedOperation code description => numberedError code description
  | .hardwareFault code description => numberedError code description
  | .unsatisfiedConstraints code description => numberedError code description
  | .illegalOperation code description => numberedError code description
  | .protocolError code description => numberedError code description
  | .timeExpired code description => numberedError code description
  | .resourceBusy code description => numberedError code description
  | .otherError code description => numberedError code description
  | error => ⟨0, toString error⟩

/-- Run an action and catch an error of the file system. -/
def attempt {α : Type} (action : IO α) : IO (Except SystemError α) := do
  try
    return .ok (← action)
  catch error =>
    return .error (systemErrorOf error)

/-- The host of the file system in which the program runs. -/
def fileSystem : Host IO where
  read path := attempt (IO.FS.readBinFile (String.ofList path))
  write path content :=
    attempt (IO.FS.writeBinFile (String.ofList path) content)
  makeDir path := attempt (IO.FS.createDir (String.ofList path))
  isDir path := do
    match ← attempt (IO.FS.realPath (String.ofList path)) with
    | .ok resolved => resolved.isDir
    | .error _ => return false
  print line := IO.println (String.ofList line)
  note line := IO.eprintln (String.ofList line)

end StylesheetPruning

/-- Prune a stylesheet against pages, as the arguments say. -/
def main (arguments : List String) : IO UInt32 := do
  let code ← StylesheetPruning.fileSystem.execute (arguments.map String.toList)
  return code.toUInt32
