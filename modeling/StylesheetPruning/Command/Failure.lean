import StylesheetPruning.Pruning.Refusal
import StylesheetPruning.Text.Basic

/-!
# Why a run of the command fails

A run fails because of its arguments, because the system refuses to read or
write, or because an input is refused. Every failure has one message.
-/

namespace StylesheetPruning

/-- An error of the file system: its number and its description. -/
structure SystemError where
  code : Nat
  description : String
deriving Repr, DecidableEq

namespace SystemError

/-- There is nothing at a path. -/
def notFound : SystemError :=
  ⟨2, "No such file or directory"⟩

/-- There is something at a path that should be free. -/
def alreadyExists : SystemError :=
  ⟨17, "File exists"⟩

/-- A path leads through something that is no directory. -/
def notADirectory : SystemError :=
  ⟨20, "Not a directory"⟩

/-- There is a directory where a file should be. -/
def isADirectory : SystemError :=
  ⟨21, "Is a directory"⟩

/-- The errors with names. -/
def named : List SystemError :=
  [notFound, alreadyExists, notADirectory, isADirectory]

/-- The description with the number. -/
def message (error : SystemError) : String :=
  error.description ++ " (os error " ++ toString error.code ++ ")"

end SystemError

/-- Why a run fails. -/
inductive Failure where
  /-- Several pages need a directory for their results. -/
  | directoryRequired
  /-- The results for two pages would be written to one path. -/
  | sharedDestination (first second destination : Text)
  /-- An input cannot be read. -/
  | reading (path : Text) (error : SystemError)
  /-- The output directory cannot be created. -/
  | creating (path : Text) (error : SystemError)
  /-- A result cannot be written. -/
  | writing (path : Text) (error : SystemError)
  /-- The stylesheet is refused. -/
  | stylesheet (path : Text) (error : Refusal)
  /-- A page is refused. -/
  | page (path : Text) (error : Refusal)
deriving Repr, DecidableEq

namespace Failure

/-- The message of a failure. -/
def message : Failure → Text
  | directoryRequired =>
      "--output-dir is required when pruning against more than one page".toList
  | sharedDestination first second destination =>
      first ++ " and ".toList ++ second ++
        " would both be written to ".toList ++ destination
  | reading path error =>
      "Error reading ".toList ++ path ++ ": ".toList ++ error.message.toList
  | creating path error =>
      "Error creating ".toList ++ path ++ ": ".toList ++ error.message.toList
  | writing path error =>
      "Error writing ".toList ++ path ++ ": ".toList ++ error.message.toList
  | stylesheet path error =>
      "Error pruning ".toList ++ path ++ ": ".toList ++ error.message.toList
  | page path error =>
      "Error pruning against ".toList ++ path ++ ": ".toList ++
        error.message.toList

end Failure

end StylesheetPruning
