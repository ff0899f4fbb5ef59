import StylesheetPruning.Command.Arguments
import StylesheetPruning.Command.Failure
import StylesheetPruning.Command.Path
import StylesheetPruning.Pruning.Checked

/-!
# Running the command

A run talks to a host, which reads and writes files and prints lines. The
same run works on a host for a real file system and on one for a tree of
files in memory.

**Order.** Destinations that clash are found before anything is read. The
stylesheet is read before the pages, and all inputs are read before anything
is written. The output directory is created once the stylesheet is accepted.
Pages are then reported and written in order, up to the first that is refused
or cannot be written.

**Exit codes.** A run that succeeds ends with 0, one that fails with 1, and
arguments that are refused give 2 without a run.
-/

namespace StylesheetPruning

/-- What a run needs from its surroundings. -/
structure Host (m : Type → Type) where
  /-- Read a file. -/
  read : Text → m (Except SystemError ByteArray)
  /-- Write a file, replacing what was there. -/
  write : Text → ByteArray → m (Except SystemError Unit)
  /-- Create a directory in an existing one. -/
  makeDir : Text → m (Except SystemError Unit)
  /-- Whether there is a directory at a path. -/
  isDir : Text → m Bool
  /-- Print a line as a result. -/
  print : Text → m Unit
  /-- Print a line as a message. -/
  note : Text → m Unit

/-- A page, and where its result goes unless it is printed. -/
structure Job where
  page : Text
  destination : Option Text
deriving Repr, DecidableEq

namespace Job

/-- Give pages their destinations behind those that have one already. -/
def assign (directory : Text) : List Job → List Text → Except Failure (List Job)
  | done, [] => .ok done.reverse
  | done, page :: rest =>
      let destination := Path.destination directory page
      match done.find? (fun job => job.destination = some destination) with
      | some earlier =>
          .error (.sharedDestination earlier.page page destination)
      | none => assign directory (⟨page, some destination⟩ :: done) rest

/-- The jobs that the arguments ask for. -/
def ofArguments (args : Arguments) : Except Failure (List Job) :=
  match args.directory with
  | some directory => assign directory [] args.pages
  | none =>
      if 1 < args.pages.length then .error .directoryRequired
      else .ok (args.pages.map (fun page => ⟨page, none⟩))

end Job

/-- The line of a report. -/
def Report.line (report : Report) (page : Text) : Text :=
  page ++ (": " ++ toString report.analyzed ++ " rulesets analyzed, " ++
    toString report.dropped ++ " dropped, " ++
    toString report.reduced ++ " rewritten, " ++
    toString report.selectors ++ " selectors removed, " ++
    toString report.comments ++ " comments removed, " ++
    toString report.emptied ++ " empty rulesets removed").toList

namespace Host

variable {m : Type → Type} [Monad m]

/-- Read a file, or say which file cannot be read. -/
def readFile (host : Host m) (path : Text) : m (Except Failure ByteArray) := do
  match ← host.read path with
  | .ok bytes => pure (.ok bytes)
  | .error error => pure (.error (.reading path error))

/-- Read several files in order, up to the first that cannot be read. -/
def readAll (host : Host m) : List Text → m (Except Failure (List ByteArray))
  | [] => pure (.ok [])
  | path :: rest => do
      match ← host.readFile path with
      | .error failure => pure (.error failure)
      | .ok bytes =>
          match ← host.readAll rest with
          | .error failure => pure (.error failure)
          | .ok others => pure (.ok (bytes :: others))

/-- Create a directory, given its path and the paths above it. -/
def makeDirs (host : Host m) : List Text → m (Except SystemError Unit)
  | [] => pure (.ok ())
  | path :: ancestors => do
      match ← host.makeDir path with
      | .ok () => pure (.ok ())
      | .error error =>
          if error = .notFound then
            match ← host.makeDirs ancestors with
            | .error above => pure (.error above)
            | .ok () =>
                match ← host.makeDir path with
                | .ok () => pure (.ok ())
                | .error again =>
                    if ← host.isDir path then pure (.ok ())
                    else pure (.error again)
          else if ← host.isDir path then pure (.ok ())
          else pure (.error error)

/-- Make sure that the output directory exists, if there is one. -/
def prepare (host : Host m) (args : Arguments) : m (Except Failure Unit) :=
  match args.directory with
  | none => pure (.ok ())
  | some directory => do
      match ← host.makeDirs (Path.withAncestors directory) with
      | .ok () => pure (.ok ())
      | .error error => pure (.error (.creating directory error))

/-- Write or print the result of a job. -/
def deliver (host : Host m) (job : Job) (css : Text) : m (Except Failure Unit) :=
  match job.destination with
  | none => do
      host.print css
      pure (.ok ())
  | some path => do
      match ← host.write path (encodeUtf8 css) with
      | .ok () => pure (.ok ())
      | .error error => pure (.error (.writing path error))

/-- Report and deliver results in order, up to the first failure. -/
def deliverAll (host : Host m) (report : Bool) :
    List (Job × Except Refusal Outcome) → m (Except Failure Unit)
  | [] => pure (.ok ())
  | (job, result) :: rest =>
      match result with
      | .error error => pure (.error (.page job.page error))
      | .ok outcome => do
          if report then
            host.note (outcome.report.line job.page)
          match ← host.deliver job outcome.text with
          | .error failure => pure (.error failure)
          | .ok () => host.deliverAll report rest

/-- Read the stylesheet, and then the pages. -/
def readInputs (host : Host m) (args : Arguments) :
    m (Except Failure (ByteArray × List ByteArray)) := do
  match ← host.readFile args.stylesheet with
  | .error failure => pure (.error failure)
  | .ok css =>
      match ← host.readAll args.pages with
      | .error failure => pure (.error failure)
      | .ok pages => pure (.ok (css, pages))

/-- Run what the arguments ask for. -/
def run (host : Host m) (args : Arguments) : m (Except Failure Unit) :=
  match Job.ofArguments args with
  | .error failure => pure (.error failure)
  | .ok jobs => do
      match ← host.readInputs args with
      | .error failure => pure (.error failure)
      | .ok (css, pages) =>
          let limits : Limits := { maxBytes := args.limit }
          match limits.outcomesOfBytes css pages with
          | .error error => pure (.error (.stylesheet args.stylesheet error))
          | .ok results =>
              match ← host.prepare args with
              | .error failure => pure (.error failure)
              | .ok () => host.deliverAll args.report (jobs.zip results)

/-- Run the command and give its exit code. -/
def execute (host : Host m) (arguments : List Text) : m Nat :=
  match Arguments.ofList? arguments with
  | none => pure 2
  | some args => do
      match ← host.run args with
      | .ok () => pure 0
      | .error failure =>
          host.note failure.message
          pure 1

end Host

end StylesheetPruning
