import Mathlib.Data.List.Forall2
import StylesheetPruning.Command.FileTree

/-!
# Hosts that may fail

A tree of files refuses to read or to write for reasons of its own. A real
system has others: permissions that are missing, or a full disk. A host with
faults may refuse any access, and changes nothing then.

**Faults.** `Faults` says which accesses the system refuses, by the tree and the
path. Without faults the host is that of the world.

**Runs.** A run of the command is a function of the world. `Host.readAll` and
`Host.readInputs` leave the world alone, and `Host.prepare` only adds
directories to its tree.

**Results.**
* `execute_absent`: without faults a run is that of the world.
* `readInputs_cases`: all inputs are read, or one cannot be.
* `onlyAddsDirs_prepare`: what preparing the output directory can do.
-/

namespace StylesheetPruning

/-- Errors that a system adds to those of a tree of files. -/
structure Faults where
  reading : FileTree → Text → Option SystemError
  writing : FileTree → Text → Option SystemError
  creating : FileTree → Text → Option SystemError

namespace Faults

/-- No errors but those of the tree. -/
def absent : Faults where
  reading _ _ := none
  writing _ _ := none
  creating _ _ := none

variable (faults : Faults)

/-- Read a file of a tree. -/
def read (tree : FileTree) (directory : Location) (path : Text) :
    Except SystemError ByteArray :=
  match faults.reading tree path with
  | some error => .error error
  | none => tree.read directory path

/-- Write a file of a tree. -/
def write (tree : FileTree) (directory : Location) (path : Text)
    (content : ByteArray) : Except SystemError FileTree :=
  match faults.writing tree path with
  | some error => .error error
  | none => tree.write directory path content

/-- Create a directory of a tree. -/
def makeDir (tree : FileTree) (directory : Location) (path : Text) :
    Except SystemError FileTree :=
  match faults.creating tree path with
  | some error => .error error
  | none => tree.makeDir directory path

/-- The host that works on a world and has faults. -/
def host : Host (StateM World) where
  read path := fun world =>
    (faults.read world.tree world.directory path, world)
  write path content := fun world =>
    world.update (faults.write world.tree world.directory path content)
  makeDir path := fun world =>
    world.update (faults.makeDir world.tree world.directory path)
  isDir path := World.host.isDir path
  print line := World.host.print line
  note line := World.host.note line

/-- Run the command: its exit code, and the world afterwards. -/
def execute (world : World) (arguments : List Text) : Nat × World :=
  (faults.host.execute arguments).run world

/-- Without faults the command runs in the world alone. -/
theorem execute_absent (world : World) (arguments : List Text) :
    absent.execute world arguments = world.execute arguments := rfl

end Faults

section Running

variable {α β : Type}

/-- One action after another. -/
theorem run_bind_world
    (action : StateM World α) (next : α → StateM World β) (world : World) :
    (action >>= next).run world =
      (next (action.run world).1).run (action.run world).2 := rfl

end Running

section Reading

variable (faults : Faults) {world : World}

theorem run_readFile_of_ok
    {path : Text} {content : ByteArray}
    (h : faults.read world.tree world.directory path = .ok content) :
    (faults.host.readFile path).run world = (.ok content, world) := by
  rw [Host.readFile, run_bind_world]
  simp only [Faults.host, StateT.run, h]
  rfl

theorem run_readFile_of_error
    {path : Text} {error : SystemError}
    (h : faults.read world.tree world.directory path = .error error) :
    (faults.host.readFile path).run world =
      (.error (.reading path error), world) := by
  rw [Host.readFile, run_bind_world]
  simp only [Faults.host, StateT.run, h]
  rfl

/-- All files are read, or one of them cannot be. -/
theorem readAll_cases (world : World) (paths : List Text) :
    (∃ contents,
        (faults.host.readAll paths).run world = (.ok contents, world) ∧
        List.Forall₂
          (fun path content =>
            faults.read world.tree world.directory path = .ok content)
          paths contents) ∨
      ∃ failure,
        (faults.host.readAll paths).run world = (.error failure, world) ∧
        ∃ path ∈ paths, ∃ error,
          faults.read world.tree world.directory path = .error error := by
  induction paths with
  | nil =>
      exact .inl ⟨[], rfl, .nil⟩
  | cons path rest ih =>
      cases hread : faults.read world.tree world.directory path with
      | error error =>
          refine .inr ⟨.reading path error, ?_, path, by simp, error, hread⟩
          rw [Host.readAll, run_bind_world, run_readFile_of_error faults hread]
          rfl
      | ok content =>
          rcases ih with ⟨contents, hrun, hcontents⟩ |
            ⟨failure, hrun, other, hother, error, herror⟩
          · refine .inl ⟨content :: contents, ?_, .cons hread hcontents⟩
            rw [Host.readAll, run_bind_world, run_readFile_of_ok faults hread]
            simp only [run_bind_world, hrun]
            rfl
          · refine .inr ⟨failure, ?_, other, by simp [hother], error, herror⟩
            rw [Host.readAll, run_bind_world, run_readFile_of_ok faults hread]
            simp only [run_bind_world, hrun]
            rfl

/-- All inputs are read, or one of them cannot be. -/
theorem readInputs_cases (world : World) (args : Arguments) :
    (∃ css contents,
        (faults.host.readInputs args).run world =
          (.ok (css, contents), world) ∧
        faults.read world.tree world.directory args.stylesheet = .ok css ∧
        List.Forall₂
          (fun path content =>
            faults.read world.tree world.directory path = .ok content)
          args.pages contents) ∨
      ∃ failure,
        (faults.host.readInputs args).run world = (.error failure, world) ∧
        ∃ path ∈ args.stylesheet :: args.pages, ∃ error,
          faults.read world.tree world.directory path = .error error := by
  cases hread : faults.read world.tree world.directory args.stylesheet with
  | error error =>
      refine .inr ⟨.reading args.stylesheet error, ?_, args.stylesheet,
        by simp, error, hread⟩
      rw [Host.readInputs, run_bind_world, run_readFile_of_error faults hread]
      rfl
  | ok css =>
      rcases readAll_cases faults world args.pages with
        ⟨contents, hrun, hcontents⟩ | ⟨failure, hrun, path, hpath, herror⟩
      · refine .inl ⟨css, contents, ?_, rfl, hcontents⟩
        rw [Host.readInputs, run_bind_world, run_readFile_of_ok faults hread]
        simp only [run_bind_world, hrun]
        rfl
      · refine .inr ⟨failure, ?_, path, by simp [hpath], herror⟩
        rw [Host.readInputs, run_bind_world, run_readFile_of_ok faults hread]
        simp only [run_bind_world, hrun]
        rfl

end Reading

section Preparing

/-- Whether only directories were added, where nothing was. -/
def FileTree.AddsDirs (before after : FileTree) : Prop :=
  ∀ location, after.find? location = before.find? location ∨
    before.find? location = none ∧ after.find? location = some .directory

theorem FileTree.AddsDirs.refl (tree : FileTree) : tree.AddsDirs tree :=
  fun _ => .inl rfl

theorem FileTree.AddsDirs.trans {tree tree' tree'' : FileTree}
    (h : tree.AddsDirs tree') (h' : tree'.AddsDirs tree'') :
    tree.AddsDirs tree'' := by
  intro location
  rcases h location with hsame | ⟨hnone, hadded⟩
  · rw [← hsame]
    exact h' location
  · rcases h' location with hsame' | ⟨hnone', -⟩
    · exact .inr ⟨hnone, hsame'.trans hadded⟩
    · rw [hadded] at hnone'
      cases hnone'

/-- A directory is created where nothing was. -/
theorem FileTree.addsDirs_makeDir
    {tree tree' : FileTree} {directory : Location} {path : Text}
    (h : tree.makeDir directory path = .ok tree') : tree.AddsDirs tree' := by
  rw [makeDir] at h
  split at h
  · cases h
  · next location _ =>
      split at h
      · cases h
      · next hnone =>
          obtain rfl := Except.ok.inj h
          intro other
          by_cases hother : other = location
          · subst hother
            have hne : other ≠ [] := by
              rintro rfl
              cases hnone
            exact .inr ⟨hnone, tree.find?_insert_self .directory hne⟩
          · exact .inl (tree.find?_insert_of_ne .directory hother)

/-- Whether a world only has more directories than another. -/
def World.AddsDirs (before after : World) : Prop :=
  after.directory = before.directory ∧ before.tree.AddsDirs after.tree

theorem World.AddsDirs.refl (world : World) : world.AddsDirs world :=
  ⟨rfl, .refl _⟩

theorem World.AddsDirs.trans {world world' world'' : World}
    (h : world.AddsDirs world') (h' : world'.AddsDirs world'') :
    world.AddsDirs world'' :=
  ⟨h'.1.trans h.1, h.2.trans h'.2⟩

/-- Whether an action only adds directories, in every world. -/
def OnlyAddsDirs {α : Type} (action : StateM World α) : Prop :=
  ∀ world : World, world.AddsDirs (action.run world).2

theorem onlyAddsDirs_pure {α : Type} (a : α) :
    OnlyAddsDirs (pure a : StateM World α) :=
  World.AddsDirs.refl

theorem OnlyAddsDirs.bind
    {α β : Type} {action : StateM World α} {next : α → StateM World β}
    (h : OnlyAddsDirs action) (hnext : ∀ a, OnlyAddsDirs (next a)) :
    OnlyAddsDirs (action >>= next) := by
  intro world
  rw [run_bind_world]
  exact (h world).trans (hnext _ _)

variable (faults : Faults)

theorem onlyAddsDirs_makeDir (path : Text) :
    OnlyAddsDirs (faults.host.makeDir path) := by
  intro world
  cases hmake : faults.makeDir world.tree world.directory path with
  | error error =>
      have hrun : (faults.host.makeDir path).run world =
          (.error error, world) := by
        simp only [Faults.host, StateT.run, hmake]
        rfl
      rw [hrun]
      exact .refl world
  | ok tree =>
      have hrun : (faults.host.makeDir path).run world =
          (.ok (), { world with tree := tree }) := by
        simp only [Faults.host, StateT.run, hmake]
        rfl
      rw [hrun]
      refine ⟨rfl, ?_⟩
      rw [Faults.makeDir] at hmake
      split at hmake
      · cases hmake
      · exact FileTree.addsDirs_makeDir hmake

theorem onlyAddsDirs_isDir (path : Text) :
    OnlyAddsDirs (faults.host.isDir path) :=
  fun world => .refl world

theorem onlyAddsDirs_makeDirs (paths : List Text) :
    OnlyAddsDirs (faults.host.makeDirs paths) := by
  induction paths with
  | nil =>
      exact onlyAddsDirs_pure _
  | cons path ancestors ih =>
      -- What is there already is as good as what was created.
      have hcheck : ∀ error : SystemError, OnlyAddsDirs (do
          if ← faults.host.isDir path then pure (.ok ())
          else pure (.error error) : StateM World (Except SystemError Unit)) := by
        intro error
        refine (onlyAddsDirs_isDir faults path).bind ?_
        intro found
        cases found <;> exact onlyAddsDirs_pure _
      refine (onlyAddsDirs_makeDir faults path).bind ?_
      intro result
      cases result with
      | ok =>
          exact onlyAddsDirs_pure _
      | error error =>
          simp only
          split
          · refine ih.bind ?_
            intro above
            cases above with
            | error error =>
                exact onlyAddsDirs_pure _
            | ok =>
                refine (onlyAddsDirs_makeDir faults path).bind ?_
                intro again
                cases again with
                | ok =>
                    exact onlyAddsDirs_pure _
                | error error =>
                    exact hcheck error
          · exact hcheck error

/-- Preparing the output directory only adds directories. -/
theorem onlyAddsDirs_prepare (args : Arguments) :
    OnlyAddsDirs (faults.host.prepare args) := by
  rw [Host.prepare]
  split
  · exact onlyAddsDirs_pure _
  · next directory _ =>
      refine (onlyAddsDirs_makeDirs faults (Path.withAncestors directory)).bind ?_
      intro result
      cases result <;> exact onlyAddsDirs_pure _

end Preparing

end StylesheetPruning
