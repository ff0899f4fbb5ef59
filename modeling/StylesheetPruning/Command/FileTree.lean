import StylesheetPruning.Command.Run

/-!
# A tree of files in memory

A tree knows for some locations whether a file or a directory is there. A
location is the list of names on the way from the root, which is always a
directory.

**Walking.** A path is walked step by step. Every step starts from a
directory, so a path cannot lead through a file, and a path with a slash at
its end cannot be that of a file.

**World.** A world is a tree with a working directory and the lines printed
so far. `World.host` runs the command in it.
-/

namespace StylesheetPruning

/-- The names on the way from the root. -/
abbrev Location := List Text

/-- What there is at a location. -/
inductive Entry where
  | file (content : ByteArray)
  | directory

/-- Files and directories by their locations. -/
structure FileTree where
  entries : List (Location × Entry)

namespace FileTree

/-- What there is at a location, if anything. -/
def find? (tree : FileTree) (location : Location) : Option Entry :=
  if location.isEmpty then some .directory
  else tree.entries.lookup location

/-- Put an entry at a location, in place of what was there. -/
def insert (tree : FileTree) (location : Location) (entry : Entry) : FileTree :=
  ⟨(location, entry) ::
    tree.entries.filter (fun item => item.1 ≠ location)⟩

/-- An entry that was put at a location is found there. -/
@[simp] theorem find?_insert_self (tree : FileTree) {location : Location}
    (entry : Entry) (h : location ≠ []) :
    (tree.insert location entry).find? location = some entry := by
  have he : location.isEmpty = false := by simpa using h
  simp [find?, insert, he]

theorem lookup_filter_ne (entries : List (Location × Entry))
    {location other : Location} (h : other ≠ location) :
    (entries.filter (fun item => item.1 ≠ location)).lookup other =
      entries.lookup other := by
  induction entries with
  | nil => rfl
  | cons item rest ih =>
      obtain ⟨place, entry⟩ := item
      by_cases hp : place = location
      · subst hp
        have hne : (other == place) = false := by simpa using h
        simpa [List.lookup_cons, hne] using ih
      · rw [List.filter_cons_of_pos (by simpa using hp), List.lookup_cons, ih,
          List.lookup_cons]

/-- Putting an entry somewhere leaves every other location alone. -/
theorem find?_insert_of_ne (tree : FileTree) {location other : Location}
    (entry : Entry) (h : other ≠ location) :
    (tree.insert location entry).find? other = tree.find? other := by
  have hne : (other == location) = false := by simpa using h
  simp only [find?, insert, List.lookup_cons, hne]
  rw [lookup_filter_ne _ h]

/-- Put a directory at a location, and at every location above it. -/
def insertDirs (tree : FileTree) (location : Location) : FileTree :=
  (List.range (location.length + 1)).foldl
    (fun tree n =>
      match tree.find? (location.take n) with
      | some _ => tree
      | none => tree.insert (location.take n) .directory)
    tree

/-- Put a file at a location, with all directories above it. -/
def insertFile (tree : FileTree) (location : Location) (content : ByteArray) :
    FileTree :=
  (tree.insertDirs location.dropLast).insert location (.file content)

/-- Walk steps from a directory. -/
def walk (tree : FileTree) : Location → List Text → Except SystemError Location
  | location, [] => .ok location
  | location, step :: rest =>
      if step = Path.here then tree.walk location rest
      else if step = Path.up then tree.walk location.dropLast rest
      else
        let next := location ++ [step]
        match tree.find? next with
        | none => .error .notFound
        | some .directory => tree.walk next rest
        | some (.file _) =>
            if rest.isEmpty then .ok next else .error .notADirectory

/-- Where a path starts, for a working directory. -/
def origin (directory : Location) (path : Text) : Location :=
  if Path.isAbsolute path then [] else directory

/-- The location that a path leads to. -/
def locate (tree : FileTree) (directory : Location) (path : Text) :
    Except SystemError Location :=
  let steps := Path.steps path
  tree.walk (origin directory path)
    (if Path.endsInSlash path then steps ++ [Path.here] else steps)

/--
The location that a path leads to or would create: that of its last step in
the directory that the other steps lead to. A last step that is no name leads
to a directory that exists.
-/
def locateNew (tree : FileTree) (directory : Location) (path : Text) :
    Except SystemError Location :=
  match (Path.steps path).getLast? with
  | none => .ok []
  | some last =>
      if last = Path.here ∨ last = Path.up then tree.locate directory path
      else
        let above := (Path.steps path).dropLast ++ [Path.here]
        (tree.walk (origin directory path) above).map
          (fun location => location ++ [last])

/-- Read a file. -/
def read (tree : FileTree) (directory : Location) (path : Text) :
    Except SystemError ByteArray :=
  match tree.locate directory path with
  | .error error => .error error
  | .ok location =>
      match tree.find? location with
      | some (.file content) => .ok content
      | some .directory => .error .isADirectory
      | none => .error .notFound

/-- Whether there is a directory at a path. -/
def isDir (tree : FileTree) (directory : Location) (path : Text) : Bool :=
  match tree.locate directory path with
  | .error _ => false
  | .ok location =>
      match tree.find? location with
      | some .directory => true
      | _ => false

/-- Write a file, replacing what was there. -/
def write (tree : FileTree) (directory : Location) (path : Text)
    (content : ByteArray) : Except SystemError FileTree :=
  match tree.locateNew directory path with
  | .error error => .error error
  | .ok location =>
      match tree.find? location with
      | some .directory => .error .isADirectory
      | _ => .ok (tree.insert location (.file content))

/-- Create a directory in an existing one. -/
def makeDir (tree : FileTree) (directory : Location) (path : Text) :
    Except SystemError FileTree :=
  match tree.locateNew directory path with
  | .error error => .error error
  | .ok location =>
      match tree.find? location with
      | some _ => .error .alreadyExists
      | none => .ok (tree.insert location .directory)

/-- Whether a tree has a file with this content at a location. -/
def holds (tree : FileTree) (location : Location) (content : ByteArray) : Bool :=
  match tree.find? location with
  | some (.file old) => old == content
  | _ => false

/-- The files of a tree that another tree does not have, or not so. -/
def changes (before after : FileTree) : List (Location × ByteArray) :=
  after.entries.filterMap
    (fun (location, entry) =>
      match entry with
      | .directory => none
      | .file content =>
          if before.holds location content then none
          else some (location, content))

end FileTree

/-- A tree with a working directory and the lines printed so far. -/
structure World where
  tree : FileTree
  directory : Location
  /-- What was printed as results. -/
  output : Text
  /-- What was printed as messages. -/
  messages : Text

namespace World

/-- Replace the tree, unless that failed. -/
def update (world : World) : Except SystemError FileTree →
    Except SystemError Unit × World
  | .ok tree => (.ok (), { world with tree := tree })
  | .error error => (.error error, world)

/-- The host that works on a world. -/
def host : Host (StateM World) where
  read path := fun world => (world.tree.read world.directory path, world)
  write path content := fun world =>
    world.update (world.tree.write world.directory path content)
  makeDir path := fun world =>
    world.update (world.tree.makeDir world.directory path)
  isDir path := fun world => (world.tree.isDir world.directory path, world)
  print line := fun world =>
    ((), { world with output := world.output ++ line ++ ['\n'] })
  note line := fun world =>
    ((), { world with messages := world.messages ++ line ++ ['\n'] })

/-- Run the command in a world: its exit code, and the world afterwards. -/
def execute (world : World) (arguments : List Text) : Nat × World :=
  (host.execute arguments).run world

end World

end StylesheetPruning
