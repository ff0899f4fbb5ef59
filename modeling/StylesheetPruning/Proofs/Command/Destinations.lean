import Mathlib.Data.List.Nodup
import StylesheetPruning.Proofs.Command.Hosts
import StylesheetPruning.Proofs.Text.Parting

/-!
# Destinations in a tree of files

The results of a run all go into one directory, each under the name of its
page. A file that is written there does not move the directory.

**Names.** The name of a result has no slash and is no step that stays or goes
up, so it is the last step of its destination.

**Results.**
* `locateNew_destination`: a destination is a name in the output directory.
* `KeepsDirs.walk_eq`: the way to a directory is kept along with all directories.
* `ofArguments_cases`: arguments clash, or every page has its job.
-/

namespace StylesheetPruning

section Names

namespace Path

/-- The name of the result for a page. -/
def resultName (page : Text) : Text :=
  pageStem page ++ ".css".toList

theorem steps_append_slash (front back : Text) :
    steps (front ++ '/' :: back) = steps front ++ steps back := by
  have hsplit := @splitWhere_append _ (fun c => decide (c = '/')) '/' rfl
    front back
  rw [steps, hsplit, List.filter_append, steps, steps]

theorem steps_of_not_mem {name : Text} (hne : name ≠ []) (h : '/' ∉ name) :
    steps name = [name] := by
  have hplain : ∀ c ∈ name, decide (c = '/') = false := by
    rintro c hc
    rw [decide_eq_false_iff_not]
    rintro rfl
    exact h hc
  rw [steps, splitWhere_of_forall_not hplain]
  simp [hne]

/-- A path one step further down has one more step. -/
theorem steps_join {name : Text} (hne : name ≠ []) (h : '/' ∉ name)
    (directory : Text) : steps (join directory name) = steps directory ++ [name] := by
  rw [join]
  split
  · next hslash =>
      obtain ⟨front, rfl⟩ :=
        List.getLast?_eq_some_iff.mp (of_decide_eq_true hslash)
      rw [List.append_assoc, List.singleton_append, steps_append_slash,
        steps_append_slash, steps_of_not_mem hne h]
      simp [steps]
  · rw [steps_append_slash, steps_of_not_mem hne h]

/-- Where a path starts does not depend on its last step. -/
theorem isAbsolute_join (directory name : Text) :
    isAbsolute (join directory name) = isAbsolute (join directory []) := by
  cases directory with
  | nil =>
      rfl
  | cons c rest =>
      rw [join, join]
      split <;> rfl

theorem not_mem_stemOfName {name : Text} (h : '/' ∉ name) :
    '/' ∉ stemOfName name := by
  rw [stemOfName]
  split
  · exact h
  · intro hmem
    have hdrop := List.mem_of_mem_drop (List.mem_reverse.mp hmem)
    exact h (List.mem_reverse.mp hdrop)

theorem not_mem_of_name? {path name : Text} (h : name? path = some name) :
    '/' ∉ name := by
  obtain ⟨hlast, -⟩ := Option.filter_eq_some_iff.mp h
  have hstep := (List.mem_filter.mp (List.mem_of_getLast? hlast)).1
  have hpart := (List.mem_filter.mp hstep).1
  intro hmem
  exact absurd (not_of_mem_splitWhere hpart '/' hmem) (by decide)

theorem not_mem_resultName (page : Text) : '/' ∉ resultName page := by
  have hstem : '/' ∉ pageStem page := by
    rw [pageStem]
    split
    · next name hname =>
        exact not_mem_stemOfName (not_mem_of_name? hname)
    · decide
  rw [resultName, List.mem_append]
  rintro (hmem | hmem)
  · exact hstem hmem
  · exact absurd hmem (by decide)

/-- The name of a result is a name. -/
theorem resultName_cases (page : Text) :
    resultName page ≠ [] ∧ resultName page ≠ here ∧ resultName page ≠ up := by
  have hlength : 4 ≤ (resultName page).length := by
    simp [resultName]
  refine ⟨?_, ?_, ?_⟩ <;> intro heq <;> rw [heq] at hlength <;>
    exact absurd hlength (by decide)

theorem steps_destination (directory page : Text) :
    steps (destination directory page) =
      steps directory ++ [resultName page] :=
  steps_join (resultName_cases page).1 (not_mem_resultName page) directory

/-- Pages whose results have one name have one destination. -/
theorem nodup_resultNames {directory : Text} {pages : List Text}
    (h : (pages.map (destination directory)).Nodup) :
    (pages.map resultName).Nodup := by
  have hmap : pages.map (destination directory) =
      (pages.map resultName).map (join directory) := by
    rw [List.map_map]
    rfl
  rw [hmap] at h
  exact h.of_map _

end Path

end Names

section Trees

namespace FileTree

/-- The location of the output directory. -/
def home? (tree : FileTree) (base : Location) (directory : Text) :
    Except SystemError Location :=
  tree.walk (origin base (Path.join directory []))
    (Path.steps directory ++ [Path.here])

/-- A destination is a name in the output directory. -/
theorem locateNew_destination
    (tree : FileTree) (base : Location) (directory page : Text) :
    tree.locateNew base (Path.destination directory page) =
      (tree.home? base directory).map
        (fun home => home ++ [Path.resultName page]) := by
  have hname := Path.resultName_cases page
  have horigin : origin base (Path.destination directory page) =
      origin base (Path.join directory []) := by
    rw [origin, origin, Path.destination, Path.isAbsolute_join]
  rw [locateNew, Path.steps_destination, List.getLast?_concat,
    List.dropLast_concat, horigin, home?]
  simp only [hname.2.1, hname.2.2, or_self, if_false]

/-- Whether every directory of a tree is one of another tree. -/
def KeepsDirs (before after : FileTree) : Prop :=
  ∀ location, before.find? location = some .directory →
    after.find? location = some .directory

theorem KeepsDirs.refl (tree : FileTree) : tree.KeepsDirs tree :=
  fun _ h => h

theorem KeepsDirs.trans {tree tree' tree'' : FileTree}
    (h : tree.KeepsDirs tree') (h' : tree'.KeepsDirs tree'') :
    tree.KeepsDirs tree'' :=
  fun location hfind => h' location (h location hfind)

/-- What is put where no directory is takes none away. -/
theorem keepsDirs_insert
    {tree : FileTree} {location : Location}
    (hfree : tree.find? location ≠ some .directory) (entry : Entry) :
    tree.KeepsDirs (tree.insert location entry) := by
  intro other hfind
  have hne : other ≠ location := by
    rintro rfl
    exact hfree hfind
  rw [find?_insert_of_ne tree entry hne, hfind]

/-- The way to a directory leads through directories. -/
theorem KeepsDirs.walk_eq
    {tree tree' : FileTree} (hkeeps : tree.KeepsDirs tree')
    {start home : Location} {steps : List Text}
    (h : tree.walk start (steps ++ [Path.here]) = .ok home) :
    tree'.walk start (steps ++ [Path.here]) = .ok home := by
  induction steps generalizing start with
  | nil =>
      simpa [walk] using h
  | cons step rest ih =>
      rw [List.cons_append, walk] at h ⊢
      split
      · next hhere =>
          rw [if_pos hhere] at h
          exact ih h
      · next hhere =>
          rw [if_neg hhere] at h
          split
          · next hup =>
              rw [if_pos hup] at h
              exact ih h
          · next hup =>
              rw [if_neg hup] at h
              simp only at h ⊢
              cases hfind : tree.find? (start ++ [step]) with
              | none =>
                  rw [hfind] at h
                  cases h
              | some found =>
                  rw [hfind] at h
                  cases found with
                  | file content =>
                      simp at h
                  | directory =>
                      rw [hkeeps _ hfind]
                      exact ih h

theorem KeepsDirs.home?_eq
    {tree tree' : FileTree} (hkeeps : tree.KeepsDirs tree')
    {base home : Location} {directory : Text}
    (h : tree.home? base directory = .ok home) :
    tree'.home? base directory = .ok home :=
  hkeeps.walk_eq h

end FileTree

/-- A result is written under its name in the output directory, or not at all. -/
theorem write_destination_cases
    (faults : Faults) (tree : FileTree) (base : Location)
    (directory page : Text) (content : ByteArray) :
    (∃ error, faults.write tree base (Path.destination directory page) content =
      .error error) ∨
    ∃ home, tree.home? base directory = .ok home ∧
      tree.find? (home ++ [Path.resultName page]) ≠ some .directory ∧
      faults.write tree base (Path.destination directory page) content =
        .ok (tree.insert (home ++ [Path.resultName page]) (.file content)) := by
  rw [Faults.write]
  split
  · next error _ =>
      exact .inl ⟨error, rfl⟩
  · rw [FileTree.write, FileTree.locateNew_destination]
    cases tree.home? base directory with
    | error error =>
        exact .inl ⟨error, rfl⟩
    | ok home =>
        simp only [Except.map]
        split
        · exact .inl ⟨_, rfl⟩
        · next hfree =>
            exact .inr ⟨home, rfl, hfree, rfl⟩

end Trees

section Jobs

/-- Whether pages are left without destinations of their own. -/
def Arguments.Clashes (args : Arguments) : Prop :=
  match args.directory with
  | none => 1 < args.pages.length
  | some directory => ¬ (args.pages.map (Path.destination directory)).Nodup

/-- A page with its destination. -/
def Job.into (directory page : Text) : Job :=
  ⟨page, some (Path.destination directory page)⟩

/-- A page with the destination that the arguments give it, if any. -/
def Arguments.job (args : Arguments) (page : Text) : Job :=
  ⟨page, args.directory.map (fun path => Path.destination path page)⟩

/-- No job is found for a destination exactly when no page has it. -/
theorem Job.find?_into_eq_none_iff
    {directory destination : Text} {pages : List Text} :
    (pages.reverse.map (into directory)).find?
        (fun job => job.destination = some destination) = none ↔
      destination ∉ pages.map (Path.destination directory) := by
  rw [List.find?_eq_none]
  simp [into]

/-- Pages are given their destinations, as long as these are distinct. -/
theorem Job.assign_cases {directory : Text} {front : List Text}
    (hfront : (front.map (Path.destination directory)).Nodup)
    (pages : List Text) :
    (∃ failure, assign directory (front.reverse.map (into directory)) pages =
        .error failure ∧
      ¬ ((front ++ pages).map (Path.destination directory)).Nodup) ∨
    (assign directory (front.reverse.map (into directory)) pages =
        .ok ((front ++ pages).map (into directory)) ∧
      ((front ++ pages).map (Path.destination directory)).Nodup) := by
  induction pages generalizing front with
  | nil =>
      refine .inr ⟨?_, by simpa using hfront⟩
      rw [assign, List.append_nil, List.map_reverse, List.reverse_reverse]
  | cons page rest ih =>
      rw [assign]
      split
      · next earlier hearlier =>
          refine .inl ⟨_, rfl, ?_⟩
          have htaken : Path.destination directory page ∈
              front.map (Path.destination directory) := by
            by_contra hfresh
            rw [find?_into_eq_none_iff.mpr hfresh] at hearlier
            cases hearlier
          rw [List.map_append, List.map_cons, List.nodup_append]
          rintro ⟨-, -, hdisjoint⟩
          exact hdisjoint _ htaken _ List.mem_cons_self rfl
      · next hnone =>
          have hnext : ((front ++ [page]).map
              (Path.destination directory)).Nodup := by
            rw [List.map_append, List.map_singleton, ← List.concat_eq_append]
            exact hfront.concat (find?_into_eq_none_iff.mp hnone)
          have hrest := ih hnext
          rw [List.reverse_append, List.reverse_singleton,
            List.singleton_append, List.map_cons, List.append_assoc,
            List.singleton_append] at hrest
          exact hrest

/-- Arguments clash, or every page has its job. -/
theorem Job.ofArguments_cases (args : Arguments) :
    (∃ failure, ofArguments args = .error failure ∧ args.Clashes) ∨
    (ofArguments args = .ok (args.pages.map args.job) ∧ ¬ args.Clashes) := by
  have hjob : args.job = fun page =>
      ⟨page, args.directory.map (fun path => Path.destination path page)⟩ := rfl
  rw [ofArguments, Arguments.Clashes, hjob]
  cases args.directory with
  | none =>
      simp only
      split
      · next hmany =>
          exact .inl ⟨_, rfl, hmany⟩
      · next hfew =>
          exact .inr ⟨rfl, hfew⟩
  | some directory =>
      have hcases := @assign_cases directory [] List.nodup_nil args.pages
      simp only [List.reverse_nil, List.map_nil, List.nil_append] at hcases
      simp only [not_not]
      exact hcases

end Jobs

end StylesheetPruning
