import StylesheetPruning.Proofs.Command.Destinations
import StylesheetPruning.Proofs.Pruning.EntryPoints

/-!
# Runs stop at the first failure

A run that is blocked leaves every file alone. Any other run into an output
directory writes the results of its pages in order, up to the first page that
is refused or whose result cannot be written.

**Blocks.** A run is blocked by destinations that clash, by an input that cannot
be read, and by a stylesheet that is refused. All of this is known before
anything is written, so the inputs of a run that goes on are those of the tree
it started from, whatever its results replace.

**Deliveries.** `Delivery.Ends` says what a run has left behind: the pages in
front of a cut are delivered, the one behind the cut stops the run, and no other
location has changed.

**Results.**
* `run_cases`: a run is blocked, or it delivers into the prepared directory.
* `Delivery.run_deliverAll`: how delivering ends.
* `execute_ends`: what a run of the command does, and its exit code.
-/

namespace StylesheetPruning

section Blocks

variable (faults : Faults)

/-- Why a run leaves everything alone. -/
inductive Blocked (world : World) (args : Arguments) : Prop
  /-- Pages have no destinations of their own. -/
  | clash (hclash : args.Clashes)
  /-- An input cannot be read. -/
  | unreadable {path : Text} {error : SystemError}
      (hpath : path ∈ args.stylesheet :: args.pages)
      (hread : faults.read world.tree world.directory path = .error error)
  /-- The stylesheet is over the limit, or no text. -/
  | refused {css : ByteArray}
      (hread : faults.read world.tree world.directory args.stylesheet = .ok css)
      (hrefused : ¬ (Limits.mk args.limit).Admits css.size ∨ IsNoText css)

/-- What a run that is not blocked has read. -/
structure Ready (world : World) (args : Arguments) (css : ByteArray)
    (text : Text) (contents : List ByteArray) : Prop where
  /-- Every page has its own destination. -/
  apart : ¬ args.Clashes
  /-- The stylesheet was read. -/
  stylesheet : faults.read world.tree world.directory args.stylesheet = .ok css
  /-- It was accepted. -/
  accepted : (Limits.mk args.limit).Accepts css text
  /-- The pages were read. -/
  pages : List.Forall₂
    (fun path content =>
      faults.read world.tree world.directory path = .ok content)
    args.pages contents

variable {faults} {world : World} {args : Arguments}

theorem Ready.not_blocked {css : ByteArray} {text : Text}
    {contents : List ByteArray} (h : Ready faults world args css text contents) :
    ¬ Blocked faults world args := by
  intro hblocked
  cases hblocked with
  | clash hclash =>
      exact h.apart hclash
  | @unreadable path error hpath hread =>
      rcases List.mem_cons.mp hpath with rfl | hpage
      · rw [h.stylesheet] at hread
        cases hread
      · obtain ⟨n, hn, rfl⟩ := List.mem_iff_getElem.mp hpage
        have hcontent := h.pages.get hn (h.pages.length_eq ▸ hn)
        rw [List.get_eq_getElem, hread] at hcontent
        cases hcontent
  | refused hread hrefused =>
      rw [h.stylesheet, Except.ok.injEq] at hread
      subst hread
      rcases hrefused with hlong | hno
      · exact hlong h.accepted.admits
      · exact hno text h.accepted.isText

/-- A run is blocked, or it delivers into the directory that it has prepared. -/
theorem run_cases (faults : Faults) (world : World) (args : Arguments) :
    (∃ failure, (faults.host.run args).run world = (.error failure, world) ∧
        Blocked faults world args) ∨
      ∃ css text contents, Ready faults world args css text contents ∧
        ∀ prepared, (faults.host.prepare args).run world = (.ok (), prepared) →
          (faults.host.run args).run world =
            (faults.host.deliverAll args.report
              ((args.pages.map args.job).zip
                (contents.map ((Limits.mk args.limit).pageOutcomeOfBytes
                  (Sheet.ofText text))))).run prepared := by
  rcases Job.ofArguments_cases args with ⟨failure, hjobs, hclash⟩ |
    ⟨hjobs, hapart⟩
  · refine .inl ⟨failure, ?_, .clash hclash⟩
    rw [Host.run, hjobs]
    rfl
  · rcases readInputs_cases faults world args with
      ⟨css, contents, hinputs, hcss, hcontents⟩ |
      ⟨failure, hinputs, path, hpath, error, hread⟩
    · rcases (Limits.mk args.limit).readInput_cases .stylesheet css with
        ⟨text, haccepts, -⟩ | ⟨refusal, hrefuses, -⟩
      · refine .inr ⟨css, text, contents, ⟨hapart, hcss, haccepts, hcontents⟩, ?_⟩
        intro prepared hprepare
        rw [Host.run, hjobs]
        simp only [run_bind_world, hinputs, hprepare,
          Limits.outcomesOfBytes_of_accepts haccepts]
      · refine .inl ⟨.stylesheet args.stylesheet refusal, ?_,
          .refused hcss (Limits.exists_refuses_iff.mp ⟨refusal, hrefuses⟩)⟩
        rw [Host.run, hjobs]
        simp only [run_bind_world, hinputs,
          Limits.outcomesOfBytes_eq_error_iff.mpr hrefuses]
        rfl
    · refine .inl ⟨failure, ?_, .unreadable hpath hread⟩
      rw [Host.run, hjobs]
      simp only [run_bind_world, hinputs]
      rfl

end Blocks

section Steps

variable (faults : Faults)

/-- A page that is refused ends the delivery, and changes nothing. -/
theorem run_deliverAll_refused
    (report : Bool) (job : Job) (refusal : Refusal)
    (others : List (Job × Except Refusal Outcome)) (world : World) :
    (faults.host.deliverAll report ((job, .error refusal) :: others)).run world =
      (.error (.page job.page refusal), world) := rfl

theorem run_deliver_of_ok
    {directory page css : Text} {world : World} {tree : FileTree}
    (h : faults.write world.tree world.directory
      (Path.destination directory page) (encodeUtf8 css) = .ok tree) :
    (faults.host.deliver (Job.into directory page) css).run world =
      (.ok (), { world with tree := tree }) := by
  simp only [Host.deliver, Job.into, run_bind_world]
  simp only [Faults.host, StateT.run, h]
  rfl

theorem run_deliver_of_error
    {directory page css : Text} {world : World} {error : SystemError}
    (h : faults.write world.tree world.directory
      (Path.destination directory page) (encodeUtf8 css) = .error error) :
    (faults.host.deliver (Job.into directory page) css).run world =
      (.error (.writing (Path.destination directory page) error), world) := by
  simp only [Host.deliver, Job.into, run_bind_world]
  simp only [Faults.host, StateT.run, h]
  rfl

/-- The world in which a result is written, once its page was reported. -/
def World.noted (world : World) (report : Bool) (line : Text) : World :=
  if report then
    { world with messages := world.messages ++ line ++ ['\n'] }
  else world

@[simp] theorem World.tree_noted (world : World) (report : Bool) (line : Text) :
    (world.noted report line).tree = world.tree := by
  cases report <;> rfl

@[simp] theorem World.directory_noted
    (world : World) (report : Bool) (line : Text) :
    (world.noted report line).directory = world.directory := by
  cases report <;> rfl

/-- A result is written, and the others are delivered if that does not fail. -/
theorem run_deliverAll_accepted
    (report : Bool) (job : Job) (outcome : Outcome)
    (others : List (Job × Except Refusal Outcome)) (world : World) :
    (faults.host.deliverAll report ((job, .ok outcome) :: others)).run world =
      (do
        match ← faults.host.deliver job outcome.text with
        | .error failure => pure (.error failure)
        | .ok () => faults.host.deliverAll report others :
        StateM World (Except Failure Unit)).run
          (world.noted report (outcome.report.line job.page)) := by
  cases report <;> rfl

variable {directory page : Text} {outcome : Outcome} {world : World}

theorem run_deliverAll_of_error
    {error : SystemError} (report : Bool)
    (others : List (Job × Except Refusal Outcome))
    (h : faults.write world.tree world.directory
      (Path.destination directory page) (encodeUtf8 outcome.text) =
        .error error) :
    (faults.host.deliverAll report
        ((Job.into directory page, .ok outcome) :: others)).run world =
      (.error (.writing (Path.destination directory page) error),
        world.noted report (outcome.report.line page)) := by
  rw [run_deliverAll_accepted, run_bind_world,
    run_deliver_of_error faults (by simpa using h)]
  rfl

theorem run_deliverAll_of_ok
    {tree : FileTree} (report : Bool)
    (others : List (Job × Except Refusal Outcome))
    (h : faults.write world.tree world.directory
      (Path.destination directory page) (encodeUtf8 outcome.text) =
        .ok tree) :
    (faults.host.deliverAll report
        ((Job.into directory page, .ok outcome) :: others)).run world =
      (faults.host.deliverAll report others).run
        { world.noted report (outcome.report.line page) with tree := tree } := by
  rw [run_deliverAll_accepted, run_bind_world,
    run_deliver_of_ok faults (by simpa using h)]
  rfl

end Steps

/-- What a delivery of results starts from. -/
structure Delivery where
  faults : Faults
  limits : Limits
  /-- The working directory. -/
  base : Location
  /-- The output directory. -/
  directory : Text
  /-- The stylesheet. -/
  css : Text
  /-- What was read for a page. -/
  read : Text → Except SystemError ByteArray

namespace Delivery

section Ends

variable (d : Delivery)

/-- Whether the result of a page is at a location. -/
def Located (tree : FileTree) (page : Text) (location : Location) : Prop :=
  tree.locateNew d.base (Path.destination d.directory page) = .ok location

/-- Whether a page is accepted, with this result. -/
def Yields (page result : Text) : Prop :=
  ∃ content html, d.read page = .ok content ∧
    d.limits.Accepts content html ∧ result = usedRules d.css html

/-- Whether the result of a page is at its destination. -/
def Delivered (tree : FileTree) (page : Text) : Prop :=
  ∃ result location, d.Yields page result ∧ d.Located tree page location ∧
    tree.find? location = some (.file (encodeUtf8 result))

/-- Why a delivery stops at a page. -/
inductive Stops (tree : FileTree) (page : Text) : Prop
  /-- The page is over the limit, or no text. -/
  | refused {content : ByteArray} (hread : d.read page = .ok content)
      (hrefused : ¬ d.limits.Admits content.size ∨ IsNoText content)
  /-- Its result cannot be written. -/
  | unwritable {result : Text} {error : SystemError}
      (hyields : d.Yields page result)
      (hwrite : d.faults.write tree d.base
        (Path.destination d.directory page) (encodeUtf8 result) = .error error)

/-- What a delivery of some pages, which stopped in front of others, has done. -/
structure Ends (delivered rest : List Text) (before after : FileTree) :
    Prop where
  /-- The pages are delivered. -/
  done : ∀ page ∈ delivered, d.Delivered after page
  /-- Nothing else has changed. -/
  elsewhere : ∀ location,
    (∀ page ∈ delivered, ¬ d.Located after page location) →
      after.find? location = before.find? location
  /-- No directory was replaced. -/
  keepsDirs : before.KeepsDirs after
  /-- The first of the other pages stopped it. -/
  stopped : ∀ page, rest.head? = some page → d.Stops after page

end Ends

section Pages

variable {d : Delivery} {tree : FileTree} {page : Text}

theorem located_of_home? {home : Location}
    (h : tree.home? d.base d.directory = .ok home) :
    d.Located tree page (home ++ [Path.resultName page]) := by
  rw [Located, FileTree.locateNew_destination, h]
  rfl

/-- Results at one location have one name. -/
theorem Located.resultName_eq {tree' : FileTree} {other : Text}
    {location : Location} (h : d.Located tree page location)
    (h' : d.Located tree' other location) :
    Path.resultName page = Path.resultName other := by
  rw [Located, FileTree.locateNew_destination] at h h'
  cases hhome : tree.home? d.base d.directory with
  | error error =>
      rw [hhome] at h
      cases h
  | ok home =>
      cases hhome' : tree'.home? d.base d.directory with
      | error error =>
          rw [hhome'] at h'
          cases h'
      | ok home' =>
          rw [hhome] at h
          rw [hhome'] at h'
          have heq : home ++ [Path.resultName page] =
              home' ++ [Path.resultName other] :=
            Except.ok.inj (h.trans h'.symm)
          simpa using (List.append_inj' heq rfl).2

/-- A page is refused, or it has a result. -/
theorem pageOutcome_cases
    {bytes content : ByteArray} (hcss : d.limits.Accepts bytes d.css)
    (hread : d.read page = .ok content) :
    (∃ refusal, d.limits.Refuses .page content refusal ∧
        d.limits.pageOutcomeOfBytes (Sheet.ofText d.css) content =
          .error refusal) ∨
      ∃ outcome, d.Yields page outcome.text ∧
        d.limits.pageOutcomeOfBytes (Sheet.ofText d.css) content =
          .ok outcome := by
  have hentry := Limits.isEntry_pageOutcomeOfBytes hcss content
  rcases d.limits.readInput_cases .page content with
    ⟨html, haccepts, -⟩ | ⟨refusal, hrefuses, -⟩
  · obtain ⟨outcome, houtcome, hok⟩ := hentry.accepted html haccepts
    rw [Limits.outcome_of_accepts hcss haccepts, Except.ok.injEq] at houtcome
    subst houtcome
    exact .inr ⟨_, ⟨content, html, hread, haccepts, rfl⟩, hok⟩
  · exact .inl ⟨refusal, hrefuses, (hentry.refused refusal).mpr hrefuses⟩

/-- A page that stops a delivery leaves the tree alone. -/
theorem ends_nil {rest : List Text}
    (hstops : ∀ page, rest.head? = some page → d.Stops tree page) :
    d.Ends [] rest tree tree where
  done _ hpage := absurd hpage List.not_mem_nil
  elsewhere _ _ := rfl
  keepsDirs := .refl tree
  stopped := hstops

/-- A page is delivered in front of others. -/
theorem Ends.cons
    {result : Text} {home : Location} {delivered rest : List Text}
    {after : FileTree} (hyields : d.Yields page result)
    (hhome : tree.home? d.base d.directory = .ok home)
    (hfree : tree.find? (home ++ [Path.resultName page]) ≠ some .directory)
    (hname : Path.resultName page ∉ delivered.map Path.resultName)
    (h : d.Ends delivered rest
      (tree.insert (home ++ [Path.resultName page]) (.file (encodeUtf8 result)))
      after) :
    d.Ends (page :: delivered) rest tree after := by
  have hkeeps : tree.KeepsDirs after :=
    (FileTree.keepsDirs_insert hfree _).trans h.keepsDirs
  have hlocated : d.Located after page (home ++ [Path.resultName page]) :=
    located_of_home? (hkeeps.home?_eq hhome)
  -- The other results have other names, so this one stays.
  have hfind : after.find? (home ++ [Path.resultName page]) =
      some (.file (encodeUtf8 result)) := by
    rw [h.elsewhere, FileTree.find?_insert_self _ _ (by simp)]
    intro other hother hsame
    rw [hlocated.resultName_eq hsame] at hname
    exact hname (List.mem_map_of_mem hother)
  constructor
  case done =>
    intro other hother
    rcases List.mem_cons.mp hother with rfl | hother
    · exact ⟨result, _, hyields, hlocated, hfind⟩
    · exact h.done other hother
  case elsewhere =>
    intro location hfresh
    rw [h.elsewhere location
      (fun other hother => hfresh other (List.mem_cons_of_mem page hother))]
    refine FileTree.find?_insert_of_ne tree _ ?_
    rintro rfl
    exact hfresh page List.mem_cons_self hlocated
  case keepsDirs =>
    exact hkeeps
  case stopped =>
    exact h.stopped

/--
Pages whose results have names of their own are delivered, up to the first that
is refused or cannot be written.
-/
theorem run_deliverAll
    {bytes : ByteArray} (hcss : d.limits.Accepts bytes d.css) (report : Bool)
    {pages : List Text} {contents : List ByteArray}
    (hreads : List.Forall₂ (fun page content => d.read page = .ok content)
      pages contents)
    (hnames : (pages.map Path.resultName).Nodup)
    {world : World} (hbase : world.directory = d.base)
    {outcome : Except Failure Unit × World}
    (houtcome : (d.faults.host.deliverAll report
      ((pages.map (Job.into d.directory)).zip
        (contents.map (d.limits.pageOutcomeOfBytes (Sheet.ofText d.css))))).run
        world = outcome) :
    ∃ delivered rest, pages = delivered ++ rest ∧
      d.Ends delivered rest world.tree outcome.2.tree ∧
      (outcome.1 = .ok () ↔ rest = []) := by
  induction hreads generalizing world with
  | nil =>
      subst houtcome
      exact ⟨[], [], rfl, ends_nil (by simp), iff_of_true rfl rfl⟩
  | @cons page content pages contents hread _ ih =>
      rw [List.map_cons, List.map_cons, List.zip_cons_cons] at houtcome
      rw [List.map_cons, List.nodup_cons] at hnames
      rcases pageOutcome_cases hcss hread with
        ⟨refusal, hrefuses, hpage⟩ | ⟨result, hyields, hpage⟩
      · rw [hpage, run_deliverAll_refused] at houtcome
        subst houtcome
        refine ⟨[], page :: pages, rfl, ends_nil ?_, by simp⟩
        rintro _ ⟨⟩
        exact .refused hread
          (Limits.exists_refuses_iff.mp ⟨refusal, hrefuses⟩)
      · rw [hpage] at houtcome
        rcases write_destination_cases d.faults world.tree d.base d.directory
          page (encodeUtf8 result.text) with
          ⟨error, hwrite⟩ | ⟨home, hhome, hfree, hwrite⟩
        · have hwrite' := hwrite
          rw [← hbase] at hwrite'
          rw [run_deliverAll_of_error d.faults report _ hwrite'] at houtcome
          subst houtcome
          simp only [World.tree_noted]
          refine ⟨[], page :: pages, rfl, ends_nil ?_, by simp⟩
          rintro _ ⟨⟩
          exact .unwritable hyields hwrite
        · rw [← hbase] at hwrite
          rw [run_deliverAll_of_ok d.faults report _ hwrite] at houtcome
          have hnext : ({ world.noted report (result.report.line page) with
              tree := world.tree.insert (home ++ [Path.resultName page])
                (.file (encodeUtf8 result.text)) } : World).directory =
              d.base := by
            simpa using hbase
          obtain ⟨delivered, rest, rfl, hends, hexit⟩ :=
            ih hnames.2 hnext houtcome
          refine ⟨page :: delivered, rest, rfl,
            .cons hyields hhome hfree ?_ hends, hexit⟩
          intro hmem
          rw [List.map_append, List.mem_append] at hnames
          exact hnames.1 (.inl hmem)

end Pages

end Delivery

section Commands

variable (faults : Faults) {world : World} {arguments : List Text}
  {args : Arguments}

/-- What the results of a run are delivered from. -/
def Arguments.delivery (args : Arguments) (world : World)
    (directory css : Text) : Delivery where
  faults := faults
  limits := { maxBytes := args.limit }
  base := world.directory
  directory := directory
  css := css
  read := faults.read world.tree world.directory

/-- A run that is not blocked delivers into the directory that it has prepared. -/
theorem Ready.run_ends
    {sheet : ByteArray} {css : Text} {contents : List ByteArray}
    (h : Ready faults world args sheet css contents) {directory : Text}
    (hdirectory : args.directory = some directory) {prepared : World}
    (hprepare : (faults.host.prepare args).run world = (.ok (), prepared))
    {outcome : Except Failure Unit × World}
    (houtcome : (faults.host.deliverAll args.report
      ((args.pages.map args.job).zip
        (contents.map ((Limits.mk args.limit).pageOutcomeOfBytes
          (Sheet.ofText css))))).run prepared = outcome) :
    (args.pages.map (Path.destination directory)).Nodup ∧
      ∃ delivered rest, args.pages = delivered ++ rest ∧
        (args.delivery faults world directory css).Ends delivered rest
          prepared.tree outcome.2.tree ∧
        (outcome.1 = .ok () ↔ rest = []) := by
  have hapart : (args.pages.map (Path.destination directory)).Nodup := by
    have hclash := h.apart
    rw [Arguments.Clashes, hdirectory] at hclash
    exact not_not.mp hclash
  have hjob : args.job = Job.into directory := by
    funext page
    rw [Arguments.job, hdirectory]
    rfl
  have hbase := (onlyAddsDirs_prepare faults args world).1
  rw [hprepare] at hbase
  rw [hjob] at houtcome
  exact ⟨hapart, @Delivery.run_deliverAll
    (args.delivery faults world directory css) sheet h.accepted args.report _ _
    h.pages (Path.nodup_resultNames hapart) prepared hbase outcome houtcome⟩

/-- A command ends with its run, and its exit code says how that went. -/
theorem execute_cases
    (hargs : Arguments.ofList? arguments = some args)
    {outcome : Except Failure Unit × World}
    (hrun : (faults.host.run args).run world = outcome) :
    (faults.execute world arguments).2.tree = outcome.2.tree ∧
      (outcome.1 = .ok () ∧ (faults.execute world arguments).1 = 0 ∨
        outcome.1 ≠ .ok () ∧ (faults.execute world arguments).1 = 1) := by
  obtain ⟨result, after⟩ := outcome
  rw [Faults.execute, Host.execute, hargs]
  simp only [run_bind_world, hrun]
  cases result with
  | ok =>
      exact ⟨rfl, .inl ⟨rfl, rfl⟩⟩
  | error failure =>
      exact ⟨rfl, .inr ⟨by simp, rfl⟩⟩

/--
A run that is blocked fails and leaves the tree alone. Any other run into an
output directory delivers its pages in order, up to the first that is refused or
cannot be written, and succeeds if there is none.
-/
theorem execute_ends (hargs : Arguments.ofList? arguments = some args) :
    (Blocked faults world args →
      (faults.execute world arguments).1 = 1 ∧
      (faults.execute world arguments).2.tree = world.tree) ∧
    ∀ directory prepared, args.directory = some directory →
      ¬ Blocked faults world args →
      (faults.host.prepare args).run world = (.ok (), prepared) →
        (args.pages.map (Path.destination directory)).Nodup ∧
        world.tree.AddsDirs prepared.tree ∧
        ∃ sheet css delivered rest,
          faults.read world.tree world.directory args.stylesheet = .ok sheet ∧
          (Limits.mk args.limit).Accepts sheet css ∧
          args.pages = delivered ++ rest ∧
          (args.delivery faults world directory css).Ends delivered rest
            prepared.tree (faults.execute world arguments).2.tree ∧
          (faults.execute world arguments).1 =
            if rest = [] then 0 else 1 := by
  rcases run_cases faults world args with
    ⟨failure, hrun, hblocked⟩ | ⟨sheet, css, contents, hready, hrun⟩
  · constructor
    · intro _
      obtain ⟨htree, hcode⟩ := execute_cases faults hargs hrun
      rcases hcode with ⟨hok, -⟩ | ⟨-, hcode⟩
      · cases hok
      · exact ⟨hcode, htree⟩
    · intro directory prepared _ hfree
      exact absurd hblocked hfree
  · refine ⟨fun hblocked => absurd hblocked hready.not_blocked, ?_⟩
    intro directory prepared hdirectory _ hprepare
    have hadds := (onlyAddsDirs_prepare faults args world).2
    rw [hprepare] at hadds
    obtain ⟨htree, hcode⟩ :=
      execute_cases faults hargs (hrun prepared hprepare)
    obtain ⟨hapart, delivered, rest, hpages, hends, hexit⟩ :=
      hready.run_ends faults hdirectory hprepare rfl
    rw [← htree] at hends
    refine ⟨hapart, hadds, sheet, css, delivered, rest, hready.stylesheet,
      hready.accepted, hpages, hends, ?_⟩
    rcases hcode with ⟨hok, hcode⟩ | ⟨hfails, hcode⟩
    · rw [hcode, if_pos (hexit.mp hok)]
    · rw [hcode, if_neg (fun hnil => hfails (hexit.mpr hnil))]

/-- A stylesheet and two pages in one directory; the second page is no text. -/
def World.inPlace : World where
  tree := ⟨[
    (["x.css".toList], .file (encodeUtf8 ".a\x7b\x7d.b\x7b\x7d".toList)),
    (["x.html".toList], .file (encodeUtf8 "<p class=a>".toList)),
    (["y.html".toList], .file ⟨#[255]⟩)]⟩
  directory := []
  output := []
  messages := []

/-- Arguments under which the first result takes the place of the stylesheet. -/
def Arguments.inPlace : Arguments where
  stylesheet := "x.css".toList
  pages := ["x.html".toList, "y.html".toList]
  directory := some ".".toList
  limit := none
  report := false

/-- Without a limit a text is not refused. -/
theorem not_refused_encodeUtf8 (text : Text) :
    ¬ (¬ (Limits.mk none).Admits (encodeUtf8 text).size ∨
      IsNoText (encodeUtf8 text)) := by
  rintro (hlong | hno)
  · exact hlong (fun limit hlimit => nomatch hlimit)
  · exact hno text rfl

theorem not_blocked_inPlace :
    ¬ Blocked .absent World.inPlace Arguments.inPlace := by
  have hreads : ∀ path ∈ Arguments.inPlace.stylesheet :: Arguments.inPlace.pages,
      (Faults.absent.read World.inPlace.tree [] path).isOk = true := by
    decide +kernel
  intro hblocked
  cases hblocked with
  | clash hclash =>
      exact hclash (by decide)
  | @unreadable path error hpath hread =>
      have hread' : Faults.absent.read World.inPlace.tree [] path =
          .error error := hread
      have hok := hreads path hpath
      rw [hread'] at hok
      cases hok
  | refused hread hrefused =>
      obtain rfl := Except.ok.inj hread
      exact not_refused_encodeUtf8 _ hrefused

/-- The first page is delivered wherever its destination is free. -/
theorem not_stops_inPlace {tree : FileTree} {css : Text}
    (hfree : tree.find? ["x.css".toList] ≠ some .directory) :
    ¬ (Arguments.inPlace.delivery .absent World.inPlace ".".toList css).Stops
      tree "x.html".toList := by
  intro hstops
  cases hstops with
  | refused hread hrefused =>
      obtain rfl := Except.ok.inj hread
      exact not_refused_encodeUtf8 _ hrefused
  | unwritable hyields hwrite =>
      have hlocated : tree.locateNew []
          (Path.destination ".".toList "x.html".toList) =
            .ok ["x.css".toList] := rfl
      have hwrite' : tree.write []
          (Path.destination ".".toList "x.html".toList) _ = .error _ := hwrite
      rw [FileTree.write, hlocated] at hwrite'
      simp only at hwrite'
      cases hwrite'

/-- The first result takes the place of the stylesheet, and the second page stops
the run; without an output directory nothing is written. -/
theorem execute_ends_inPlace :
    (∃ css,
      (Arguments.inPlace.delivery .absent World.inPlace ".".toList css).Ends
        ["x.html".toList] ["y.html".toList] World.inPlace.tree
        (Faults.absent.execute World.inPlace ["x.css".toList, "x.html".toList,
          "y.html".toList, "-o".toList, ".".toList]).2.tree) ∧
    (Faults.absent.execute World.inPlace
      ["x.css".toList, "x.html".toList, "y.html".toList]).1 = 1 ∧
    (Faults.absent.execute World.inPlace
      ["x.css".toList, "x.html".toList, "y.html".toList]).2.tree =
        World.inPlace.tree := by
  have hargs : Arguments.ofList? ["x.css".toList, "x.html".toList,
      "y.html".toList, "-o".toList, ".".toList] = some Arguments.inPlace := rfl
  have hargs' : Arguments.ofList?
      ["x.css".toList, "x.html".toList, "y.html".toList] =
        some ⟨"x.css".toList, ["x.html".toList, "y.html".toList], none, none,
          false⟩ := rfl
  constructor
  · obtain ⟨-, -, sheet, css, delivered, rest, -, -, hpages, hends, hcode⟩ :=
      (execute_ends .absent hargs).2 ".".toList World.inPlace rfl
        not_blocked_inPlace rfl
    have hrest : rest ≠ [] := by
      rintro rfl
      rw [if_pos rfl] at hcode
      exact absurd hcode (by decide +kernel)
    cases delivered with
    | nil =>
        rw [List.nil_append] at hpages
        subst hpages
        refine absurd (hends.stopped _ rfl) (not_stops_inPlace ?_)
        rw [hends.elsewhere _ (by simp)]
        exact fun hdirectory => nomatch hdirectory
    | cons page delivered =>
        rw [List.cons_append] at hpages
        obtain ⟨rfl, hothers⟩ := List.cons.inj hpages
        rw [eq_comm, List.append_eq_singleton_iff] at hothers
        obtain ⟨rfl, rfl⟩ := hothers.resolve_right (fun h => hrest h.2)
        exact ⟨css, hends⟩
  · exact (execute_ends .absent hargs').1 (.clash (by decide : 1 < 2))

end Commands

end StylesheetPruning
