import SchemaLint.Command.Search
import SchemaLint.Proofs.Linter.Schedule
import SchemaLint.Proofs.Path.Order
import SchemaLint.Proofs.Path.Tree

/-!
# How often a file is listed

Arguments ask for files and spell them, a file below a directory through the directory's own
spelling.  Whatever walker meets the files of each directory, every file that is asked for is listed
under one path for all its spellings of the same steps, so it is listed once if and only if the
arguments spell it with the same steps.
-/

set_option autoImplicit false
set_option relaxedAutoImplicit false

namespace SchemaLint

/-- Paths that begin with the same steps and go only down from there. -/
def Path.BeginAlike (paths : List String) : Prop :=
  ∃ start : List PathStep, ∀ path ∈ paths, ∃ names : List String,
    steps path = start ++ names.map PathStep.name

namespace Store

/-- How one argument spells the files that it asks for: a file as the argument is written, and a
schema file in a directory with the names that lead down to it behind, unless that is more than a path
may hold. -/
inductive Spells (s : Store) (argument : String) : String → Place → Prop
  | itself {place : Place} (located : s.locate argument = .ok place) (file : s.HasFile place) :
      Spells s argument argument place
  | inside {directory names : Place} {name : String} (located : s.locate argument = .ok directory)
      (opens : s.entryAt? directory = some .directory) (schema : Path.isSchemaName name = true)
      (file : s.HasFile (directory ++ (names ++ [name])))
      (short : (Path.join argument ("/".intercalate (names ++ [name]))).utf8ByteSize ≤ 4095) :
      Spells s argument (Path.join argument ("/".intercalate (names ++ [name])))
        (directory ++ (names ++ [name]))

theorem spells_iff_of_isFile {s : Store} {argument path : String} {place p : Place} {entry : Entry}
    (located : s.locate argument = .ok place) (kept : s.entryAt? place = some entry)
    (file : entry.isFile = true) : s.Spells argument path p ↔ path = argument ∧ p = place := by
  constructor
  · intro h
    cases h with
    | itself located' => exact ⟨rfl, Except.ok.inj (located'.symm.trans located)⟩
    | inside located' opens =>
      obtain rfl := Except.ok.inj (located.symm.trans located')
      cases kept.symm.trans opens
      cases file
  · rintro ⟨rfl, rfl⟩
    exact .itself located ⟨entry, kept, file⟩

theorem spells_iff_of_directory {s : Store} {argument path : String} {place p : Place}
    (located : s.locate argument = .ok place) (opens : s.entryAt? place = some .directory) :
    s.Spells argument path p ↔ ∃ names name,
      path = Path.join argument ("/".intercalate (names ++ [name])) ∧
      p = place ++ (names ++ [name]) ∧ Path.isSchemaName name = true ∧ s.HasFile p ∧
      path.utf8ByteSize ≤ 4095 := by
  constructor
  · intro h
    cases h with
    | itself located' file =>
      obtain rfl := Except.ok.inj (located.symm.trans located')
      obtain ⟨entry, hentry, hfile⟩ := file
      cases opens.symm.trans hentry
      cases hfile
    | inside located' _ schema file short =>
      obtain rfl := Except.ok.inj (located.symm.trans located')
      exact ⟨_, _, rfl, rfl, schema, file, short⟩
  · rintro ⟨names, name, rfl, rfl, schema, file, short⟩
    exact .inside located opens schema file short

/-- A spelling of a file leads to it. -/
theorem Spells.located {s : Store} {argument path : String} {place : Place}
    (h : s.Spells argument path place) (tree : s.IsTree) : s.locate path = .ok place := by
  cases h with
  | itself located => exact located
  | inside located _ _ file short =>
    exact locate_below tree located (file.mem_filesBelow (by simp)) short

theorem Spells.begins {s : Store} {argument path : String} {place : Place} {start : List PathStep}
    (h : s.Spells argument path place) (tree : s.IsTree)
    (begins : ∃ names : List String, Path.steps argument = start ++ names.map PathStep.name) :
    ∃ names : List String, Path.steps path = start ++ names.map PathStep.name := by
  obtain ⟨front, hfront⟩ := begins
  cases h with
  | itself => exact ⟨front, hfront⟩
  | @inside directory names name located _ _ file _ =>
    have hnames : ∀ n ∈ names ++ [name], Path.IsName n := fun n hn =>
      file.isName tree n (List.mem_append_right directory hn)
    refine ⟨front ++ (names ++ [name]), ?_⟩
    rw [Path.steps_join_names (ne_empty_of_locate located) (by simp) hnames, hfront,
      List.append_assoc, ← List.map_append]

/-- A path is one of the spellings that some arguments have for a file. -/
def SpelledBy (s : Store) (arguments : List String) (path : String) (place : Place) : Prop :=
  ∃ argument ∈ arguments, s.Spells argument path place

def IsAsked (s : Store) (arguments : List String) (place : Place) : Prop :=
  ∃ path, s.SpelledBy arguments path place

/-- Some arguments have only spellings of the same steps for the file at a place. -/
def SpelledAlike (s : Store) (arguments : List String) (place : Place) : Prop :=
  ∀ path other, s.SpelledBy arguments path place → s.SpelledBy arguments other place →
    Path.isSame path other = true

def pathsTo (s : Store) (paths : List String) (place : Place) : List String :=
  paths.filter fun path => (s.locate path).toOption = some place

theorem mem_pathsTo_iff {s : Store} {paths : List String} {path : String} {place : Place} :
    path ∈ s.pathsTo paths place ↔ path ∈ paths ∧ s.locate path = .ok place := by
  rw [pathsTo, List.mem_filter, decide_eq_true_eq]
  exact and_congr_right fun _ => ⟨eq_ok_of_toOption, fun h => by rw [h]; rfl⟩

/-- A list of paths for the files that some arguments ask for.  Every path in it spells such a file,
every spelling has a path of the same steps in it that leads to the same file, and the paths stand
in their order, no two of the same steps. -/
structure Lists (s : Store) (arguments paths : List String) : Prop where
  spells : ∀ path ∈ paths, ∃ place, s.locate path = .ok place ∧ s.SpelledBy arguments path place
  spelled : ∀ path place, s.SpelledBy arguments path place →
    ∃ q ∈ paths, Path.isSame q path = true ∧ s.locate q = .ok place
  rising : paths.Pairwise fun a b => Path.le a b = true ∧ Path.isSame a b = false

namespace Lists

variable {s : Store} {arguments paths : List String} (lists : s.Lists arguments paths)
include lists

theorem spelledBy {path : String} {place : Place} (mem : path ∈ paths)
    (located : s.locate path = .ok place) : s.SpelledBy arguments path place := by
  obtain ⟨place', hplace', h⟩ := lists.spells path mem
  rwa [Except.ok.inj (located.symm.trans hplace')]

theorem length_pathsTo_eq_one_iff {place : Place} (h : s.IsAsked arguments place) :
    (s.pathsTo paths place).length = 1 ↔ s.SpelledAlike arguments place := by
  rw [List.length_eq_one_iff]
  constructor
  · rintro ⟨q, hq⟩ path other hpath hother
    obtain ⟨r, hr, hsame, hlocated⟩ := lists.spelled path place hpath
    obtain ⟨r', hr', hsame', hlocated'⟩ := lists.spelled other place hother
    have hrq := mem_pathsTo_iff.2 ⟨hr, hlocated⟩
    have hrq' := mem_pathsTo_iff.2 ⟨hr', hlocated'⟩
    rw [hq, List.mem_singleton] at hrq hrq'
    rw [Path.isSame_iff, ← Path.isSame_iff.1 hsame, ← Path.isSame_iff.1 hsame', hrq, hrq']
  · intro alike
    have hspelled : ∀ r ∈ s.pathsTo paths place, s.SpelledBy arguments r place := by
      intro r hr
      obtain ⟨hr, hlocated⟩ := mem_pathsTo_iff.1 hr
      exact lists.spelledBy hr hlocated
    have hapart : (s.pathsTo paths place).Pairwise _ := lists.rising.sublist List.filter_sublist
    obtain ⟨path, hpath⟩ := h
    obtain ⟨q, hq, -, hlocated⟩ := lists.spelled path place hpath
    cases hto : s.pathsTo paths place with
    | nil => exact absurd (mem_pathsTo_iff.2 ⟨hq, hlocated⟩) (by simp [hto])
    | cons a as =>
      rw [hto] at hapart hspelled
      refine ⟨a, congrArg (a :: ·) (List.eq_nil_iff_forall_not_mem.2 fun b hb => ?_)⟩
      have hsame := alike a b (hspelled a List.mem_cons_self) (hspelled b (List.mem_cons_of_mem a hb))
      exact absurd hsame (by simp [((List.pairwise_cons.1 hapart).1 b hb).2])

theorem separates (alike : ∀ place, s.SpelledAlike arguments place) :
    paths.Pairwise s.Separates := by
  refine lists.rising.imp_of_mem fun {a b} ha hb hne place hplace hplace' => ?_
  have hsame := alike place a b (lists.spelledBy ha hplace) (lists.spelledBy hb hplace')
  exact absurd hsame (by simp [hne.2])

end Lists

/-- What a walker tells of a directory to which an argument leads.  It comes to its end, and the files
that it meets are those below the directory, each under the argument with the names behind it that lead
down to the file. -/
structure Walks (s : Store) (argument : String) (directory : Place)
    (met : List (Option String)) : Prop where
  told : none ∉ met
  every : ∀ names ∈ s.filesBelow directory, some (Path.join argument ("/".intercalate names)) ∈ met
  only : ∀ path, some path ∈ met → s.isFile path = true →
    ∃ names ∈ s.filesBelow directory, path = Path.join argument ("/".intercalate names)

theorem walks_iff {s : Store} {argument : String} {directory : Place} {met : List (Option String)} :
    s.Walks argument directory met ↔ none ∉ met ∧
      (∀ names ∈ s.filesBelow directory,
        some (Path.join argument ("/".intercalate names)) ∈ met) ∧
      ∀ path ∈ met.filterMap id, s.isFile path = true →
        ∃ names ∈ s.filesBelow directory, path = Path.join argument ("/".intercalate names) :=
  ⟨fun ⟨told, every, only⟩ => ⟨told, every, fun path h => only path (by simpa using h)⟩,
    fun ⟨told, every, only⟩ => ⟨told, every, fun path h => only path (by simpa using h)⟩⟩

/-- Of what a walker meets in a directory, those are schema files that the argument spells. -/
theorem Walks.mem_iff {s : Store} {argument path : String} {directory : Place}
    {met : List (Option String)} (walks : s.Walks argument directory met) (tree : s.IsTree)
    (located : s.locate argument = .ok directory)
    (opens : s.entryAt? directory = some .directory) :
    (some path ∈ met ∧ s.isFile path = true ∧ Path.isSchema path = true) ↔
      ∃ place, s.Spells argument path place := by
  have hargument := ne_empty_of_locate located
  simp only [spells_iff_of_directory located opens]
  constructor
  · rintro ⟨hmet, hfile, hschema⟩
    obtain ⟨names, hnames, rfl⟩ := walks.only path hmet hfile
    obtain ⟨place, hplace⟩ := exists_locate_of_isFile hfile
    obtain ⟨-, -, hshort, -⟩ := locate_eq_ok_iff.1 hplace
    have hkept := (isFile_iff (locate_below tree located hnames hshort)).1 hfile
    rcases names.eq_nil_or_concat' with rfl | ⟨init, name, rfl⟩
    · exact absurd rfl (mem_filesBelow_iff.1 hnames).1
    · rw [Path.isSchema_join hargument (hkept.isName_below tree)] at hschema
      exact ⟨_, init, name, rfl, rfl, hschema, hkept, hshort⟩
  · rintro ⟨_, init, name, rfl, rfl, hschema, hkept, hshort⟩
    have hnames := hkept.mem_filesBelow (by simp)
    refine ⟨walks.every _ hnames, (isFile_iff (locate_below tree located hnames hshort)).2 hkept, ?_⟩
    rwa [Path.isSchema_join hargument (hkept.isName_below tree)]

section Arguments

variable {s : Store} {arguments : List String} {readPattern? : PatternReader} {walk : Walker}
  (tree : s.IsTree)
  (there : ∀ argument ∈ arguments, s.isThere argument = true)
  (walked : ∀ argument ∈ arguments, ∀ directory, s.locate argument = .ok directory →
    s.entryAt? directory = some .directory → s.Walks argument directory (walk s false argument))

include tree

theorem SpelledBy.located {path : String} {place : Place}
    (h : s.SpelledBy arguments path place) : s.locate path = .ok place := by
  obtain ⟨argument, -, h⟩ := h
  exact h.located tree

include there walked

theorem exists_filesOf (argument : String) (mem : argument ∈ arguments) :
    ∃ found, s.filesOf (walk s false) [] argument = .ok found ∧
      ∀ path, path ∈ found ↔ ∃ place, s.Spells argument path place := by
  obtain ⟨entry, hfind⟩ := isThere_iff.1 (there argument mem)
  obtain ⟨place, hplace, hentry⟩ := find_eq_ok_iff.1 hfind
  unfold filesOf
  cases entry with
  | text _ | binary _ | closed _ =>
    have hfile : s.isFile argument = true := (isFile_iff hplace).2 ⟨_, hentry, rfl⟩
    refine ⟨[argument], by simp [hfile], fun path => ?_⟩
    simp [spells_iff_of_isFile hplace hentry rfl]
  | directory =>
    have hfile : s.isFile argument = false := by simp [isFile, hfind, Entry.isFile]
    have hwalks := walked argument mem place hplace hentry
    refine ⟨_, by simp only [hfile, there argument mem, hwalks.told]; rfl, fun path => ?_⟩
    rw [← hwalks.mem_iff tree hplace hentry]
    simp

/-- What is found for some arguments are the spellings that they have. -/
theorem exists_discover : ∃ found,
    s.discover readPattern? walk arguments [] false = .ok (Path.dropRepeats (Path.sort found)) ∧
      ∀ path, path ∈ found ↔ ∃ place, s.SpelledBy arguments path place := by
  choose! found hfound using exists_filesOf tree there walked
  have hall : arguments.mapM (s.filesOf (walk s false) []) = .ok (arguments.map found) := by
    rw [mapM_eq_ok_iff, List.forall₂_map_right_iff, List.forall₂_same]
    exact fun argument hargument => (hfound argument hargument).1
  refine ⟨(arguments.map found).flatten, ?_, fun path => ?_⟩
  · unfold discover
    rw [List.mapM_nil]
    simp only [pure_bind, hall]
    rfl
  · rw [List.mem_flatten]
    simp only [List.mem_map, exists_exists_and_eq_and]
    constructor
    · rintro ⟨argument, hargument, hpath⟩
      obtain ⟨place, hplace⟩ := ((hfound argument hargument).2 path).1 hpath
      exact ⟨place, argument, hargument, hplace⟩
    · rintro ⟨place, argument, hargument, hplace⟩
      exact ⟨argument, hargument, ((hfound argument hargument).2 path).2 ⟨place, hplace⟩⟩

omit there walked

theorem spelledAlike_of_beginAlike (alike : Path.BeginAlike arguments) (place : Place) :
    s.SpelledAlike arguments place := by
  obtain ⟨start, hstart⟩ := alike
  -- The start leads to one place, from which the names behind it can be read off.
  have hbegins : ∀ path, s.SpelledBy arguments path place → ∃ names : List String,
      Path.steps path = start ++ names.map PathStep.name ∧
        place = start.foldl PathStep.move s.current ++ names := by
    intro path hpath
    have hlocated := hpath.located tree
    obtain ⟨argument, hargument, h⟩ := hpath
    obtain ⟨names, hnames⟩ := h.begins tree (hstart argument hargument)
    refine ⟨names, hnames, ?_⟩
    rw [eq_of_locate hlocated, hnames, List.foldl_append, PathStep.foldl_move_names]
  intro path other hpath hother
  obtain ⟨names, hnames, hplace⟩ := hbegins path hpath
  obtain ⟨names', hnames', hplace'⟩ := hbegins other hother
  have heq : names = names' := List.append_cancel_left (hplace.symm.trans hplace')
  rw [Path.isSame_iff, hnames, hnames', heq]

theorem lists_dropRepeats {found : List String}
    (spells : ∀ path, path ∈ found ↔ ∃ place, s.SpelledBy arguments path place) :
    s.Lists arguments (Path.dropRepeats (Path.sort found)) := by
  have hspells : ∀ path ∈ Path.dropRepeats (Path.sort found),
      ∃ place, s.locate path = .ok place ∧ s.SpelledBy arguments path place := by
    intro path hpath
    have hfound := Path.mem_sort.1 (Path.mem_of_mem_dropRepeats hpath)
    obtain ⟨place, hplace⟩ := (spells path).1 hfound
    exact ⟨place, hplace.located tree, hplace⟩
  refine ⟨hspells, fun path place hpath => ?_, Path.pairwise_dropRepeats (Path.pairwise_sort found)⟩
  have hfound := Path.mem_sort.2 ((spells path).2 ⟨place, hpath⟩)
  obtain ⟨q, hq, hsame⟩ := Path.exists_mem_dropRepeats hfound
  obtain ⟨place', hplace', -⟩ := hspells q hq
  rw [← locate_unique hplace' (hpath.located tree) hsame]
  exact ⟨q, hq, hsame, hplace'⟩

include there walked

/-- The list that is found for some arguments names exactly the files that these ask for, each of
them once if and only if they spell it alike.  If they all begin alike, every file is named once. -/
theorem discover_lists : ∃ paths, s.discover readPattern? walk arguments [] false = .ok paths ∧
    s.Lists arguments paths ∧
    (∀ place, s.IsAsked arguments place →
      ((s.pathsTo paths place).length = 1 ↔ s.SpelledAlike arguments place)) ∧
    (Path.BeginAlike arguments → paths.Pairwise s.Separates) := by
  obtain ⟨found, hdiscover, hfound⟩ := exists_discover tree there walked
  have hlists := lists_dropRepeats tree hfound
  refine ⟨_, hdiscover, hlists, fun place => hlists.length_pathsTo_eq_one_iff, fun alike => ?_⟩
  exact hlists.separates (spelledAlike_of_beginAlike tree alike)

end Arguments

/-- A directory, one inside it, and two files in them are asked for, which overlap, and commands search
the directories. -/
theorem discover_lists_overlapping :
    let s : Store := .ofEntries ["w"] [(["w", "api", "a.proto"], .text ""),
      (["w", "api", "v1", "b.proto"], .text ""), (["w", "api", "v1", "notes.txt"], .text "")]
    let arguments := ["api", "api/v1/", "api//v1/b.proto", "api/v1/notes.txt"]
    ∃ paths, s.discover Exclude.reader (walker ⟨"/w", .empty⟩) arguments [] false = .ok paths ∧
      paths.Pairwise s.Separates ∧
      (s.pathsTo paths ["w", "api", "v1", "b.proto"]).length = 1 := by
  intro s arguments
  have htree : s.IsTree := by decide +kernel
  have hthere : ∀ argument ∈ arguments, s.isThere argument = true := by decide +kernel
  have hwalked : ∀ argument ∈ arguments, ∀ directory, s.locate argument = .ok directory →
      s.entryAt? directory = some .directory →
        s.Walks argument directory (walker ⟨"/w", .empty⟩ s false argument) := by
    have hwalks : ∀ argument ∈ arguments, ∀ directory ∈ (s.locate argument).toOption,
        s.entryAt? directory = some .directory →
          s.Walks argument directory (walker ⟨"/w", .empty⟩ s false argument) := by
      simp only [walks_iff]
      decide +kernel
    exact fun argument mem directory h => hwalks argument mem directory (by rw [h]; rfl)
  obtain ⟨paths, hpaths, -, honce, hseparates⟩ := discover_lists htree hthere hwalked
  have halike : Path.BeginAlike arguments := by
    refine ⟨[], fun path hpath => ?_⟩
    simp only [arguments, List.mem_cons, List.not_mem_nil, or_false] at hpath
    rcases hpath with rfl | rfl | rfl | rfl
    · exact ⟨["api"], by decide +kernel⟩
    · exact ⟨["api", "v1"], by decide +kernel⟩
    · exact ⟨["api", "v1", "b.proto"], by decide +kernel⟩
    · exact ⟨["api", "v1", "notes.txt"], by decide +kernel⟩
  have hasked : s.IsAsked arguments ["w", "api", "v1", "b.proto"] := by
    refine ⟨"api//v1/b.proto", "api//v1/b.proto", by simp [arguments], .itself ?_ ?_⟩
    · exact eq_ok_of_toOption (by decide +kernel)
    · exact ⟨.text "", by decide +kernel, rfl⟩
  exact ⟨paths, hpaths, hseparates halike, (honce _ hasked).2
    (spelledAlike_of_beginAlike htree halike _)⟩

/-- A file that is asked for with a dot in front and without is listed twice. -/
theorem discover_of_dot :
    let s : Store := .ofEntries ["w"] [(["w", "a.proto"], .text "")]
    let arguments := ["./a.proto", "a.proto"]
    s.IsTree ∧ (∀ argument ∈ arguments, s.isFile argument = true) ∧
      s.discover Exclude.reader (walker ⟨"/w", .empty⟩) arguments [] false = .ok arguments ∧
      s.pathsTo arguments ["w", "a.proto"] = arguments := by
  intro s arguments
  have hfound : arguments.mapM (s.filesOf (walker ⟨"/w", .empty⟩ s false) []) =
      .ok [["./a.proto"], ["a.proto"]] := eq_ok_of_toOption (by decide +kernel)
  have hsorted : Path.sort arguments = arguments :=
    List.mergeSort_of_pairwise (by decide +kernel)
  refine ⟨by decide +kernel, by decide +kernel, ?_, by decide +kernel⟩
  unfold discover
  rw [List.mapM_nil]
  simp only [pure_bind, hfound]
  change Except.ok (Path.dropRepeats (Path.sort arguments)) = _
  rw [hsorted]
  exact congrArg Except.ok (by decide +kernel)

end Store

end SchemaLint
