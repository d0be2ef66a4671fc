import SchemaLint.Proofs.Path.Steps

/-!
# Trees

In a tree directories stand around everything that is kept.  So the names that lead down from a
directory to a file can be followed from every spelling of the directory that is short enough.
-/

set_option autoImplicit false
set_option relaxedAutoImplicit false

namespace SchemaLint

theorem Place.mem_around (place : Place) {names : List String} (h : names ≠ []) :
    place ∈ around (place ++ names) := by
  have hlength : place.length < (place ++ names).length := by
    rw [List.length_append]
    exact Nat.lt_add_of_pos_right (List.length_pos_iff.2 h)
  unfold around way
  rw [List.range_succ, List.map_append, List.map_singleton, List.dropLast_concat, List.mem_reverse]
  exact List.mem_map.2 ⟨place.length, List.mem_range.2 hlength, List.take_left⟩

namespace Store

variable {s : Store} {path : String} {place directory names : Place} {entry : Entry}

/-- A store is a tree: everything stands under names that a directory can give, and directories are
kept around it. -/
def IsTree (s : Store) : Prop :=
  ∀ e ∈ s.entries, (∀ name ∈ e.1, Path.IsName name) ∧
    ∀ place ∈ Place.around e.1, s.entryAt? place = some .directory

instance : DecidablePred IsTree :=
  fun s => inferInstanceAs (Decidable (∀ e ∈ s.entries, (∀ name ∈ e.1, Path.IsName name) ∧
    ∀ place ∈ Place.around e.1, s.entryAt? place = some .directory))

def HasFile (s : Store) (place : Place) : Prop :=
  ∃ entry, s.entryAt? place = some entry ∧ entry.isFile = true

theorem mem_entries_of_entryAt? (h : s.entryAt? place = some entry) :
    (place, entry) ∈ s.entries := by
  unfold entryAt? at h
  obtain ⟨before, after, hentries, -⟩ := List.lookup_eq_some_iff.1 h
  rw [hentries]
  exact List.mem_append_right before List.mem_cons_self

theorem find_eq_ok_iff : s.find path = .ok entry ↔
    ∃ place, s.locate path = .ok place ∧ s.entryAt? place = some entry := by
  unfold find
  rw [bind_eq_ok_iff]
  refine exists_congr fun place => and_congr_right fun _ => ?_
  cases s.entryAt? place with
  | none => exact ⟨nofun, nofun⟩
  | some e =>
    exact ⟨fun h => congrArg some (Except.ok.inj h), fun h => congrArg Except.ok (Option.some.inj h)⟩

theorem isThere_iff : s.isThere path = true ↔ ∃ entry, s.find path = .ok entry := by
  unfold isThere
  cases s.find path with
  | error e => exact ⟨nofun, nofun⟩
  | ok entry => exact ⟨fun _ => ⟨entry, rfl⟩, fun _ => rfl⟩

theorem isFile_iff (h : s.locate path = .ok place) : s.isFile path = true ↔ s.HasFile place := by
  unfold isFile HasFile find
  rw [h]
  cases hentry : s.entryAt? place with
  | none => simp [bind, Except.bind, hentry]
  | some entry => simp [bind, Except.bind, hentry, pure, Except.pure]

theorem exists_locate_of_isFile (h : s.isFile path = true) : ∃ place, s.locate path = .ok place := by
  cases hplace : s.locate path with
  | ok place => exact ⟨place, rfl⟩
  | error fault => simp [isFile, find, hplace, bind, Except.bind] at h

theorem mem_filesBelow_iff : names ∈ s.filesBelow place ↔
    names ≠ [] ∧ ∃ entry, (place ++ names, entry) ∈ s.entries ∧ entry.isFile = true := by
  unfold filesBelow
  rw [List.mem_filterMap]
  constructor
  · rintro ⟨⟨p, entry⟩, hmem, h⟩
    simp only [Option.ite_none_right_eq_some, Bool.and_eq_true, List.isPrefixOf_iff_prefix,
      decide_eq_true_eq, Option.some.injEq] at h
    obtain ⟨⟨⟨hfile, below, rfl⟩, hlength⟩, rfl⟩ := h
    rw [List.drop_left]
    refine ⟨?_, entry, hmem, hfile⟩
    rintro rfl
    simp at hlength
  · rintro ⟨hne, entry, hmem, hfile⟩
    refine ⟨(place ++ names, entry), hmem, ?_⟩
    simp [hfile, List.isPrefixOf_iff_prefix, List.length_pos_iff.2 hne]

theorem HasFile.isName (h : s.HasFile place) (tree : s.IsTree) :
    ∀ name ∈ place, Path.IsName name := by
  obtain ⟨entry, hentry, -⟩ := h
  exact (tree _ (mem_entries_of_entryAt? hentry)).1

theorem HasFile.isName_below (h : s.HasFile (place ++ names)) (tree : s.IsTree) :
    ∀ name ∈ names, Path.IsName name :=
  fun name hname => h.isName tree name (List.mem_append_right place hname)

theorem HasFile.mem_filesBelow (h : s.HasFile (place ++ names)) (nonempty : names ≠ []) :
    names ∈ s.filesBelow place := by
  obtain ⟨entry, hentry, hfile⟩ := h
  exact mem_filesBelow_iff.2 ⟨nonempty, entry, mem_entries_of_entryAt? hentry, hfile⟩

theorem step_of_isName {name : String} (opens : s.entryAt? place = some .directory)
    (named : Path.IsName name) : s.step place name.toList = .ok (place ++ [name]) := by
  obtain ⟨-, hidle, hup, -, hsize⟩ := named
  unfold step
  simp [opens, hidle, hup, Nat.not_lt.2 hsize]

theorem foldlM_step_names (named : ∀ name ∈ names, Path.IsName name)
    (opens : ∀ q ∈ Place.around (place ++ names), s.entryAt? q = some .directory) :
    (names.map String.toList).foldlM s.step place = .ok (place ++ names) := by
  induction names generalizing place with
  | nil => simp [pure, Except.pure]
  | cons name names ih =>
    obtain ⟨hname, hnames⟩ := List.forall_mem_cons.1 named
    have hstep := step_of_isName (opens place (Place.mem_around place (by simp))) hname
    have hcut : place ++ [name] ++ names = place ++ name :: names := by simp
    have hrest := ih hnames (hcut ▸ opens)
    rw [List.map_cons, List.foldlM_cons, hstep, ← hcut]
    exact hrest

/-- In a tree, a file below a directory is found under the directory's path and the names that lead
down to it. -/
theorem locate_below (tree : s.IsTree) (located : s.locate path = .ok directory)
    (mem : names ∈ s.filesBelow directory)
    (short : (Path.join path ("/".intercalate names)).utf8ByteSize ≤ 4095) :
    s.locate (Path.join path ("/".intercalate names)) = .ok (directory ++ names) := by
  obtain ⟨nonempty, entry, hentry, -⟩ := mem_filesBelow_iff.1 mem
  obtain ⟨hnames, hopens⟩ := tree _ hentry
  have hnamed : ∀ name ∈ names, Path.IsName name := fun name hname =>
    hnames name (List.mem_append_right directory hname)
  obtain ⟨hempty, hzero, -, hfollowed⟩ := locate_eq_ok_iff.1 located
  refine locate_eq_ok_iff.2 ⟨Path.join_ne_empty hempty _, fun hc => ?_, short, ?_⟩
  · rcases Path.mem_join hc with hc | hc | hc
    · exact hzero hc
    · exact absurd hc (by decide)
    · rw [String.toList_intercalate] at hc
      rcases Text.mem_intercalate hc with hc | ⟨piece, hpiece, hc⟩
      · exact absurd hc (by decide)
      · obtain ⟨name, hname, rfl⟩ := List.mem_map.1 hpiece
        exact (hnamed name hname).2.2.2.1 hc
  -- The directory's path goes on where its last piece, if it is empty, is left out.
  · obtain ⟨p, ps, idle, hdirectory, -, hidle, hjoin⟩ :=
      Path.pieces_join hempty ("/".intercalate names)
    rw [hdirectory, ← List.cons_append, List.foldlM_append] at hfollowed
    obtain ⟨reached, hreached, hrest⟩ := bind_eq_ok_iff.1 hfollowed
    have heq := foldlM_step_eq_ok hrest
    rw [hidle, List.foldl_nil] at heq
    rw [Path.head?_join hempty, hjoin, ← List.cons_append, List.foldlM_append, hreached, ← heq,
      Path.pieces_intercalate nonempty hnamed]
    exact foldlM_step_names hnamed hopens

end Store

end SchemaLint
