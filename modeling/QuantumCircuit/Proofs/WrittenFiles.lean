import QuantumCircuit.CommandLine.Files
import QuantumCircuit.Proofs.Actions
import QuantumCircuit.Proofs.KeyOrder

/-! Files after one of them is written. Whether a path leads anywhere depends on the directories,
and these are told from the files; so a new file could make a path lead elsewhere. It does not,
because a file is only written into a directory that is there and never in place of one. Hence
what is written to a path is found under that path, and all other files stay as they are. -/

namespace QuantumCircuit.CommandLine.Files

variable {files : Files} {place location other : Location} {name path : String} {bytes : ByteArray}

/-! ### Files -/

theorem lookup_set (files : Files) (location other : Location) (bytes : ByteArray) :
    (files.set location bytes).lookup other =
      if other = location then some bytes else files.lookup other := by
  fun_induction set files location bytes with
  | case1 => rw [lookup_cons_eq_ite]
  | case2 old rest =>
    rw [lookup_cons_eq_ite, lookup_cons_eq_ite]
    split_ifs <;> rfl
  | case3 file old rest hne ih =>
    rw [lookup_cons_eq_ite, ih, lookup_cons_eq_ite]
    -- the two files differ, so the order of the questions does not matter
    split_ifs with h₁ h₂
    · exact absurd (h₁.symm.trans h₂) hne
    all_goals rfl

theorem mem_set_iff {P : Location → Prop} :
    (∃ file ∈ files.set location bytes, P file.1) ↔ P location ∨ ∃ file ∈ files, P file.1 := by
  induction files with
  | nil => simp [set]
  | cons entry files ih =>
    obtain ⟨file, old⟩ := entry
    by_cases hfile : file = location
    · subst hfile
      simp [set]
    · simp only [set, hfile, if_false, List.exists_mem_cons_iff, ih]
      exact or_left_comm

/-! ### Directories -/

theorem isDirectory_iff : files.isDirectory place ↔
    place <+: startDirectory ∨ (∃ name ∈ systemDirectories, place = [some name]) ∨
      ∃ file ∈ files, place <+: file.1 ∧ place ≠ file.1 := by
  simp only [isDirectory, Bool.or_eq_true, List.isPrefixOf_iff_prefix, List.contains_iff_mem,
    List.mem_map, List.any_eq_true, Bool.and_eq_true, bne_iff_ne, or_assoc, eq_comm (b := place)]

/-- A directory lies in directories. -/
theorem isDirectory_above (h : files.isDirectory place) (hother : other <+: place) :
    files.isDirectory other := by
  rw [isDirectory_iff] at h ⊢
  rcases h with h | ⟨name, hname, rfl⟩ | ⟨file, hfile, h, hne⟩
  · exact .inl (hother.trans h)
  · rcases List.prefix_concat_iff.1 (show other <+: [] ++ [some name] from hother) with rfl | h
    · exact .inr (.inl ⟨name, hname, rfl⟩)
    · rw [List.prefix_nil.1 h]
      exact .inl List.nil_prefix
  · refine .inr (.inr ⟨file, hfile, hother.trans h, fun e => hne ?_⟩)
    exact h.eq_of_length_le (e ▸ hother.length_le)

theorem isDirectory_pathStart (files : Files) (path : String) :
    files.isDirectory (pathStart path) := by
  rw [isDirectory_iff, pathStart]
  split_ifs
  · exact .inl List.nil_prefix
  · exact .inl (List.prefix_refl _)

/-- A new file in a directory makes no difference to what is a directory. -/
theorem isDirectory_set (h : files.isDirectory place) :
    (files.set (place ++ [some name]) bytes).isDirectory other = files.isDirectory other := by
  rw [Bool.eq_iff_iff, isDirectory_iff, isDirectory_iff,
    mem_set_iff (P := fun file => other <+: file ∧ other ≠ file)]
  constructor
  · rintro (h' | h' | ⟨h', hne⟩ | h')
    · exact .inl h'
    · exact .inr (.inl h')
    · have hplace : other <+: place := (List.prefix_concat_iff.1 h').resolve_left hne
      exact isDirectory_iff.1 (isDirectory_above h hplace)
    · exact .inr (.inr h')
  · rintro (h' | h' | h')
    · exact .inl h'
    · exact .inr (.inl h')
    · exact .inr (.inr (.inr h'))

/-! ### Paths -/

theorem entry_eq_directory_iff : files.entry place name = .ok .directory ↔
    ¬ nameLimit < name.utf8ByteSize ∧ files.lookup (place ++ [some name]) = none ∧
      files.isDirectory (place ++ [some name]) := by
  rw [entry]
  by_cases hlong : nameLimit < name.utf8ByteSize
  · simp [hlong]
  · cases hfile : files.lookup (place ++ [some name]) with
    | some bytes => simp [hlong]
    | none => by_cases hdir : files.isDirectory (place ++ [some name]) <;> simp [hlong, hdir]

/-- What a path leads through are directories. -/
theorem isDirectory_enter {parts : List String} {inner : Location} (h : files.isDirectory place)
    (henter : files.enter place parts = .ok inner) : files.isDirectory inner := by
  induction parts generalizing place with
  | nil =>
    cases henter
    exact h
  | cons part parts ih =>
    rw [enter] at henter
    split_ifs at henter with hstay hup
    · exact ih h henter
    · exact ih (isDirectory_above h (List.dropLast_prefix place)) henter
    · split at henter
      next => cases henter
      next => cases henter
      next => cases henter
      next hentry => exact ih (entry_eq_directory_iff.1 hentry).2.2 henter

/-- A path is walked by its parts, and the files decide only how far that leads. -/
theorem exists_enter_of_approach {found : Location × Option String}
    (h : files.approach path = .ok found) :
    ∃ parts, files.enter (pathStart path) parts = .ok found.1 ∧
      ∀ files' : Files, files'.enter (pathStart path) parts = .ok found.1 →
        files'.approach path = .ok found := by
  rw [approach] at h
  split_ifs at h with hempty hlong
  dsimp only at h
  split at h
  next hlast =>
    cases h
    refine ⟨[], rfl, fun files' _ => ?_⟩
    simp only [approach, hempty, hlong, hlast]
    rfl
  next name hlast =>
    split_ifs at h with hdots
    all_goals
      obtain ⟨inner, henter, rfl⟩ := map_eq_ok_iff.1 h
      refine ⟨_, henter, fun files' henter' => ?_⟩
      simp only [approach, hempty, hlong, hlast, hdots, henter']
      rfl

/-- A place where a file may stand: in a directory, and no directory itself. -/
structure Room (files : Files) (place : Location) (name : String) : Prop where
  isDirectory : files.isDirectory place
  entry_ne : files.entry place name ≠ .ok .directory

namespace Room

variable {other : Location} {part : String}

/-- The file that is written is no directory, so all directories are found as before. -/
theorem entry_set (h : files.Room place name) (hentry : files.entry other part = .ok .directory) :
    (files.set (place ++ [some name]) bytes).entry other part = .ok .directory := by
  rw [entry_eq_directory_iff] at hentry ⊢
  have hne : other ++ [some part] ≠ place ++ [some name] := by
    intro e
    obtain ⟨rfl, hpart⟩ := List.append_inj' e rfl
    cases hpart
    exact h.entry_ne (entry_eq_directory_iff.2 hentry)
  rwa [lookup_set, if_neg hne, isDirectory_set h.isDirectory]

theorem enter_set (h : files.Room place name) {parts : List String} {inner : Location}
    (henter : files.enter other parts = .ok inner) :
    (files.set (place ++ [some name]) bytes).enter other parts = .ok inner := by
  induction parts generalizing other with
  | nil => exact henter
  | cons part parts ih =>
    rw [enter] at henter ⊢
    split_ifs at henter ⊢ with hstay hup
    · exact ih henter
    · exact ih henter
    · split at henter
      next => cases henter
      next => cases henter
      next => cases henter
      next hentry =>
        rw [h.entry_set hentry]
        exact ih henter

theorem approach_set (h : files.Room place name) {found : Location × Option String}
    (happroach : files.approach path = .ok found) :
    (files.set (place ++ [some name]) bytes).approach path = .ok found := by
  obtain ⟨parts, henter, happroaches⟩ := exists_enter_of_approach happroach
  exact happroaches _ (h.enter_set henter)

end Room

/-! ### Written files -/

theorem isDirectory_approach {last : Option String}
    (h : files.approach path = .ok (place, last)) : files.isDirectory place := by
  obtain ⟨parts, henter, -⟩ := exists_enter_of_approach h
  exact isDirectory_enter (files.isDirectory_pathStart path) henter

/-- A path can be written to only if it names a place where a file may stand. -/
theorem exists_of_target (h : files.target path = .ok location) :
    ∃ place name entry, files.approach path = .ok (place, some name) ∧
      endsInSlash path = false ∧ files.entry place name = .ok entry ∧ files.Room place name ∧
      location = place ++ [some name] := by
  obtain ⟨⟨place, last⟩, happroach, h⟩ := bind_eq_ok_iff.1 h
  cases last with
  | none => cases h
  | some name =>
    by_cases hslash : endsInSlash path
    · simp only [hslash, if_true] at h
      cases h
    · simp only [hslash] at h
      obtain ⟨entry, hentry, h⟩ := bind_eq_ok_iff.1 h
      refine ⟨place, name, entry, happroach, by simpa using hslash, hentry,
        ⟨isDirectory_approach happroach, ?_⟩, ?_⟩
      · intro hdirectory
        rw [hentry] at hdirectory
        cases hdirectory
        cases h
      · cases entry <;> cases h <;> rfl

/-- What was written is found under the same path. -/
theorem get_set (h : files.target path = .ok location) :
    (files.set location bytes).get path = .ok bytes := by
  obtain ⟨place, name, entry, happroach, hslash, hentry, hroom, rfl⟩ := exists_of_target h
  have hshort : ¬ nameLimit < name.utf8ByteSize := by
    intro hlong
    rw [Files.entry, if_pos hlong] at hentry
    cases hentry
  have hfile : (files.set (place ++ [some name]) bytes).entry place name = .ok (.file bytes) := by
    rw [Files.entry, if_neg hshort, lookup_set, if_pos rfl]
  simp only [get, hroom.approach_set happroach, hfile, hslash, bind, Except.bind]
  rfl

end QuantumCircuit.CommandLine.Files
