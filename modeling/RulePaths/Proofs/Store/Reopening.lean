import RulePaths.Graph.TablesFile
import RulePaths.Proofs.Graph.RecordBytes

/-!
# A durable store is opened again

What was written to the file of a store is what is read when the store is opened, whatever other
files there are. Opening only adds directories that are missing.

## Main results

- `Files.read?_of_write?` — a file that was written is read back
- `TablesFile.decode?_of_openIn` — a store that is opened holds the tables that were written
- `TablesFile.exists_openIn` — what was written can be opened
-/

namespace RulePaths

namespace Files

variable {f g : Files} {path : String} {place : Place}

theorem at?_put_self (f : Files) (hplace : place ≠ []) (entry : FileEntry) :
    (f.put place entry).at? place = some entry := by
  rw [at?, if_neg hplace, put, Table.get?_insert_self]

theorem at?_put_of_ne (f : Files) (entry : FileEntry) {other : Place} (h : other ≠ place) :
    (f.put place entry).at? other = f.at? other := by
  simp only [at?, put, Table.get?_insert_of_ne _ _ h]

/-! ### Writing a file -/

theorem locate_eq_some_iff : f.locate path = some place ↔ isPath path = true ∧
    f.walk (f.names path).1 (f.names path).2 = some place ∧
      (endsInSlash path = true → f.isDirectory place = true) := by
  have hlocate : f.locate path = if isPath path then
      (f.walk (f.names path).1 (f.names path).2).bind fun place =>
        if endsInSlash path && !f.isDirectory place then none else some place
      else none := by
    unfold locate
    cases isPath path <;> rfl
  rw [hlocate]
  cases isPath path with
  | false => simp
  | true =>
    rw [if_pos rfl, Option.bind_eq_some_iff]
    constructor
    · rintro ⟨here, hwalk, hhere⟩
      split at hhere
      · cases hhere
      · next hslash =>
        cases hhere
        refine ⟨rfl, hwalk, fun hends => ?_⟩
        simpa [hends] using hslash
    · rintro ⟨_, hwalk, hslash⟩
      refine ⟨place, hwalk, if_neg ?_⟩
      rw [Bool.and_eq_true, Bool.not_eq_true']
      rintro ⟨hends, hdir⟩
      exact Bool.false_ne_true (hdir.symm.trans (hslash hends))

/-- Where directories are the same, paths lead to the same places. -/
theorem locate_congr (hworking : f.working = g.working)
    (h : ∀ place, f.isDirectory place = g.isDirectory place) (path : String) :
    f.locate path = g.locate path := by
  have hwalk : ∀ names here, f.walk here names = g.walk here names := by
    intro names
    induction names with
    | nil => exact fun _ => rfl
    | cons name rest ih =>
      intro here
      rw [walk, walk, h here, ih]
  have hnames : f.names path = g.names path := by
    rw [names, names, hworking]
  simp only [locate, hnames, hwalk, h]

/-- What it takes to write a file, and that nothing else changes its place. -/
theorem write?_eq_some_iff {content : Bytes} : f.write? path content = some g ↔
    ∃ place name, f.locate path = some place ∧ place.getLast? = some name ∧
      f.isDirectory place = false ∧ f.isDirectory place.dropLast = true ∧
        name.utf8ByteSize ≤ nameLimit ∧ g = f.put place (.file content) := by
  unfold write?
  cases hlocate : f.locate path with
  | none => simp
  | some place =>
    cases hlast : place.getLast? with
    | none => simp [hlast]
    | some name => simp [hlast, eq_comm (b := g), and_assoc]

/-- The root is a directory. -/
theorem ne_nil_of_isDirectory (h : f.isDirectory place = false) : place ≠ [] := by
  rintro rfl
  cases h

theorem isDirectory_put (h : f.isDirectory place = false) (content : Bytes) (other : Place) :
    (f.put place (.file content)).isDirectory other = f.isDirectory other := by
  by_cases hother : other = place
  · rw [hother, h, isDirectory, at?_put_self f (ne_nil_of_isDirectory h)]
    rfl
  · rw [isDirectory, at?_put_of_ne f _ hother, isDirectory]

/-- Writing a file changes the place of no path. -/
theorem locate_of_write? {content : Bytes} (h : f.write? path content = some g) (other : String) :
    g.locate other = f.locate other := by
  obtain ⟨place, name, _, _, hfree, _, _, rfl⟩ := write?_eq_some_iff.1 h
  exact locate_congr (f := f.put place (.file content)) (g := f) rfl
    (isDirectory_put hfree content) other

/-- A file that was written is read back. -/
theorem read?_of_write? {content : Bytes} (h : f.write? path content = some g) :
    g.read? path = some content := by
  obtain ⟨place, name, hlocate, _, hfree, _, _, heq⟩ := write?_eq_some_iff.1 h
  rw [read?, locate_of_write? h, hlocate, Option.bind_some, heq,
    at?_put_self f (ne_nil_of_isDirectory hfree)]

/-- A file that was written can be written again. -/
theorem write?_of_write? {content : Bytes} (h : f.write? path content = some g)
    (content' : Bytes) : ∃ h, g.write? path content' = some h := by
  have hlocate := locate_of_write? h path
  obtain ⟨place, name, hplace, hlast, hfree, hparent, hname, rfl⟩ := write?_eq_some_iff.1 h
  refine ⟨_, write?_eq_some_iff.2 ⟨place, name, hlocate.trans hplace, hlast, ?_, ?_, hname, rfl⟩⟩
  · rwa [isDirectory_put hfree]
  · rwa [isDirectory_put hfree]

/-! ### Directories that are added -/

/-- All that was in the first tree is in the second one. -/
structure Within (f g : Files) : Prop where
  working : f.working = g.working
  entries : ∀ place entry, f.at? place = some entry → g.at? place = some entry

theorem Within.refl (f : Files) : Within f f :=
  ⟨rfl, fun _ _ h => h⟩

theorem Within.trans {f g h : Files} (hfg : Within f g) (hgh : Within g h) : Within f h :=
  ⟨hfg.working.trans hgh.working, fun place entry hat =>
    hgh.entries place entry (hfg.entries place entry hat)⟩

theorem Within.isDirectory (h : Within f g) (hplace : f.isDirectory place = true) :
    g.isDirectory place = true := by
  rw [Files.isDirectory, beq_iff_eq] at hplace ⊢
  exact h.entries place _ hplace

theorem Within.walk (h : Within f g) {names : List String} {here : Place}
    (hwalk : f.walk here names = some place) : g.walk here names = some place := by
  induction names generalizing here with
  | nil => exact hwalk
  | cons name rest ih =>
    rw [Files.walk] at hwalk ⊢
    split at hwalk
    · next hdir =>
      rw [if_pos (h.isDirectory hdir)]
      exact ih hwalk
    · cases hwalk

theorem Within.locate (h : Within f g) (hlocate : f.locate path = some place) :
    g.locate path = some place := by
  have hnames : f.names path = g.names path := by
    rw [names, names, h.working]
  rw [locate_eq_some_iff] at hlocate ⊢
  obtain ⟨hpath, hwalk, hslash⟩ := hlocate
  exact ⟨hpath, h.walk (hnames ▸ hwalk), fun hends => h.isDirectory (hslash hends)⟩

theorem Within.read? (h : Within f g) {content : Bytes} (hread : f.read? path = some content) :
    g.read? path = some content := by
  unfold Files.read? at hread
  split at hread
  · next found hat =>
    cases hread
    obtain ⟨place, hplace, hat⟩ := Option.bind_eq_some_iff.1 hat
    rw [Files.read?, h.locate hplace, Option.bind_some, h.entries place _ hat]
  · cases hread

theorem within_makeDirectories (f : Files) (here : Place) (names : List String) :
    Within f (f.makeDirectories here names).2 := by
  induction names generalizing f here with
  | nil => exact .refl f
  | cons name rest ih =>
    unfold makeDirectories
    cases hat : f.at? (step here name) with
    | some entry =>
      cases entry with
      | directory => simpa only [hat] using ih f _
      | file _ => simpa only [hat] using .refl f
    | none =>
      simp only [hat]
      split
      · exact .refl f
      · have hput : Within f (f.put (step here name) .directory) := by
          refine ⟨rfl, fun place entry hplace => ?_⟩
          rw [at?_put_of_ne f _ fun heq => ?_, hplace]
          rw [heq, hat] at hplace
          cases hplace
        exact hput.trans (ih _ _)

theorem within_createDirectories (f : Files) (dir : String) :
    Within f (createDirectories dir f).2 := by
  unfold createDirectories
  split
  · exact .refl f
  · split
    · exact within_makeDirectories f _ _
    · exact .refl f

end Files

/-- A store that is opened holds the tables that were written. -/
theorem TablesFile.decode?_of_openIn {files files' : Files} {dir : String} {t t' : Tables}
    (hwrite : files.write? (pathIn dir) (encode t) = some files')
    (hopen : (openIn files' dir).1 = .ok t') : decode? (encode t) = some t' := by
  have hread := (Files.within_createDirectories files' dir).read? (Files.read?_of_write? hwrite)
  generalize encode t = bytes at hread ⊢
  unfold openIn at hopen
  dsimp only at hopen
  split at hopen
  · cases hopen
  · next files₁ hdirs =>
    rw [hdirs] at hread
    rw [hread, Option.orElse_some, Option.bind_some] at hopen
    split at hopen
    · cases hopen
    · next tables hdecode =>
      split at hopen
      · cases hopen
      · cases hopen
        exact hdecode

/-- What was written in the working directory can be opened there. -/
theorem TablesFile.exists_openIn {t t' : Tables} (h : decode? (encode t) = some t') :
    ∃ files, Files.empty.write? (pathIn "") (encode t) = some files ∧
      (openIn files "").1 = .ok t' := by
  have hlocate : Files.empty.locate (pathIn "") = some [name] := by decide +kernel
  have hname : name.utf8ByteSize ≤ Files.nameLimit := by decide +kernel
  have hwrite : Files.empty.write? (pathIn "") (encode t) =
      some (Files.empty.put [name] (.file (encode t))) :=
    Files.write?_eq_some_iff.2 ⟨[name], name, hlocate, rfl, rfl, rfl, hname, rfl⟩
  obtain ⟨again, hagain⟩ := Files.write?_of_write? hwrite (encode t')
  refine ⟨_, hwrite, ?_⟩
  have hdirectories : ∀ files, Files.createDirectories "" files = (true, files) := fun _ => rfl
  have hread := Files.read?_of_write? hwrite
  generalize encode t = bytes at *
  simp only [openIn, hdirectories, hread, Option.orElse_some, Option.bind_some, h, hagain]

end RulePaths
