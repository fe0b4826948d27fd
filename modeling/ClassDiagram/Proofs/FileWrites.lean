import ClassDiagram.Proofs.DiskChanges

/-! Writing a file. The file has the new content, and everything else on the disk is as it was;
merging into a file writes to it or leaves the disk alone. -/

namespace ClassDiagram.Proofs.FileWrites
open Files Walks DiskChanges

/-- A walk to something that may be a file ends with a name in a directory. -/
theorem walk_file {root : Node} {place segments names : List String}
    (walked : Disk.walk root place segments = .ok ⟨names, false⟩) :
    ∃ before name, names = before ++ [name] ∧ dirAt root before = true := by
  generalize end_eq : (⟨names, false⟩ : Spot) = spot at walked
  induction walk_way walked with
  | done | slashed => simp at end_eq
  | skip _ _ further ih | up _ further ih | down _ _ _ further ih => exact ih end_eq further.walk
  | @last place entries segment here =>
    obtain ⟨rfl, _⟩ := Spot.mk.inj end_eq
    exact ⟨place, segment, rfl, dirAt_iff.mpr ⟨entries, here⟩⟩

private theorem get_dropLast {root : Node} {place : List String} (there : root.get? place ≠ none) :
    root.get? place.dropLast ≠ none := by
  intro lacking
  rcases List.eq_nil_or_concat place with rfl | ⟨front, last, rfl⟩
  · exact there lacking
  · rw [List.concat_eq_append] at there lacking
    rw [List.dropLast_concat] at lacking
    exact there (by rw [get_append, lacking]; rfl)

/-- A walk to a place where nothing is ends with a name in a directory. -/
theorem walk_new {root : Node} {place segments : List String} {spot : Spot}
    (walked : Disk.walk root place segments = .ok spot)
    (start : root.get? place ≠ none ∨ segments ≠ []) (lacking : root.get? spot.names = none) :
    ∃ before name, spot.names = before ++ [name] ∧ dirAt root before = true := by
  induction walk_way walked with
  | done => exact absurd lacking (start.resolve_right (by simp))
  | skip here _ further ih => exact ih further.walk (Or.inl (by simp [here])) lacking
  | up here further ih => exact ih further.walk (Or.inl (get_dropLast (by simp [here]))) lacking
  | @last place entries segment here | @slashed place entries segment _ here =>
    exact ⟨place, segment, rfl, dirAt_iff.mpr ⟨entries, here⟩⟩
  | down _ _ solid further ih => exact ih further.walk (Or.inr (solid_nonempty solid)) lacking

/-- What writing a file does: it is put at its place, where no directory was. -/
structure Writes (disk : Disk) (path : Path) (text : String) (written : Disk) (place : List String)
    (name : String) : Prop where
  spotted : disk.spot path = .ok ⟨place ++ [name], false⟩
  above : dirAt disk.root place = true
  free : dirAt disk.root (place ++ [name]) = false
  written_eq :
    written = { disk with root := (Node.file text.toUTF8).put (place ++ [name]) disk.root }

theorem writeText_writes {disk written : Disk} {path : Path} {text : String}
    (done : disk.writeText path text = .ok written) :
    ∃ place name, Writes disk path text written place name := by
  simp only [Disk.writeText, Disk.writeBytes] at done
  split at done
  · simp at done
  next spot found =>
    obtain ⟨names, asDir⟩ := spot
    have parts : asDir = false ∧ dirAt disk.root names = false ∧
        written = { disk with root := (Node.file text.toUTF8).put names disk.root } := by
      split at done
      · simp at done
      next content old =>
        split at done
        · simp at done
        next isFile =>
          exact ⟨by simpa using isFile, by simpa [dirAt] using by rw [old],
            (Except.ok.inj done).symm⟩
      next lacking =>
        split at done
        · simp at done
        next isFile =>
          exact ⟨by simpa using isFile, by simpa [dirAt] using by rw [lacking],
            (Except.ok.inj done).symm⟩
    obtain ⟨rfl, free, same⟩ := parts
    obtain ⟨place, name, rfl, above⟩ := walk_file (spot_iff.mp found).walked
    exact ⟨place, name, found, above, free, same⟩

section
variable {disk written : Disk} {path : Path} {text : String} {place : List String} {name : String}
  (writes : Writes disk path text written place name)
include writes

theorem Writes.dirs {names : List String} (there : dirAt disk.root names = true) :
    dirAt written.root names = true := by
  rw [writes.written_eq]
  exact dirAt_put rfl writes.free there

theorem Writes.files {names : List String} (other : names ≠ place ++ [name]) :
    fileAt written.root names = fileAt disk.root names := by
  rw [writes.written_eq]
  exact fileAt_put rfl writes.free other

theorem Writes.here : written.root.get? (place ++ [name]) = some (.file text.toUTF8) := by
  rw [writes.written_eq]
  exact get_put writes.above

theorem Writes.cwd : written.cwd = disk.cwd := by
  rw [writes.written_eq]

theorem Writes.spot {other : Path} {spot : Spot} (found : disk.spot other = .ok spot) :
    written.spot other = .ok spot :=
  spot_same writes.cwd (fun _ => writes.dirs) found

theorem Writes.read : written.readText path = .ok text := by
  simp only [Disk.readText, Disk.readBytes, Disk.node, writes.spot writes.spotted, writes.here,
    Bool.false_eq_true, if_false, decode_encoded]

end

theorem writeText_read {disk written : Disk} {path : Path} {text : String}
    (done : disk.writeText path text = .ok written) : written.readText path = .ok text := by
  obtain ⟨_, _, writes⟩ := writeText_writes done
  exact writes.read

theorem readText_place {disk : Disk} {path : Path} {text : String}
    (read : disk.readText path = .ok text) :
    ∃ names content, disk.spot path = .ok ⟨names, false⟩ ∧ fileAt disk.root names = some content ∧
      Disk.decode content = .ok text := by
  simp only [Disk.readText, Disk.readBytes, Disk.node] at read
  cases found : disk.spot path with
  | error fault => simp [found] at read
  | ok spot =>
    obtain ⟨names, asDir⟩ := spot
    simp only [found] at read
    cases here : disk.root.get? names with
    | none => simp [here] at read
    | some node =>
      cases node with
      | dir => simp [here] at read
      | file content =>
        cases asDir with
        | true => simp [here] at read
        | false => exact ⟨names, content, rfl, fileAt_iff.mpr here, by simpa [here] using read⟩

/-- A file that can be read can be written. -/
theorem writeText_readable {disk : Disk} {path : Path} {source : String}
    (read : disk.readText path = .ok source) (text : String) :
    ∃ written, disk.writeText path text = .ok written := by
  obtain ⟨names, content, found, here, _⟩ := readText_place read
  refine ⟨{ disk with root := (Node.file text.toUTF8).put names disk.root }, ?_⟩
  simp only [Disk.writeText, Disk.writeBytes, found, fileAt_iff.mp here,
    Bool.false_eq_true, if_false]

/-- A merge into a file, run on a disk: it fails or has nothing to merge and leaves the disk as it
is, or the file is written with the merged text. -/
theorem mergeFile_cases {path : Path} {model : Class} {disk changed : Disk}
    {outcome : Except Error Outcome}
    (run : (mergeFile path model).run.run disk = (outcome, changed)) :
    (changed = disk ∧ ∃ error, outcome = .error error) ∨
      ∃ source, disk.readText path = .ok source ∧
        ((changed = disk ∧ (∀ fields methods, outcome ≠ .ok (.merged fields methods)) ∧
            ∀ fields methods text, Java.merge source model ≠ .merged fields methods text) ∨
          ∃ fields methods text, Java.merge source model = .merged fields methods text ∧
          disk.writeText path text = .ok changed ∧ outcome = .ok (.merged fields methods)) := by
  cases read : disk.readText path with
  | error fault =>
    rw [mergeFile, run_bind_error (run_ask_error read)] at run
    obtain ⟨rfl, rfl⟩ := Prod.mk.inj run
    exact Or.inl ⟨rfl, _, rfl⟩
  | ok source =>
    rw [mergeFile, run_bind_ok (run_ask_ok read)] at run
    cases merged : Java.merge source model with
    | merged fields methods text =>
      simp only [merged] at run
      cases done : disk.writeText path text with
      | error fault =>
        rw [run_bind_error (run_attempt_error done)] at run
        obtain ⟨rfl, rfl⟩ := Prod.mk.inj run
        exact Or.inl ⟨rfl, _, rfl⟩
      | ok written =>
        rw [run_bind_ok (run_attempt_ok done)] at run
        obtain ⟨rfl, rfl⟩ := Prod.mk.inj run
        exact Or.inr ⟨source, rfl, Or.inr ⟨fields, methods, text, merged, done, rfl⟩⟩
    | _ =>
      simp only [merged] at run
      obtain ⟨rfl, rfl⟩ := Prod.mk.inj run
      exact Or.inr ⟨source, rfl, Or.inl ⟨rfl, fun _ _ => by simp, fun _ _ _ => by simp [merged]⟩⟩

end ClassDiagram.Proofs.FileWrites
