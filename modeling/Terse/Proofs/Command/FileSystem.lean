import Terse.Command.FileSystem

/-! Writing a file changes that file and nothing else. -/
namespace Terse.FileSystem

variable {fs fs' : FileSystem} {path : String} {here dir p q ns : List String} {name : String}
  {slash : Bool} {bytes : List UInt8}

/-! ### Where a path leads -/

/-- The place of a file, if only a file can be meant and it may have its name. -/
def Target.place? : Target → Option (List String)
  | .entry dir name false => if isLongName name then none else some (dir ++ [name])
  | _ => none

/-- Where the file of a path is, or would be if it were there. -/
def place? (fs : FileSystem) (path : String) : Option (List String) := (fs.target path).place?

/-- The null character is no part of a path. -/
def IsPath (path : String) : Prop := '\x00' ∉ path.toList

instance (path : String) : Decidable (IsPath path) := inferInstanceAs (Decidable (¬ _))

theorem contains_of_isPath (h : IsPath path) : path.contains '\x00' = false := by
  simpa [String.contains_char_eq, IsPath] using h

/-- A path that leads past directories to a name in the last of them is that of a file. -/
theorem place?_of_follow (dir : List String) (name : String) (hnull : IsPath path)
    (hempty : path ≠ "") (hpath : isLongPath path = false) (hlong : isLongName name = false)
    (h : fs.follow (fs.start path) (names path) = .entry dir name false) :
    fs.place? path = some (dir ++ [name]) := by
  simp [place?, target, contains_of_isPath hnull, hempty, hpath, h, Target.place?, hlong]

/-- A path is read if and only if there is a file at its place. -/
theorem read_eq_ok_iff :
    fs.read path = .ok bytes ↔ ∃ p, fs.place? path = some p ∧ fs.contents? p = some bytes := by
  unfold read place?
  cases fs.target path with
  | dir | failed => simp [Target.place?]
  | entry dir name slash =>
    by_cases hlong : isLongName name
    · cases slash <;> simp [Target.place?, hlong]
    · cases slash <;> cases hfile : fs.contents? (dir ++ [name]) <;>
        simp [Target.place?, hlong, hfile]

theorem target_of_place? (h : fs.place? path = some p) :
    ∃ dir name, fs.target path = .entry dir name false ∧ isLongName name = false ∧
      dir ++ [name] = p := by
  unfold place? at h
  cases htarget : fs.target path with
  | dir | failed => simp [htarget, Target.place?] at h
  | entry dir name slash =>
    cases slash with
    | true => simp [htarget, Target.place?] at h
    | false => exact ⟨dir, name, rfl, by simpa [htarget, Target.place?] using h⟩

theorem write_of_place? (h : fs.place? path = some p) (bytes : List UInt8) :
    fs.write path bytes = .ok (fs.put p bytes) := by
  obtain ⟨dir, name, htarget, hlong, rfl⟩ := target_of_place? h
  simp [write, htarget, hlong]

theorem follow_ne_nullInPath : fs.follow here ns ≠ .failed .nullInPath := by
  fun_induction follow fs here ns with
  | case2 _ _ _ _ ih | case3 _ _ _ ih | case4 _ _ _ _ _ _ ih => exact ih
  | case1 | case5 | case6 => simp
  | case7 => split <;> simp

/-- Only a path with the null character is refused for one. -/
theorem read_ne_nullInPath (h : IsPath path) : fs.read path ≠ .error .nullInPath := by
  have htarget : fs.target path ≠ .failed .nullInPath := by
    unfold target
    rw [contains_of_isPath h, if_neg (by decide)]
    split
    · simp
    split
    · simp
    · exact follow_ne_nullInPath
  unfold read
  cases hpath : fs.target path with
  | dir => simp
  | entry dir name slash => grind
  | failed e =>
    rintro ⟨⟩
    exact htarget hpath

/-! ### Directories -/

theorem isDir_iff : fs.isDir p ↔
    p <+: fs.workingDir ∨ (∃ d ∈ fs.dirs, p <+: d) ∨ ∃ f ∈ fs.files, p <+: f.1.dropLast := by
  simp [isDir, or_assoc]

/-- The directories around a directory are there too. -/
theorem isDir_mono (h : q <+: p) (hp : fs.isDir p) : fs.isDir q := by
  rw [isDir_iff] at hp ⊢
  obtain hworking | ⟨d, hd, hpd⟩ | ⟨f, hf, hpf⟩ := hp
  · exact .inl (h.trans hworking)
  · exact .inr (.inl ⟨d, hd, h.trans hpd⟩)
  · exact .inr (.inr ⟨f, hf, h.trans hpf⟩)

theorem isDir_start (fs : FileSystem) (path : String) : fs.isDir (fs.start path) := by
  have hworking : fs.isDir fs.workingDir := isDir_iff.2 (.inl (List.prefix_refl _))
  unfold start
  split
  · exact isDir_mono List.nil_prefix hworking
  · exact hworking

/-- Names are followed from directory to directory. -/
theorem isDir_of_follow (h : fs.follow here ns = .entry dir name slash) (hhere : fs.isDir here) :
    fs.isDir dir := by
  fun_induction follow fs here ns with
  | case1 | case6 | case7 => contradiction
  | case2 here x rest hskip ih => exact ih h hhere
  | case3 here rest hskip ih => exact ih h (isDir_mono (List.dropLast_prefix here) hhere)
  | case4 here x rest hskip hup hdir ih => exact ih h hdir
  | case5 here x rest hskip hup hdir hlast =>
    cases h
    exact hhere

/-- Files are found and made only in directories that are there. -/
theorem isDir_of_target (h : fs.target path = .entry dir name slash) : fs.isDir dir := by
  unfold target at h
  split at h
  · contradiction
  split at h
  · contradiction
  split at h
  · contradiction
  exact isDir_of_follow h (isDir_start fs path)

/-- A file in a directory that is there makes no directory. -/
theorem isDir_put (h : fs.isDir dir) (name : String) (bytes : List UInt8) (q : List String) :
    (fs.put (dir ++ [name]) bytes).isDir q = fs.isDir q := by
  rw [Bool.eq_iff_iff]
  constructor
  · intro hq
    obtain hworking | hdirs | ⟨f, hf, hqf⟩ := isDir_iff.1 hq
    · exact isDir_iff.2 (.inl hworking)
    · exact isDir_iff.2 (.inr (.inl hdirs))
    · obtain rfl | hf := List.mem_cons.1 hf
      · rw [List.dropLast_concat] at hqf
        exact isDir_mono hqf h
      · exact isDir_iff.2 (.inr (.inr ⟨f, (List.mem_filter.1 hf).1, hqf⟩))
  · intro hq
    obtain hworking | hdirs | ⟨f, hf, hqf⟩ := isDir_iff.1 hq
    · exact isDir_iff.2 (.inl hworking)
    · exact isDir_iff.2 (.inr (.inl hdirs))
    · refine isDir_iff.2 (.inr (.inr ?_))
      by_cases hplace : f.1 = dir ++ [name]
      · exact ⟨(dir ++ [name], bytes), List.mem_cons_self, hplace ▸ hqf⟩
      · exact ⟨f, List.mem_cons_of_mem _ (List.mem_filter.2 ⟨hf, by simpa using hplace⟩), hqf⟩

/-! ### One file written -/

/-- The way to a place depends on the directories only. -/
theorem place?_follow_congr (h : ∀ q, fs'.isDir q = fs.isDir q) :
    (fs'.follow here ns).place? = (fs.follow here ns).place? := by
  fun_induction follow fs here ns with
  | case1 => rfl
  | case2 here x rest hskip ih => rw [follow, if_pos hskip, ih]
  | case3 here rest hskip ih => rw [follow, if_neg hskip, if_pos rfl, ih]
  | case4 here x rest hskip hup hdir ih =>
    rw [follow, if_neg hskip, if_neg hup, h, if_pos hdir, ih]
  | case5 here x rest hskip hup hdir hlast =>
    rw [follow, if_neg hskip, if_neg hup, h, if_neg hdir, if_pos hlast]
  | case6 here x rest hskip hup hdir hlast hlong =>
    rw [follow, if_neg hskip, if_neg hup, h, if_neg hdir, if_neg hlast, if_pos hlong]
  | case7 here x rest hskip hup hdir hlast hlong =>
    rw [follow, if_neg hskip, if_neg hup, h, if_neg hdir, if_neg hlast, if_neg hlong]
    rfl

/-- Paths lead to the same places if the same directories are there and the working directory is the
same. -/
theorem place?_congr (h : ∀ q, fs'.isDir q = fs.isDir q) (hworking : fs'.workingDir = fs.workingDir)
    (path : String) : fs'.place? path = fs.place? path := by
  have hstart : fs'.start path = fs.start path := by rw [start, hworking, start]
  unfold place? target
  split
  · rfl
  split
  · rfl
  split
  · rfl
  · rw [hstart, place?_follow_congr h]

theorem contents?_put_self (fs : FileSystem) (p : List String) (bytes : List UInt8) :
    (fs.put p bytes).contents? p = some bytes := by
  rw [contents?, put, List.lookup_cons, beq_self_eq_true]

/-- Putting a file in place leaves all others alone. -/
theorem contents?_put_of_ne (hq : q ≠ p) : (fs.put p bytes).contents? q = fs.contents? q := by
  have hkept (files : List (List String × List UInt8)) :
      (files.filter (·.1 ≠ p)).lookup q = files.lookup q := by
    induction files with
    | nil => rfl
    | cons f files ih =>
      by_cases hf : f.1 = p
      · rw [List.filter_cons_of_neg (by simpa using hf), ih, List.lookup_cons,
          beq_eq_false_iff_ne.2 (hf ▸ hq)]
      · rw [List.filter_cons_of_pos (by simpa using hf), List.lookup_cons, List.lookup_cons, ih]
  rw [contents?, put, List.lookup_cons, beq_eq_false_iff_ne.2 hq]
  exact hkept fs.files

/-- `fs'` has the file of a path with these contents, and is as `fs` in all other files and in its
directories. -/
structure Saved (fs : FileSystem) (path : String) (bytes : List UInt8) (fs' : FileSystem) :
    Prop where
  read_self : fs'.read path = .ok bytes
  read_other : ∀ other, fs.place? other ≠ fs.place? path →
    ∀ contents, fs'.read other = .ok contents ↔ fs.read other = .ok contents
  isDir_eq : ∀ p, fs'.isDir p = fs.isDir p
  workingDir_eq : fs'.workingDir = fs.workingDir

/-- A file that was put where the path leads is saved there. -/
theorem saved_put (h : fs.place? path = some p) (bytes : List UInt8) :
    fs.Saved path bytes (fs.put p bytes) := by
  have hdirs (q : List String) : (fs.put p bytes).isDir q = fs.isDir q := by
    obtain ⟨dir, name, htarget, -, rfl⟩ := target_of_place? h
    exact isDir_put (isDir_of_target htarget) name bytes q
  refine ⟨?_, fun other hother contents => ?_, hdirs, rfl⟩
  · rw [read_eq_ok_iff, place?_congr hdirs rfl]
    exact ⟨p, h, contents?_put_self fs p bytes⟩
  · rw [read_eq_ok_iff, read_eq_ok_iff, place?_congr hdirs rfl]
    refine exists_congr fun q => and_congr_right fun hq => ?_
    rw [contents?_put_of_ne]
    rintro rfl
    exact hother (hq.trans h.symm)

end Terse.FileSystem
