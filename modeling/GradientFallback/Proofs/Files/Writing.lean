import GradientFallback.Files.Tree

/-! # Written files

What has been written to a path is read back from it, and every other file is as it was before.  A
path leads through directories only, and those stay where they are when a file is put in.
-/
namespace GradientFallback

theorem textOfBytes_toUTF8 (text : String) : textOfBytes text.toUTF8 = .ok text := by
  have htext : String.fromUTF8? text.toUTF8 = some text := by
    rw [String.fromUTF8?, String.toUTF8_eq_toByteArray, dif_pos text.isValidUTF8]
    rfl
  rw [textOfBytes, htext]

namespace FileTree

/-- A directory, or a place outside of the working directory. -/
def Place.IsOpen : Place → Prop
  | directory _ => True
  | outside _ => True
  | _ => False

/-- The file with the given way, or the room for it. -/
def Place.IsFor (way : List String) : Place → Prop
  | file path _ => path = way
  | vacant path => path = way
  | _ => False

theorem Place.IsFor.not_isOpen {way : List String} {p : Place} (h : p.IsFor way) : ¬p.IsOpen := by
  cases p <;> simp_all [IsFor, IsOpen]

variable {t : FileTree} {way : List String} {content : ByteArray}

/-! ## Single files -/

theorem find?_put (path : List String) :
    (t.put way content).files.find? (fun f => f.path = path) =
      if path = way then some ⟨way, content⟩ else t.files.find? fun f => f.path = path := by
  have hreplace (fs : List File) :
      (fs.map fun f => if f.path = way then ⟨way, content⟩ else f).find? (fun f => f.path = path) =
        if path = way then
          if fs.any fun f => f.path = way then some ⟨way, content⟩ else none
        else fs.find? fun f => f.path = path := by
    induction fs with
    | nil => simp
    | cons f fs ih =>
      rw [List.map_cons, List.find?_cons, ih, List.any_cons, List.find?_cons]
      by_cases hpath : path = way
      · by_cases hf : f.path = way <;> simp [hf, hpath]
      · by_cases hf : f.path = way <;> simp [hf, hpath, Ne.symm hpath]
  rw [put]
  split
  · next hany => rw [hreplace, if_pos hany]
  · next hany =>
    rw [List.find?_append]
    by_cases hpath : path = way
    · have hnone : t.files.find? (fun f => f.path = way) = none := by simpa using hany
      simp [hpath, hnone]
    · simp [hpath, Ne.symm hpath]

theorem exists_put {f : File} (h : f ∈ t.files) :
    ∃ g ∈ (t.put way content).files, g.path = f.path := by
  rw [put]
  split
  · refine ⟨_, List.mem_map_of_mem h, ?_⟩
    split
    · next hf => exact hf.symm
    · rfl
  · exact ⟨f, List.mem_append_left _ h, rfl⟩

/-- Every file with another way stays. -/
theorem filter_put :
    (t.put way content).files.filter (fun f => f.path ≠ way) =
      t.files.filter fun f => f.path ≠ way := by
  have hreplace (fs : List File) :
      (fs.map fun f => if f.path = way then ⟨way, content⟩ else f).filter (fun f => f.path ≠ way) =
        fs.filter fun f => f.path ≠ way := by
    induction fs with
    | nil => rfl
    | cons f fs ih =>
      rw [List.map_cons, List.filter_cons, List.filter_cons, ih]
      by_cases hf : f.path = way <;> simp [hf]
  rw [put]
  split
  · exact hreplace t.files
  · simp

/-! ## Following a path -/

theorem lookup_put_self : (t.put way content).lookup way = .file way content := by
  rw [lookup, find?_put, if_pos rfl]

theorem lookup_isOpen {path : List String} (h : (t.lookup path).IsOpen) :
    t.files.find? (fun f => f.path = path) = none ∧
      (t.files.any fun f => path.isPrefixOf f.path) = true ∧ t.lookup path = .directory path := by
  rw [lookup] at h ⊢
  split at h
  · exact absurd h id
  · next hnone =>
    split at h
    · next hany => exact ⟨hnone, hany, if_pos hany⟩
    · exact absurd h id

theorem lookup_isFor {path : List String} (h : (t.lookup path).IsFor way) : path = way := by
  rw [lookup] at h
  split at h
  · exact h
  · split at h
    · exact absurd h id
    · exact h

theorem lookup_cases (t : FileTree) (path : List String) :
    (t.lookup path).IsOpen ∨ (t.lookup path).IsFor path := by
  rw [lookup]
  split
  · exact .inr rfl
  · split
    · exact .inl trivial
    · exact .inr rfl

/-- A directory stays one when a file is put in elsewhere. -/
theorem lookup_put_of_isOpen {path : List String} (h : (t.lookup path).IsOpen) (hne : path ≠ way) :
    (t.put way content).lookup path = t.lookup path := by
  obtain ⟨hnone, hany, hdirectory⟩ := lookup_isOpen h
  have hstays : ((t.put way content).files.any fun f => path.isPrefixOf f.path) = true := by
    obtain ⟨f, hf, hpath⟩ := List.any_eq_true.1 hany
    obtain ⟨g, hg, hsame⟩ := exists_put hf
    exact List.any_eq_true.2 ⟨g, hg, by rw [hsame]; exact hpath⟩
  rw [hdirectory, lookup, find?_put, if_neg hne, hnone, hstays]
  rfl

/-- A step stays in the open whatever the files are, or enters a directory. -/
theorem step_cases {p : Place} (hp : p.IsOpen) (name : String) :
    (∃ q : Place, q.IsOpen ∧ ∀ t : FileTree, t.step p name = .ok q) ∨
      ∃ path, ∀ t : FileTree, t.step p name = t.enter path name := by
  cases p with
  | file => exact absurd hp id
  | vacant => exact absurd hp id
  | outside path =>
    by_cases hstay : name = "" ∨ name = "."
    · exact .inl ⟨.outside path, trivial, fun t => by rw [step, if_pos hstay]⟩
    · by_cases hup : name = ".."
      · exact .inl ⟨.outside (path ++ [name]), trivial, fun t => by
          rw [step, if_neg hstay, if_pos hup]⟩
      · exact .inr ⟨path, fun t => by rw [step, if_neg hstay, if_neg hup]⟩
  | directory path =>
    by_cases hstay : name = "" ∨ name = "."
    · exact .inl ⟨.directory path, trivial, fun t => by rw [step, if_pos hstay]⟩
    · by_cases hup : name = ".."
      · refine .inl ⟨if path = [] then .outside [name] else .directory path.dropLast, ?_, fun t => by
          rw [step, if_neg hstay, if_pos hup]⟩
        split <;> trivial
      · exact .inr ⟨path, fun t => by rw [step, if_neg hstay, if_neg hup]⟩

/-- Nothing is found behind a file or behind room for one. -/
theorem foldlM_step_closed {p q : Place} (hp : ¬p.IsOpen) {names : List String}
    (h : names.foldlM t.step p = .ok q) : names = [] ∧ q = p := by
  cases names with
  | nil => exact ⟨rfl, (Except.ok.inj h).symm⟩
  | cons name names =>
    rw [List.foldlM_cons] at h
    cases p with
    | file => cases h
    | vacant => cases h
    | directory => exact absurd trivial hp
    | outside => exact absurd trivial hp

/-- Following a path to a file or to the room for it comes to the file that is put in there. -/
theorem foldlM_step_put {p q : Place} (hp : p.IsOpen) {names : List String}
    (h : names.foldlM t.step p = .ok q) (hq : q.IsFor way) :
    q = t.lookup way ∧ names.foldlM (t.put way content).step p = .ok (.file way content) := by
  induction names generalizing p with
  | nil =>
    cases h
    exact absurd hp hq.not_isOpen
  | cons name names ih =>
    rw [List.foldlM_cons] at h ⊢
    rcases step_cases hp name with ⟨r, hr, hstep⟩ | ⟨path, hstep⟩
    · rw [hstep t] at h
      rw [hstep]
      exact ih hr h
    · rw [hstep t, enter] at h
      rw [hstep, enter]
      split at h
      · cases h
      · next hshort =>
        rw [if_neg hshort]
        rcases lookup_cases t (path ++ [name]) with hopen | hfor
        · obtain ⟨hway, hfound⟩ := ih hopen h
          have hne : path ++ [name] ≠ way := by
            rintro hsame
            rw [hsame, ← hway] at hopen
            exact hq.not_isOpen hopen
          refine ⟨hway, ?_⟩
          rw [lookup_put_of_isOpen hopen hne]
          exact hfound
        · obtain ⟨rfl, rfl⟩ := foldlM_step_closed hfor.not_isOpen h
          obtain rfl := lookup_isFor hq
          rw [lookup_put_self]
          exact ⟨rfl, rfl⟩

theorem find_put {path : String} {q : Place} (h : t.find path = .ok q) (hq : q.IsFor way)
    (content : ByteArray) :
    (t.put way content).find path = .ok (.file way content) := by
  rw [find] at h ⊢
  split at h
  · cases h
  · next hempty =>
    split at h
    · cases h
    · next hlong =>
      rw [if_neg hempty, if_neg hlong]
      have hopen : (if path.toList.head? = some '/' then Place.outside ["/"]
          else .directory []).IsOpen := by
        split <;> trivial
      exact (foldlM_step_put hopen h hq).2

/-- What is written is read back, and only the file that it is written to changes. -/
theorem readText_writeText {t' : FileTree} {path text : String}
    (h : t.writeText path text = .ok t') :
    t'.readText path = .ok text ∧ ∃ way, t'.find path = .ok (.file way text.toUTF8) ∧
      t'.files.filter (fun f => f.path ≠ way) = t.files.filter fun f => f.path ≠ way := by
  have hput : ∃ q way, t.find path = .ok q ∧ q.IsFor way ∧ t' = t.put way text.toUTF8 := by
    rw [writeText] at h
    split at h
    · split at h
      · cases h
      · split at h <;> cases h
    · split at h
      · cases h
      · next way _ hfind =>
        cases h
        exact ⟨_, way, hfind, rfl, rfl⟩
      · next way hfind =>
        cases h
        exact ⟨_, way, hfind, rfl, rfl⟩
      · cases h
  obtain ⟨q, way, hfind, hq, rfl⟩ := hput
  have hfound := find_put hfind hq text.toUTF8
  refine ⟨?_, way, hfound, filter_put⟩
  rw [readText, readBytes, hfound]
  exact textOfBytes_toUTF8 text

end FileTree
end GradientFallback
