import Lox.Command.Run

/-!
# Paths and their tidy forms

The commands look a file up under the tidy form of its path, and a run opens it under the
path as it was given. The tidy form has the same names and starts in the same place, so
it is followed to the same place. A walk along a path passes empty names and single dots
without moving, so if both paths lead to a file they lead to the same one.
-/

namespace Lox

/-- Does a name in a path say something? -/
def saysSomething (name : String) : Bool :=
  name != "" && name != "."

/-! ## Names -/

theorem splitSlashes_eq_splitOn (cs : List Char) : splitSlashes cs = cs.splitOn '/' := by
  induction cs with
  | nil => rfl
  | cons c cs ih =>
      rw [splitSlashes, ih]
      simp only [List.splitOn, List.splitOnP_cons_eq_if_modifyHead]
      cases hsplit : cs.splitOnP (· == '/') with
      | nil => exact absurd hsplit (List.splitOnP_ne_nil _ _)
      | cons part parts => by_cases hc : c = '/' <;> simp [hc]

theorem slash_notMem_of_mem_splitSlashes {cs part : List Char} (h : part ∈ splitSlashes cs) :
    '/' ∉ part := by
  induction cs generalizing part with
  | nil =>
      rw [splitSlashes, List.mem_singleton] at h
      rw [h]
      exact List.not_mem_nil
  | cons c cs ih =>
      rw [splitSlashes] at h
      cases hsplit : splitSlashes cs with
      | nil =>
          rw [splitSlashes_eq_splitOn] at hsplit
          exact absurd hsplit (List.splitOnP_ne_nil _ _)
      | cons first parts =>
          rw [hsplit] at h ih
          have hfirst := ih List.mem_cons_self
          have hparts : ∀ q ∈ parts, '/' ∉ q := fun q hq => ih (List.mem_cons_of_mem _ hq)
          by_cases hc : c = '/'
          · simp only [hc, if_true] at h
            rcases List.mem_cons.mp h with rfl | h
            · exact List.not_mem_nil
            · exact ih h
          · simp only [hc, if_false] at h
            rcases List.mem_cons.mp h with rfl | h
            · simp [hfirst, Ne.symm hc]
            · exact hparts part h

theorem pathNames_eq (path : String) :
    pathNames path = ((path.toList.splitOn '/').map String.ofList).filter saysSomething := by
  rw [pathNames, splitSlashes_eq_splitOn]
  rfl

/-- A name in a path says something and has no slash. -/
theorem of_mem_pathNames {path name : String} (h : name ∈ pathNames path) :
    saysSomething name = true ∧ '/' ∉ name.toList := by
  obtain ⟨hmem, hname⟩ := List.mem_filter.mp h
  obtain ⟨part, hpart, rfl⟩ := List.mem_map.mp hmem
  refine ⟨hname, ?_⟩
  rw [String.toList_ofList]
  exact slash_notMem_of_mem_splitSlashes hpart

theorem pathNames_slash (path : String) : pathNames ("/" ++ path) = pathNames path := by
  have hsplit : ("/" ++ path).toList.splitOn '/' = [] :: path.toList.splitOn '/' := by
    simp [List.splitOn, List.splitOnP_cons_eq_if_modifyHead]
  rw [pathNames_eq, pathNames_eq, hsplit]
  rfl

theorem pathNames_intercalate {names : List String}
    (h : ∀ name ∈ names, saysSomething name = true ∧ '/' ∉ name.toList) :
    pathNames (String.intercalate "/" names) = names := by
  by_cases hnil : names = []
  · rw [hnil]
    rfl
  · have hsplit : (String.intercalate "/" names).toList.splitOn '/' = names.map String.toList := by
      rw [String.toList_intercalate]
      refine List.splitOn_intercalate '/' (fun part hpart => ?_) (by simpa using hnil)
      obtain ⟨name, hname, rfl⟩ := List.mem_map.mp hpart
      exact (h name hname).2
    rw [pathNames_eq, hsplit, List.map_map]
    have hmap : names.map (String.ofList ∘ String.toList) = names := by
      simp [Function.comp_def]
    rw [hmap]
    exact List.filter_eq_self.mpr fun name hname => (h name hname).1

theorem pathNames_tidyPath (path : String) : pathNames (tidyPath path) = pathNames path := by
  have hnames := @pathNames_intercalate (pathNames path) fun _ => of_mem_pathNames
  simp only [tidyPath]
  split
  · rw [show "//" ++ String.intercalate "/" (pathNames path) =
      "/" ++ ("/" ++ String.intercalate "/" (pathNames path)) by rw [← String.append_assoc]; rfl]
    rw [pathNames_slash, pathNames_slash, hnames]
  · split
    · rw [pathNames_slash, hnames]
    · split
      · next hempty =>
          rw [hempty] at hnames
          exact hnames
      · exact hnames

/-! ## Where a path starts -/

theorem isAbsolute_of_isDoubleRooted {path : String} (h : isDoubleRooted path = true) :
    isAbsolute path = true := by
  rw [isDoubleRooted] at h
  rw [isAbsolute]
  split at h
  · cases h
  · next hcs => simp [hcs]
  · cases h

theorem isAbsolute_tidyPath (path : String) : isAbsolute (tidyPath path) = isAbsolute path := by
  simp only [tidyPath]
  split
  · next hdoubled =>
      rw [isAbsolute_of_isDoubleRooted hdoubled]
      simp [isAbsolute]
  · split
    · next habsolute =>
        rw [habsolute]
        simp [isAbsolute]
    · next habsolute =>
        rw [Bool.not_eq_true] at habsolute
        rw [habsolute]
        split
        · rfl
        · -- The first name neither is empty nor begins with a slash.
          cases hnames : pathNames path with
          | nil => rfl
          | cons name rest =>
              obtain ⟨hspoken, hslash⟩ := of_mem_pathNames (hnames ▸ List.mem_cons_self)
              cases hname : name.toList with
              | nil =>
                  have : name = "" := String.toList_inj.mp hname
                  rw [this] at hspoken
                  cases hspoken
              | cons c cs =>
                  rw [hname] at hslash
                  have hc : c ≠ '/' := fun hc => hslash (hc ▸ List.mem_cons_self)
                  cases rest <;> simp [isAbsolute, hname, hc]

/-- A path and its tidy form lead to the same names. Below which root they are differs
only if two slashes are written somewhere. -/
theorem follow_tidyPath {base : AbsPath} {path : String} (hbase : base.doubled = false)
    (hpath : isDoubleRooted path = false) :
    (base.follow (tidyPath path)).parent.single = (base.follow path).parent := by
  have hdoubled : (base.follow path).doubled = false := by
    simp [AbsPath.follow, hbase, hpath]
  have hnames : (base.follow (tidyPath path)).names = (base.follow path).names := by
    rw [AbsPath.follow, AbsPath.follow, pathNames_tidyPath, isAbsolute_tidyPath]
  rw [AbsPath.parent, AbsPath.parent, AbsPath.single, hnames, hdoubled]

/-! ## Walks -/

namespace Files

variable {f : Files}

/-- Where a walk finds a file, the walk along the names that say something finds it. -/
theorem walk_filter {here names : List String} {bytes : List UInt8}
    (h : f.walk here names = .ok bytes) :
    f.walk here (names.filter saysSomething) = .ok bytes := by
  induction names generalizing here with
  | nil => exact h
  | cons name rest ih =>
      rw [walk] at h
      cases hentry : f.entry here.reverse with
      | file _ | denied _ | missing =>
          rw [hentry] at h
          cases h
      | directory =>
          rw [hentry] at h
          dsimp only at h
          by_cases hblank : name = "" ∨ name = "."
          · rw [if_pos hblank] at h
            rw [List.filter_cons_of_neg (by rcases hblank with rfl | rfl <;> decide)]
            exact ih h
          · rw [if_neg hblank] at h
            rw [List.filter_cons_of_pos (by simpa [saysSomething] using hblank), walk, hentry]
            dsimp only
            rw [if_neg hblank]
            by_cases hup : name = ".."
            · rw [if_pos hup] at h ⊢
              exact ih h
            · rw [if_neg hup] at h ⊢
              exact ih h

theorem openFile_walk {path : String} {bytes : List UInt8} (h : f.openFile path = .ok bytes) :
    f.walk (if isAbsolute path then [] else f.working.names.reverse) (pathNames path) =
      .ok bytes := by
  rw [openFile] at h
  split at h
  · cases h
  · split at h
    · cases h
    · exact walk_filter h

/-- What is read under a path is what is read under its tidy form, if both can be
read. -/
theorem read_tidyPath {path text tidy : String} (h : f.read path = .ok text)
    (htidy : f.read (tidyPath path) = .ok tidy) : text = tidy := by
  rw [read] at h htidy
  cases hopen : f.openFile path with
  | error fault =>
      rw [hopen] at h
      cases h
  | ok bytes =>
      cases hopen' : f.openFile (tidyPath path) with
      | error fault =>
          rw [hopen'] at htidy
          cases htidy
      | ok bytes' =>
          have hwalk := openFile_walk hopen
          have hwalk' := openFile_walk hopen'
          rw [pathNames_tidyPath, isAbsolute_tidyPath, hwalk] at hwalk'
          rw [hopen] at h
          rw [hopen', ← Except.ok.inj hwalk', h] at htidy
          exact Except.ok.inj htidy

end Files
end Lox
