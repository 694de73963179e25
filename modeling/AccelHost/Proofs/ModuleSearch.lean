import AccelHost.Proofs.OptionGrammar
import AccelHost.Launcher.Options
import Mathlib.Data.Prod.Lex

/-!
Which file a unit is loaded from. The candidates are numbered by directory and, within one, by file
name; the search ends at the first regular file in this order, so directories that are added at the
end change nothing that was found before.
-/
namespace AccelHost.SearchPath

variable {p : SearchPath} {dirs : List String} {isFile : String → Bool} {identifier file : String}

/-! ### The order of the candidates -/

/-- An identifier that is the path of its file: with a separator, behind a drive, or with the
ending of a library. -/
def NamesFile (identifier : String) : Prop :=
  '/' ∈ identifier.toList ∨
    (∃ drive path, UnitOption.Drive drive ∧ identifier.toList = drive ++ path) ∨
    ".so".toList <:+ identifier.toList

/-- The file names of an identifier, numbered in the order in which they are tried. -/
inductive NameAt (identifier : String) : Nat → String → Prop where
  | architecture : NameAt identifier 0 (identifier ++ "_x86-64.so")
  | plain : NameAt identifier 1 (identifier ++ ".so")
  | prefixed (h : ¬ "lib".toList <+: identifier.toList) :
    NameAt identifier 2 ("lib" ++ identifier ++ ".so")

/-- A file that may hold a unit, at the number of its directory and of its name. -/
inductive CandidateAt (dirs : List String) (identifier : String) : Nat × Nat → String → Prop where
  | itself (h : NamesFile identifier) : CandidateAt dirs identifier (0, 0) identifier
  | searched {i j : Nat} {dir name : String} (h : ¬ NamesFile identifier)
    (hd : dirs[i]? = some dir) (hn : NameAt identifier j name) :
    CandidateAt dirs identifier (i, j) (inDir dir name)

/-- A regular file among the candidates such that no candidate before it is one, where those of an
earlier directory come first. -/
structure FirstAt (dirs : List String) (isFile : String → Bool) (identifier : String)
    (place : Nat × Nat) (file : String) : Prop where
  candidate : CandidateAt dirs identifier place file
  regular : isFile file = true
  first : ∀ place' file', CandidateAt dirs identifier place' file' →
    toLex place' < toLex place → isFile file' = false

theorem isPath_iff : isPath identifier = true ↔ NamesFile identifier := by
  have hdrive : (UnitOption.afterDrive? identifier.toList).isSome = true ↔
      ∃ drive path, UnitOption.Drive drive ∧ identifier.toList = drive ++ path := by
    rw [Option.isSome_iff_exists, exists_comm]
    simp only [UnitOption.afterDrive?_eq_some_iff]
  rw [isPath, Bool.or_eq_true, Bool.or_eq_true, hdrive, List.contains_iff_mem,
    List.isSuffixOf_iff_suffix, or_assoc]
  rfl

theorem getElem?_fileNames_iff {j : Nat} {name : String} :
    (fileNames identifier)[j]? = some name ↔ NameAt identifier j name := by
  have harch : identifier ++ "_" ++ architecture ++ librarySuffix = identifier ++ "_x86-64.so" := by
    rw [String.append_assoc, String.append_assoc]
    rfl
  have hprefix : libraryPrefix.toList.isPrefixOf identifier.toList = true ↔
      "lib".toList <+: identifier.toList := List.isPrefixOf_iff_prefix
  constructor
  · intro h
    unfold fileNames at h
    rw [harch] at h
    match j with
    | 0 => cases h; exact .architecture
    | 1 => cases h; exact .plain
    | j + 2 =>
      split at h
      · simp at h
      · rename_i hlib
        cases j with
        | zero => cases h; exact .prefixed (mt hprefix.2 hlib)
        | succ j => simp at h
  · rintro (_ | _ | hlib)
    · simp [fileNames, harch]
    · simp [fileNames, librarySuffix]
    · rw [fileNames, if_neg (mt hprefix.1 hlib)]
      rfl

theorem CandidateAt.eq {place : Nat × Nat} {file' : String}
    (h : CandidateAt dirs identifier place file) (h' : CandidateAt dirs identifier place file') :
    file = file' := by
  cases h with
  | itself hpath =>
    cases h' with
    | itself _ => rfl
    | searched hsearch _ _ => exact absurd hpath hsearch
  | searched hsearch hd hn =>
    cases h' with
    | itself hpath => exact absurd hpath hsearch
    | searched _ hd' hn' =>
      obtain rfl := Option.some.inj (hd.symm.trans hd')
      rw [Option.some.inj ((getElem?_fileNames_iff.2 hn).symm.trans (getElem?_fileNames_iff.2 hn'))]

theorem mem_candidates_iff :
    file ∈ p.candidates identifier ↔ ∃ place, CandidateAt p.dirs identifier place file := by
  unfold candidates
  split
  · rename_i hpath
    rw [List.mem_singleton]
    constructor
    · rintro rfl
      exact ⟨_, .itself (isPath_iff.1 hpath)⟩
    · rintro ⟨_, _ | hsearch⟩
      · rfl
      · exact absurd (isPath_iff.1 hpath) hsearch
  · rename_i hsearch
    simp only [List.mem_flatMap, List.mem_map]
    constructor
    · rintro ⟨dir, hdir, name, hname, rfl⟩
      obtain ⟨i, hi⟩ := List.mem_iff_getElem?.1 hdir
      obtain ⟨j, hj⟩ := List.mem_iff_getElem?.1 hname
      exact ⟨(i, j), .searched (mt isPath_iff.2 hsearch) hi (getElem?_fileNames_iff.1 hj)⟩
    · rintro ⟨_, hpath | @⟨i, j, dir, name, _, hd, hn⟩⟩
      · exact absurd (isPath_iff.2 hpath) hsearch
      · exact ⟨dir, List.mem_of_getElem? hd, name,
          List.mem_of_getElem? (getElem?_fileNames_iff.2 hn), rfl⟩

/-! ### The search -/

/-- Of two places one is before the other, so at most one candidate is the first regular file. -/
theorem FirstAt.eq {place place' : Nat × Nat} {file' : String}
    (h : FirstAt dirs isFile identifier place file)
    (h' : FirstAt dirs isFile identifier place' file') : file = file' := by
  rcases lt_trichotomy (toLex place) (toLex place') with hlt | heq | hgt
  · exact absurd h.regular (by simp [h'.first place file h.candidate hlt])
  · obtain rfl := toLex.injective heq
    exact h.candidate.eq h'.candidate
  · exact absurd h'.regular (by simp [h.first place' file' h'.candidate hgt])

/-- What is found is the first regular file: the directories before it hold no candidate that is
one, and its own directory none under an earlier name. -/
theorem firstAt_of_resolve (h : p.resolve isFile identifier = .ok file) :
    ∃ place, FirstAt p.dirs isFile identifier place file := by
  rw [resolve_eq_ok_iff] at h
  have hregular := List.find?_some h
  by_cases hpath : isPath identifier = true
  · simp only [candidates, if_pos hpath, List.find?_singleton] at h
    split at h
    · cases h
      refine ⟨(0, 0), .itself (isPath_iff.1 hpath), hregular, ?_⟩
      rintro _ _ (_ | _) hbefore
      · exact absurd hbefore (lt_irrefl _)
      · simp_all [isPath_iff]
    · cases h
  · rw [candidates, if_neg hpath, List.find?_flatMap, List.findSome?_eq_some_iff] at h
    obtain ⟨before, dir, after, hdirs, hfile, hnone⟩ := h
    rw [List.find?_map, Option.map_eq_some_iff] at hfile
    obtain ⟨name, hname, rfl⟩ := hfile
    obtain ⟨-, j, hj, hget, hearlier⟩ := List.find?_eq_some_iff_getElem.1 hname
    have hdir : p.dirs[before.length]? = some dir := by simp [hdirs]
    have hname := getElem?_fileNames_iff.1 (List.getElem?_eq_some_iff.2 ⟨hj, hget⟩)
    refine ⟨(before.length, j), .searched (mt isPath_iff.2 hpath) hdir hname, hregular, ?_⟩
    rintro _ _ (hp | @⟨i', j', dir', name', _, hd', hn'⟩) hbefore
    · exact absurd (isPath_iff.2 hp) hpath
    · have hn' := getElem?_fileNames_iff.2 hn'
      rcases Prod.Lex.toLex_lt_toLex.1 hbefore with hi | ⟨rfl, hlt⟩
      · rw [hdirs, List.getElem?_append_left hi] at hd'
        have hall := hnone dir' (List.mem_of_getElem? hd')
        rw [List.find?_map, Option.map_eq_none_iff, List.find?_eq_none] at hall
        simpa using hall name' (List.mem_of_getElem? hn')
      · obtain rfl := Option.some.inj (hdir.symm.trans hd')
        obtain ⟨hj', rfl⟩ := List.getElem?_eq_some_iff.1 hn'
        simpa using hearlier j' hlt

theorem resolve_eq_error_iff :
    (∃ fault, p.resolve isFile identifier = .error fault) ↔
      ∀ place file, CandidateAt p.dirs identifier place file → isFile file = false := by
  have hnone : (∃ fault, p.resolve isFile identifier = .error fault) ↔
      (p.candidates identifier).find? isFile = none := by
    unfold resolve
    cases (p.candidates identifier).find? isFile <;> simp
  rw [hnone, List.find?_eq_none]
  simp only [mem_candidates_iff, Bool.not_eq_true]
  exact ⟨fun h place file hc => h file ⟨place, hc⟩, fun h file ⟨place, hc⟩ => h place file hc⟩

theorem resolve_eq_ok_iff_firstAt :
    p.resolve isFile identifier = .ok file ↔
      ∃ place, FirstAt p.dirs isFile identifier place file := by
  refine ⟨firstAt_of_resolve, fun ⟨place, h⟩ => ?_⟩
  cases hr : p.resolve isFile identifier with
  | ok file' =>
    obtain ⟨place', h'⟩ := firstAt_of_resolve hr
    rw [h'.eq h]
  | error fault =>
    have hregular := resolve_eq_error_iff.1 ⟨fault, hr⟩ place file h.candidate
    rw [h.regular] at hregular
    cases hregular

/-! ### More directories -/

theorem resolve_push (h : p.resolve isFile identifier = .ok file) (dir : String) :
    (p.push dir).resolve isFile identifier = .ok file := by
  rw [resolve_eq_ok_iff] at h ⊢
  rw [candidates_push, List.find?_append, h, Option.some_or]

theorem resolve_foldl_push (h : p.resolve isFile identifier = .ok file) (more : List String) :
    (more.foldl push p).resolve isFile identifier = .ok file := by
  induction more generalizing p with
  | nil => exact h
  | cons dir more ih => exact ih (resolve_push h dir)

theorem foldl_push (p : SearchPath) (more : List String) :
    more.foldl push p = ⟨p.dirs ++ more⟩ := by
  induction more generalizing p with
  | nil => simp
  | cons dir more ih => rw [List.foldl_cons, ih, push, List.append_assoc, List.singleton_append]

theorem resolve_settings {o : CommandLine.Options}
    (h : (⟨o.searchPath⟩ : SearchPath).resolve isFile identifier = .ok file)
    (environment : SearchPath) :
    (o.settings environment).searchPath.resolve isFile identifier = .ok file := by
  have hpush : (o.settings environment).searchPath = environment.dirs.foldl push ⟨o.searchPath⟩ :=
    (foldl_push ⟨o.searchPath⟩ environment.dirs).symm
  rw [hpush]
  exact resolve_foldl_push h environment.dirs

/-- Options that differ behind the first `?` only name one identifier. -/
theorem identifier_eq {text text' : String} {u u' : UnitOption} {name : List Char}
    {raw raw' : Option (List Char)} (h : UnitOption.parse text = .ok u)
    (h' : UnitOption.parse text' = .ok u') (hs : UnitOption.Sections text.toList name raw)
    (hs' : UnitOption.Sections text'.toList name raw') : u.identifier = u'.identifier := by
  obtain ⟨-, hu, -⟩ := UnitOption.parse_eq_ok_iff.1 h
  obtain ⟨-, hu', -⟩ := UnitOption.parse_eq_ok_iff.1 h'
  have hfst := (UnitOption.splitOption_eq_iff.2 hu).symm.trans (UnitOption.splitOption_eq_iff.2 hs)
  have hfst' :=
    (UnitOption.splitOption_eq_iff.2 hu').symm.trans (UnitOption.splitOption_eq_iff.2 hs')
  rw [← String.toList_inj, (Prod.mk.inj hfst).1, (Prod.mk.inj hfst').1]

/-- A unit is loaded from the first regular file among its candidates, directory by directory, and
an identifier that is a path has itself as the only one. Nothing is found exactly if no candidate is
a regular file. What is found stays when directories are added at the end, as those of the
environment are, or when other parameters are given. -/
theorem resolve_first_match (p : SearchPath) (isFile : String → Bool) :
    (∀ identifier file, p.resolve isFile identifier = .ok file ↔
      ∃ place, FirstAt p.dirs isFile identifier place file) ∧
    (∀ identifier, (∃ fault, p.resolve isFile identifier = .error fault) ↔
      ∀ place file, CandidateAt p.dirs identifier place file → isFile file = false) ∧
    (∀ identifier, NamesFile identifier → ∀ file, p.resolve isFile identifier = .ok file ↔
      file = identifier ∧ isFile identifier = true) ∧
    (∀ (o : CommandLine.Options) (environment : SearchPath) identifier file,
      (⟨o.searchPath⟩ : SearchPath).resolve isFile identifier = .ok file →
        (o.settings environment).searchPath.resolve isFile identifier = .ok file) ∧
    ∀ (text text' : String) (u u' : UnitOption) name raw raw',
      UnitOption.Sections text.toList name raw → UnitOption.Sections text'.toList name raw' →
      UnitOption.parse text = .ok u → UnitOption.parse text' = .ok u' →
      ∀ file, p.resolve isFile u.identifier = .ok file →
        ∀ more : List String, (more.foldl push p).resolve isFile u'.identifier = .ok file := by
  refine ⟨fun _ _ => resolve_eq_ok_iff_firstAt, fun _ => resolve_eq_error_iff, ?_,
    fun o environment _ _ h => resolve_settings h environment, ?_⟩
  · intro identifier hpath file
    rw [resolve_eq_ok_iff, candidates, if_pos (isPath_iff.2 hpath), List.find?_singleton]
    cases isFile identifier <;> simp [eq_comm]
  · intro text text' u u' name raw raw' hs hs' h h' file hfile more
    rw [← identifier_eq h h' hs hs']
    exact resolve_foldl_push hfile more

/-- An earlier directory wins over an earlier name, and a path is not searched for. -/
example :
    let files := ["first/libMath.so", "second/Math_x86-64.so"]
    let path : SearchPath := ⟨["first", "second"]⟩
    path.resolve files.contains "Math" = .ok "first/libMath.so" ∧
      path.resolve files.contains "libMath.so" = .error (.searched ["libMath.so"]) := by
  decide +kernel

end AccelHost.SearchPath
