import AccelHost.Proofs.Carries
import AccelHost.Startup
import AccelHost.RegistryOps

/-!
The language of unit options, said without the reader: which texts name a unit, which lists of
parameters may follow, and that the reader accepts these texts and no others. What it refuses it
reports with the whole option.
-/
namespace AccelHost.UnitOption

open Text

/-! ### The grammar -/

/-- A text before its first `?` and, if it has one, the text after it. -/
inductive Sections : List Char → List Char → Option (List Char) → Prop where
  | bare {identifier : List Char} (h : '?' ∉ identifier) : Sections identifier identifier none
  | params {identifier raw : List Char} (h : '?' ∉ identifier) :
    Sections (identifier ++ '?' :: raw) identifier (some raw)

/-- `X:\` or `X:/` with an ASCII letter. -/
inductive Drive : List Char → Prop where
  | mk {letter sep : Char} (hl : letter.isAlpha = true) (hs : sep = '/' ∨ sep = '\\') :
    Drive [letter, ':', sep]

def Plain (c : Char) : Prop :=
  isBlank c = false ∧ isControl c = false ∧ c ∉ ['?', '=', ':', '\x7b', '\x7d', '$', '%']

/-- The last component of a path is what stands after its last separator. -/
structure Component (path name : List Char) : Prop where
  whole : ∀ c ∈ name, c ≠ '/' ∧ c ≠ '\\'
  last : ∃ before, path = before ++ name ∧ ∀ c, before.getLast? = some c → c = '/' ∨ c = '\\'

/-- A file name, and the same without its library ending. -/
inductive Stem : List Char → List Char → Prop where
  | library {s ending : List Char} (h : ending ∈ [".so".toList, ".dylib".toList, ".dll".toList]) :
    Stem (s ++ ending) s
  | other {s : List Char}
    (h : ∀ ending ∈ [".so".toList, ".dylib".toList, ".dll".toList], ¬ ending <:+ s) : Stem s s

def Number (s : List Char) : Prop := s ≠ [] ∧ ∀ c ∈ s, c.isDigit = true

/-- One number, or two with a dot between them, in at most 64 bytes. -/
def Version (s : List Char) : Prop :=
  byteLength s ≤ 64 ∧
    (Number s ∨ ∃ major minor, Number major ∧ Number minor ∧ s = major ++ '.' :: minor)

/-- A stem, and the feature and the version that it is made of. -/
inductive Feature : List Char → List Char → Option (List Char) → Prop where
  | versioned {feature version : List Char} (hf : feature ≠ []) (hv : Version version) :
    Feature (feature ++ '_' :: version) feature (some version)
  | plain {s : List Char}
    (h : ∀ feature version, s = feature ++ '_' :: version → feature ≠ [] → ¬ Version version) :
    Feature s s none

/-- An identifier, and the feature and the version that it names. -/
structure Names (identifier feature : List Char) (version : Option (List Char)) : Prop where
  nonempty : identifier ≠ []
  short : byteLength identifier ≤ 4096
  plain : ∃ drive path, identifier = drive ++ path ∧ (drive = [] ∨ Drive drive) ∧
    ∀ c ∈ path, Plain c
  derived : ∃ name s, Component identifier name ∧ name ∉ [[], ['.'], ['.', '.']] ∧ Stem name s ∧
    Feature s feature version
  feature : 1 ≤ byteLength feature ∧ byteLength feature ≤ 64

/-- A group of parameters has one `=`, and a key before it. -/
structure Group (group : List Char) (kv : String × String) : Prop where
  written : group = kv.1.toList ++ '=' :: kv.2.toList
  key : kv.1 ≠ ""
  single : '=' ∉ kv.1.toList ∧ '=' ∉ kv.2.toList

/-- A list of parameters, and the keys and values that it writes. -/
structure Params (raw : List Char) (kvs : List (String × String)) : Prop where
  short : 1 ≤ byteLength raw ∧ byteLength raw ≤ 1024
  groups : ∃ g gs, join ':' g gs = raw ∧ (∀ p ∈ g :: gs, ':' ∉ p) ∧ List.Forall₂ Group (g :: gs) kvs

def Documented (text : String) : Prop :=
  ∃ identifier raw, Sections text.toList identifier raw ∧
    (∃ feature version, Names identifier feature version) ∧ ∀ r ∈ raw, ∃ kvs, Params r kvs

/-! ### The reader, part by part -/

theorem splitOption_eq_iff {option identifier : List Char} {raw : Option (List Char)} :
    splitOption option = (identifier, raw) ↔ Sections option identifier raw := by
  constructor
  · intro h
    cases hcut : cut '?' option with
    | none =>
      simp only [splitOption, hcut, Prod.mk.injEq] at h
      obtain ⟨rfl, rfl⟩ := h
      exact .bare (cut_eq_none_iff.1 hcut)
    | some parts =>
      obtain ⟨a, b⟩ := parts
      simp only [splitOption, hcut, Prod.mk.injEq] at h
      obtain ⟨rfl, rfl⟩ := h
      obtain ⟨rfl, ha⟩ := cut_eq_some_iff.1 hcut
      exact .params ha
  · rintro (h | h)
    · rw [splitOption, cut_eq_none_iff.2 h]
    · rw [splitOption, cut_eq_some_iff.2 ⟨rfl, h⟩]

theorem isForbidden_eq_false_iff {c : Char} : isForbidden c = false ↔ Plain c := by
  simp [isForbidden, reserved, Plain, and_assoc]

theorem afterDrive?_eq_some_iff {identifier path : List Char} :
    afterDrive? identifier = some path ↔ ∃ drive, Drive drive ∧ identifier = drive ++ path := by
  constructor
  · intro h
    unfold afterDrive? at h
    split at h
    · rename_i letter sep rest
      split at h
      · rename_i hdrive
        cases h
        simp only [Bool.and_eq_true, isSeparator, Bool.or_eq_true, decide_eq_true_eq] at hdrive
        exact ⟨_, .mk hdrive.1 hdrive.2, rfl⟩
      · cases h
    · cases h
  · rintro ⟨_, ⟨hl, hs⟩, rfl⟩
    simp [afterDrive?, isSeparator, hl, hs]

/-- The characters behind a drive are plain exactly if the identifier is a drive, or nothing, and
plain characters behind it. Without taking a drive away its `:` would be refused. -/
theorem plain_behind_drive_iff {identifier : List Char} :
    (∀ c ∈ (afterDrive? identifier).getD identifier, Plain c) ↔
      ∃ drive path, identifier = drive ++ path ∧ (drive = [] ∨ Drive drive) ∧
        ∀ c ∈ path, Plain c := by
  constructor
  · intro h
    cases hd : afterDrive? identifier with
    | none => exact ⟨[], identifier, rfl, .inl rfl, by simpa [hd] using h⟩
    | some path =>
      obtain ⟨drive, hdrive, rfl⟩ := afterDrive?_eq_some_iff.1 hd
      exact ⟨drive, path, rfl, .inr hdrive, by simpa [hd] using h⟩
  · rintro ⟨drive, path, rfl, rfl | hdrive, hplain⟩
    · cases hd : afterDrive? ([] ++ path) with
      | none => simpa using hplain
      | some rest =>
        obtain ⟨_, ⟨_, _⟩, rfl⟩ := afterDrive?_eq_some_iff.1 hd
        have hcolon := hplain ':' (by simp)
        simp [Plain] at hcolon
    · rw [afterDrive?_eq_some_iff.2 ⟨drive, hdrive, rfl⟩]
      exact hplain

theorem identifierFault?_eq_none_iff {identifier : List Char} :
    identifierFault? identifier = none ↔
      identifier ≠ [] ∧ byteLength identifier ≤ 4096 ∧
        ∃ drive path, identifier = drive ++ path ∧ (drive = [] ∨ Drive drive) ∧
          ∀ c ∈ path, Plain c := by
  rw [← plain_behind_drive_iff]
  unfold identifierFault? maxIdentifier
  split
  · simp_all
  · split
    · rename_i hlong
      simp [Nat.not_le.2 hlong]
    · rename_i hempty hshort
      simp [hempty, Nat.not_lt.1 hshort, isForbidden_eq_false_iff]

theorem fileName_eq_iff {identifier name : List Char} :
    fileName identifier = name ↔ Component identifier name := by
  rw [fileName, afterLast_eq_iff]
  simp only [isSeparator, Bool.or_eq_false_iff, decide_eq_false_iff_not, Bool.or_eq_true,
    decide_eq_true_eq]
  exact ⟨fun h => ⟨h.1, h.2⟩, fun h => ⟨h.whole, h.last⟩⟩

/-- No library ending ends another one: their last letters differ. -/
theorem stripEnding?_libraryEnding {s ending other : List Char} (he : ending ∈ libraryEndings)
    (ho : other ∈ libraryEndings) (hne : ending ≠ other) :
    stripEnding? other (s ++ ending) = none := by
  cases h : stripEnding? other (s ++ ending) with
  | none => rfl
  | some t =>
    have hlast := congrArg List.getLast? (stripEnding?_eq_some_iff.1 h)
    simp only [libraryEndings, List.mem_cons, List.not_mem_nil, or_false] at he ho
    rcases he with rfl | rfl | rfl <;> rcases ho with rfl | rfl | rfl <;> simp_all

theorem stem_eq_iff {name s : List Char} : stem name = s ↔ Stem name s := by
  constructor
  · intro h
    cases hf : libraryEndings.findSome? fun ending => stripEnding? ending name with
    | none =>
      rw [stem, hf, Option.getD_none] at h
      subst h
      refine .other fun ending hending hsuffix => ?_
      obtain ⟨t, ht⟩ := hsuffix
      have hnone := List.findSome?_eq_none_iff.1 hf ending hending
      rw [stripEnding?_eq_some_iff.2 ht.symm] at hnone
      cases hnone
    | some t =>
      rw [stem, hf, Option.getD_some] at h
      subst h
      obtain ⟨ending, hending, hstrip⟩ := List.exists_of_findSome?_eq_some hf
      rw [stripEnding?_eq_some_iff.1 hstrip]
      exact .library hending
  · rintro (@⟨s, ending, hending⟩ | h)
    · have hown : stripEnding? ending (s ++ ending) = some s := stripEnding?_eq_some_iff.2 rfl
      cases hf : libraryEndings.findSome? fun other => stripEnding? other (s ++ ending) with
      | none =>
        have hnone := List.findSome?_eq_none_iff.1 hf ending hending
        rw [hown] at hnone
        cases hnone
      | some t =>
        obtain ⟨other, hother, hstrip⟩ := List.exists_of_findSome?_eq_some hf
        by_cases he : ending = other
        · rw [← he, hown] at hstrip
          rw [stem, hf, Option.getD_some, Option.some.inj hstrip]
        · rw [stripEnding?_libraryEnding hending hother he] at hstrip
          cases hstrip
    · have hnone : libraryEndings.findSome? (fun ending => stripEnding? ending name) = none := by
        refine List.findSome?_eq_none_iff.2 fun ending hending => ?_
        cases hs : stripEnding? ending name with
        | none => rfl
        | some t => exact absurd ⟨t, (stripEnding?_eq_some_iff.1 hs).symm⟩ (h ending hending)
      rw [stem, hnone, Option.getD_none]

/-! ### Feature and version -/

theorem isNumber_iff {s : List Char} : isNumber s = true ↔ Number s := by
  simp [isNumber, Number]

theorem Number.not_mem {s : List Char} (h : Number s) {c : Char} (hc : c.isDigit = false) :
    c ∉ s := by
  intro hmem
  rw [h.2 c hmem] at hc
  cases hc

theorem isVersion_iff {s : List Char} : isVersion s = true ↔ Version s := by
  simp only [isVersion, Bool.and_eq_true, decide_eq_true_eq, Version]
  refine and_congr_right fun _ => ?_
  constructor
  · intro h
    split at h
    · rename_i major hsplit
      obtain ⟨hjoin, -⟩ := split_eq_iff.1 hsplit
      exact .inl (by rw [← hjoin]; exact isNumber_iff.1 h)
    · rename_i major minor hsplit
      obtain ⟨hjoin, -⟩ := split_eq_iff.1 hsplit
      rw [Bool.and_eq_true] at h
      exact .inr ⟨major, minor, isNumber_iff.1 h.1, isNumber_iff.1 h.2, hjoin.symm⟩
    · cases h
  · rintro (h | ⟨major, minor, hmajor, hminor, rfl⟩)
    · have hsplit : split '.' s = [s] := split_of_not_mem (h.not_mem (by decide))
      simpa [hsplit] using isNumber_iff.2 h
    · have hsplit : split '.' (major ++ '.' :: minor) = [major, minor] := by
        rw [split_append, split_of_not_mem (hmajor.not_mem (by decide)),
          split_of_not_mem (hminor.not_mem (by decide)), List.singleton_append]
      simp [hsplit, isNumber_iff.2 hmajor, isNumber_iff.2 hminor]

/-- A version holds no `_`, so what stands before it is all that stands before the last one. -/
theorem Version.not_mem_underscore {s : List Char} (h : Version s) : '_' ∉ s := by
  obtain ⟨-, hnum | ⟨major, minor, hmajor, hminor, rfl⟩⟩ := h
  · exact hnum.not_mem (by decide)
  · have hma := hmajor.not_mem (c := '_') (by decide)
    have hmi := hminor.not_mem (c := '_') (by decide)
    simp [hma, hmi]

theorem splitStem_eq_iff {s feature : List Char} {version : Option (List Char)} :
    splitStem s = (feature, version) ↔ Feature s feature version := by
  constructor
  · intro h
    cases hcut : cutLast '_' s with
    | none =>
      simp only [splitStem, hcut, Prod.mk.injEq] at h
      obtain ⟨rfl, rfl⟩ := h
      refine .plain fun f v hs _ _ => cutLast_eq_none_iff.1 hcut ?_
      simp [hs]
    | some parts =>
      obtain ⟨f, v⟩ := parts
      obtain ⟨rfl, hv⟩ := cutLast_eq_some_iff.1 hcut
      simp only [splitStem, hcut] at h
      split at h
      · rename_i hgood
        cases h
        simp only [Bool.and_eq_true, Bool.not_eq_true', List.isEmpty_eq_false_iff] at hgood
        exact .versioned hgood.1 (isVersion_iff.1 hgood.2)
      · rename_i hbad
        cases h
        refine .plain fun f' v' hs hf' hv' => hbad ?_
        have hlast := cutLast_eq_some_iff.2 ⟨hs, hv'.not_mem_underscore⟩
        rw [hcut, Option.some.injEq, Prod.mk.injEq] at hlast
        obtain ⟨rfl, rfl⟩ := hlast
        simp [hf', isVersion_iff.2 hv']
  · rintro (⟨hf, hv⟩ | h)
    · rw [splitStem, cutLast_eq_some_iff.2 ⟨rfl, hv.not_mem_underscore⟩]
      simp [hf, isVersion_iff.2 hv]
    · cases hcut : cutLast '_' s with
      | none => rw [splitStem, hcut]
      | some parts =>
        obtain ⟨f, v⟩ := parts
        obtain ⟨hs, -⟩ := cutLast_eq_some_iff.1 hcut
        have hbad := h f v hs
        rw [← isVersion_iff] at hbad
        simp only [splitStem, hcut]
        rw [if_neg]
        simpa using hbad

theorem parseFeature_eq_ok_iff {identifier feature : List Char} {version : Option (List Char)} :
    parseFeature identifier = .ok (feature, version) ↔
      (∃ name s, Component identifier name ∧ name ∉ [[], ['.'], ['.', '.']] ∧ Stem name s ∧
        Feature s feature version) ∧ 1 ≤ byteLength feature ∧ byteLength feature ≤ 64 := by
  constructor
  · intro h
    unfold parseFeature at h
    dsimp only at h
    split at h
    · cases h
    · rename_i hname
      split at h
      · cases h
      · rename_i hempty
        split at h
        · cases h
        · rename_i hshort
          cases h
          refine ⟨⟨_, _, fileName_eq_iff.1 rfl, ?_, stem_eq_iff.1 rfl, splitStem_eq_iff.1 rfl⟩,
            byteLength_pos_iff.2 hempty, Nat.not_lt.1 hshort⟩
          simpa using hname
  · rintro ⟨⟨name, s, hcomponent, hname, hstem, hfeature⟩, hpos, hshort⟩
    have hempty := byteLength_pos_iff.1 hpos
    have hlong : ¬ maxFeature < byteLength feature := Nat.not_lt.2 hshort
    simp only [List.mem_cons, List.not_mem_nil, or_false] at hname
    simp [parseFeature, fileName_eq_iff.2 hcomponent, stem_eq_iff.2 hstem,
      splitStem_eq_iff.2 hfeature, hname, hempty, hlong]

/-! ### Parameters -/

theorem parseGroup_eq_ok_iff {group : List Char} {kv : String × String} :
    parseGroup group = .ok kv ↔ Group group kv := by
  constructor
  · intro h
    unfold parseGroup at h
    split at h
    · rename_i key value hsplit
      obtain ⟨hjoin, hfree⟩ := split_eq_iff.1 hsplit
      split at h
      · cases h
      · rename_i hkey
        cases h
        refine ⟨by simpa [join] using hjoin.symm, fun he => hkey (by simpa using he), ?_⟩
        simpa using hfree
    · cases h
  · rintro ⟨hwritten, hkey, hk, hv⟩
    have hsplit : split '=' group = [kv.1.toList, kv.2.toList] := by
      rw [hwritten, split_append, split_of_not_mem hk, split_of_not_mem hv, List.singleton_append]
    simp [parseGroup, hsplit, hkey]

theorem parseGroups_eq_ok_iff {groups : List (List Char)} {kvs : List (String × String)} :
    parseGroups groups = .ok kvs ↔ List.Forall₂ Group groups kvs := by
  induction groups generalizing kvs with
  | nil => simp [parseGroups, eq_comm]
  | cons g gs ih =>
    rw [parseGroups]
    cases kvs with
    | nil =>
      cases parseGroup g with
      | error fault => simp
      | ok kv => cases parseGroups gs <;> simp
    | cons kv rest =>
      rw [List.forall₂_cons, ← parseGroup_eq_ok_iff, ← ih]
      cases parseGroup g with
      | error fault => simp
      | ok first => cases parseGroups gs <;> simp

theorem parseParams_eq_ok_iff {raw : List Char} {params : Keyed String String} :
    parseParams raw = .ok params ↔ ∃ kvs, Params raw kvs ∧ params = table kvs := by
  constructor
  · intro h
    unfold parseParams at h
    split at h
    · cases h
    · rename_i hempty
      split at h
      · cases h
      · rename_i hshort
        cases hgroups : parseGroups (split ':' raw) with
        | error fault =>
          rw [hgroups] at h
          cases h
        | ok kvs =>
          rw [hgroups] at h
          cases h
          have hread := parseGroups_eq_ok_iff.1 hgroups
          obtain ⟨hjoin, hfree⟩ := split_eq_iff.1 (rfl : split ':' raw = _)
          exact ⟨kvs, ⟨⟨byteLength_pos_iff.2 hempty, Nat.not_lt.1 hshort⟩,
            ⟨_, _, hjoin, hfree, hread⟩⟩, rfl⟩
  · rintro ⟨kvs, ⟨⟨hpos, hshort⟩, g, gs, hjoin, hfree, hread⟩, rfl⟩
    have hempty := byteLength_pos_iff.1 hpos
    have hlong : ¬ maxParams < byteLength raw := Nat.not_lt.2 hshort
    rw [parseParams, if_neg hempty, if_neg hlong, split_eq_iff.2 ⟨hjoin, hfree⟩,
      parseGroups_eq_ok_iff.2 hread]
    rfl

/-! ### Whole options -/

/-- What the parameters of an option give: nothing without parameters. -/
def Table : Option (List Char) → Keyed String String → Prop
  | none, params => params = []
  | some raw, params => ∃ kvs, Params raw kvs ∧ params = table kvs

theorem table_iff {raw : Option (List Char)} {params : Keyed String String} :
    (raw.map parseParams).getD (.ok []) = .ok params ↔ Table raw params := by
  cases raw with
  | none => simp [Table, eq_comm]
  | some raw => exact parseParams_eq_ok_iff

/-- An option is read exactly if its sections follow the grammar, and the grammar says what it is
read as. -/
theorem parse_eq_ok_iff {text : String} {u : UnitOption} :
    parse text = .ok u ↔
      u.text = text ∧
        Sections text.toList u.identifier.toList (u.rawParams.map String.toList) ∧
        Names u.identifier.toList u.feature.toList (u.version.map String.toList) ∧
        Table (u.rawParams.map String.toList) u.params := by
  constructor
  · intro h
    cases hs : splitOption text.toList with
    | mk identifier raw =>
      simp only [parse, hs] at h
      split at h
      · cases h
      · rename_i hidentifier
        split at h
        · cases h
        · rename_i feature version hfeature
          split at h
          · cases h
          · rename_i params hparams
            cases h
            obtain ⟨hne, hshort, hplain⟩ := identifierFault?_eq_none_iff.1 hidentifier
            obtain ⟨hderived, hbytes⟩ := parseFeature_eq_ok_iff.1 hfeature
            have hsections := splitOption_eq_iff.1 hs
            have hnames : Names identifier feature version :=
              ⟨hne, hshort, hplain, hderived, hbytes⟩
            have htable := table_iff.1 hparams
            simpa [Function.comp_def] using ⟨hsections, hnames, htable⟩
  · rintro ⟨rfl, hsections, hnames, htable⟩
    have hs := splitOption_eq_iff.2 hsections
    have hidentifier :=
      identifierFault?_eq_none_iff.2 ⟨hnames.nonempty, hnames.short, hnames.plain⟩
    have hfeature := parseFeature_eq_ok_iff.2 ⟨hnames.derived, hnames.feature⟩
    have hparams := table_iff.2 htable
    simp only [parse, hs, hidentifier, hfeature, hparams]
    simp [Function.comp_def]

theorem Feature.toList_displayName {u : UnitOption} {s : List Char}
    (h : Feature s u.feature.toList (u.version.map String.toList)) : u.displayName.toList = s := by
  unfold displayName
  cases hv : u.version with
  | none =>
    rw [hv] at h
    cases h
    rfl
  | some v =>
    rw [hv] at h
    cases h
    simp

/-- The name of a unit is the stem that its feature and its version were read from. -/
theorem feature_displayName {text : String} {u : UnitOption} (h : parse text = .ok u) :
    Feature u.displayName.toList u.feature.toList (u.version.map String.toList) := by
  obtain ⟨-, -, hnames, -⟩ := parse_eq_ok_iff.1 h
  obtain ⟨-, s, -, -, -, hfeature⟩ := hnames.derived
  rwa [hfeature.toList_displayName]

theorem feature_eq_of_displayName_eq {text text' : String} {u u' : UnitOption}
    (h : parse text = .ok u) (h' : parse text' = .ok u') (hname : u.displayName = u'.displayName) :
    u.feature = u'.feature := by
  have hsplit := splitStem_eq_iff.2 (feature_displayName h)
  rw [hname, splitStem_eq_iff.2 (feature_displayName h'), Prod.mk.injEq] at hsplit
  exact (String.toList_inj.1 hsplit.1).symm

theorem parse_isOk_iff {text : String} : (∃ u, parse text = .ok u) ↔ Documented text := by
  constructor
  · rintro ⟨u, h⟩
    obtain ⟨-, hsections, hnames, htable⟩ := parse_eq_ok_iff.1 h
    refine ⟨_, _, hsections, ⟨_, _, hnames⟩, fun raw hraw => ?_⟩
    rw [hraw] at htable
    exact ⟨_, htable.choose_spec.1⟩
  · rintro ⟨identifier, raw, hsections, ⟨feature, version, hnames⟩, hparams⟩
    have htable : ∃ params, Table raw params := by
      cases raw with
      | none => exact ⟨[], rfl⟩
      | some raw =>
        obtain ⟨kvs, hkvs⟩ := hparams raw rfl
        exact ⟨table kvs, kvs, hkvs, rfl⟩
    obtain ⟨params, htable⟩ := htable
    let u : UnitOption :=
      { text, identifier := String.ofList identifier, feature := String.ofList feature,
        version := version.map String.ofList, rawParams := raw.map String.ofList, params }
    refine ⟨u, parse_eq_ok_iff.2 ⟨rfl, ?_⟩⟩
    simpa [u, Function.comp_def] using ⟨hsections, hnames, htable⟩

instance (text : String) : Decidable (Documented text) :=
  decidable_of_iff ((parse text).toOption.isSome = true) <| by
    rw [← parse_isOk_iff]
    cases parse text <;> simp [Except.toOption]

/-- Reserved characters may stand in parameters, and a drive may hold a `:`. -/
example : Documented "C:/lib/libMath_1.2.so?mode=a?b" ∧ ¬ Documented "C:lib?mode=fast" := by
  decide +kernel

/-! ### Lists of options -/

theorem parseAll_append_error {before after : List String} {text : String} {fault : OptionFault}
    (hb : ∀ t ∈ before, Documented t) (hf : parse text = .error fault) :
    Startup.parseAll (before ++ text :: after) = .error (.invalidUnitOption text fault) := by
  induction before with
  | nil => simp [Startup.parseAll, hf]
  | cons t before ih =>
    obtain ⟨u, hu⟩ := parse_isOk_iff.2 (hb t List.mem_cons_self)
    have hrest := ih fun x hx => hb x (List.mem_cons_of_mem t hx)
    simp [Startup.parseAll, hu, hrest]

/-- An option is read exactly if it is of the documented form, as what the grammar says. Any other
is reported whole: when it is the first of a list that is read, and when it is declared alone. -/
theorem parse_accepts_documented (text : String) :
    ((∃ u, parse text = .ok u) ↔ Documented text) ∧
    (∀ u, parse text = .ok u →
      u.text = text ∧
        Sections text.toList u.identifier.toList (u.rawParams.map String.toList) ∧
        Names u.identifier.toList u.feature.toList (u.version.map String.toList)) ∧
    (¬ Documented text → ∃ fault, parse text = .error fault ∧
      (∀ before after, (∀ t ∈ before, Documented t) →
        Startup.parseAll (before ++ text :: after) = .error (.invalidUnitOption text fault)) ∧
      ∀ m, (RegistryOp.perform (.register text)).result m =
        .error (.startup (.invalidUnitOption text fault))) := by
  refine ⟨parse_isOk_iff, fun u h => ?_, fun h => ?_⟩
  · obtain ⟨htext, hsections, hnames, -⟩ := parse_eq_ok_iff.1 h
    exact ⟨htext, hsections, hnames⟩
  · cases hp : parse text with
    | ok u => exact absurd (parse_isOk_iff.1 ⟨u, hp⟩) h
    | error fault =>
      refine ⟨fault, rfl, fun before after hb => parseAll_append_error hb hp, fun m => ?_⟩
      simp [RegistryOp.perform, RegistryOp.declare, hp]

end AccelHost.UnitOption
