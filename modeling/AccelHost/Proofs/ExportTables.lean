import AccelHost.Proofs.CheckedEntries
import AccelHost.Proofs.Encoding
import AccelHost.Proofs.HeapSlots
import Mathlib.Data.List.Forall2

/-!
What a unit may export. A table is read exactly if it and all the entries that it counts are in
order, and then every entry is what its raw form stands for, one for one. Else the first thing that
is wrong is told: of the table, or of its first entry that is out of order.
-/
namespace AccelHost

open Text (ForeignText beforeNul utf8)

/-- Native code gives a text: it is there, and up to its NUL it is the encoding of one that is not
empty. -/
def Text.ForeignText.Gives (t : ForeignText) (s : String) : Prop :=
  s ≠ "" ∧ ∃ bytes, t = .bytes bytes ∧ beforeNul bytes = utf8 s

/-- What is wrong with a text that native code gives. -/
inductive Text.ForeignText.Lacks : ForeignText → TextFault → Prop where
  | null : Lacks .null .null
  | notUtf8 {bytes : List UInt8} : (∀ s, beforeNul bytes ≠ utf8 s) → Lacks (.bytes bytes) .notUtf8
  | empty {bytes : List UInt8} : beforeNul bytes = [] → Lacks (.bytes bytes) .empty

/-- The order in which the texts of an entry are checked. -/
def EntryField.rank : EntryField → Nat
  | className => 0
  | methodName => 1
  | descriptor => 2
  | nativeName => 3

/-- The order in which the parts of an entry are checked. -/
def EntryFault.stage : EntryFault → Nat
  | field f _ => f.rank
  | nullFunction _ => 4
  | nullConvention .. | convention .. => 5
  | descriptor .. => 6
  | mismatch .. => 7

namespace RawEntry

variable (raw : RawEntry) (unit : String)

def textAt : EntryField → ForeignText
  | .className => raw.className
  | .methodName => raw.methodName
  | .descriptor => raw.descriptor
  | .nativeName => raw.nativeName

/-- The texts of an entry name a method. -/
structure Replaces (m : Method) : Prop where
  className : raw.className.Gives m.className
  name : raw.methodName.Gives m.name
  descriptor : raw.descriptor.Gives m.descriptor

/-- The tags that an entry counts. It needs no address for none. -/
inductive Counts : List UInt8 → Prop where
  | none : raw.tagCount = 0 → Counts []
  | some {bytes : List UInt8} : raw.tagCount ≠ 0 → raw.tags = .some bytes →
      Counts (bytes.take raw.tagCount)

structure Valid : Prop where
  texts : ∀ f, ∃ s, (raw.textAt f).Gives s
  target : raw.provider ≠ none ∨ raw.func ≠ none
  counted : raw.tagCount ≠ 0
  tags : raw.tags ≠ none
  fits : ∃ tags c text d, raw.Counts tags ∧ Convention.ofTags tags = .ok c ∧
    raw.descriptor.Gives text ∧ Descriptor.parse text = .ok d ∧
    c.params = d.params ∧ c.result = d.result

structure Decodes (e : Entry) : Prop where
  unit : e.unit = unit
  method : raw.Replaces e.method
  nativeName : raw.nativeName.Gives e.nativeName
  target : (∃ p, raw.provider = some p ∧ e.target = .provided p raw.func) ∨
    raw.provider = none ∧ ∃ f, raw.func = some f ∧ e.target = .direct f
  convention : ∃ tags, raw.Counts tags ∧ Convention.ofTags tags = .ok e.convention
  fits : ∃ d, Descriptor.parse e.method.descriptor = .ok d ∧
    e.convention.params = d.params ∧ e.convention.result = d.result
  unregistered : e.owner = none ∧ e.serial = 0

/-- Something is wrong with an entry, whatever else may be. -/
inductive Fails : EntryFault → Prop where
  | field {f : EntryField} {fault : TextFault} : (raw.textAt f).Lacks fault → Fails (.field f fault)
  | nullFunction {m : Method} : raw.Replaces m → raw.provider = none → raw.func = none →
      Fails (.nullFunction m)
  | nullConvention {m : Method} : raw.Replaces m → raw.tagCount ≠ 0 → raw.tags = none →
      Fails (.nullConvention m raw.tagCount)
  | convention {m : Method} {tags : List UInt8} {fault : ConventionFault} : raw.Replaces m →
      raw.Counts tags → Convention.ofTags tags = .error fault → Fails (.convention m fault)
  | descriptor {m : Method} {fault : DescriptorFault} : raw.Replaces m →
      Descriptor.parse m.descriptor = .error fault → Fails (.descriptor m fault)
  | mismatch {m : Method} {tags : List UInt8} {c : Convention} {d : Descriptor}
      {mismatch : Mismatch} : raw.Replaces m → raw.Counts tags → Convention.ofTags tags = .ok c →
      Descriptor.parse m.descriptor = .ok d → c.mismatch? d = some mismatch →
      Fails (.mismatch m mismatch)

def FailsFirst (fault : EntryFault) : Prop :=
  raw.Fails fault ∧ ∀ other, raw.Fails other → fault.stage ≤ other.stage

end RawEntry

namespace ExportTable

/-- The entries that a table counts, as far as they lie in memory. -/
def counted (t : ExportTable) : List RawEntry := (t.entries.getD []).take t.count

structure Valid (t : ExportTable) : Prop where
  version : t.version = 1
  count : t.count ≤ 65536
  entries : t.count ≠ 0 → t.entries ≠ none
  each : ∀ raw ∈ t.counted, raw.Valid

/-- What is told of a table that is not in order. -/
inductive Refuses (unit : String) : Option ExportTable → StartupError → Prop where
  | null : Refuses unit none (.invalidExportTable unit .nullTable)
  | version {t : ExportTable} : t.version ≠ 1 →
      Refuses unit (some t) (.invalidExportTable unit (.version t.version))
  | tooMany {t : ExportTable} : t.version = 1 → 65536 < t.count →
      Refuses unit (some t) (.invalidExportTable unit (.tooMany t.count))
  | nullEntries {t : ExportTable} : t.version = 1 → t.count ≤ 65536 → t.count ≠ 0 →
      t.entries = none → Refuses unit (some t) (.invalidExportTable unit (.nullEntries t.count))
  | entry {t : ExportTable} {before behind : List RawEntry} {raw : RawEntry} {fault : EntryFault} :
      t.version = 1 → t.count ≤ 65536 → t.counted = before ++ raw :: behind →
      (∀ r ∈ before, r.Valid) → raw.FailsFirst fault → (∀ m x, fault ≠ .mismatch m x) →
      Refuses unit (some t) (.invalidExportTable unit (.entry before.length fault))
  | mismatch {t : ExportTable} {before behind : List RawEntry} {raw : RawEntry} {m : Method}
      {fault : Mismatch} :
      t.version = 1 → t.count ≤ 65536 → t.counted = before ++ raw :: behind →
      (∀ r ∈ before, r.Valid) → raw.FailsFirst (.mismatch m fault) →
      Refuses unit (some t) (.conventionMismatch unit m fault)

end ExportTable

/-! ### Texts -/

namespace Text.ForeignText

variable {t : ForeignText} {s s' : String} {fault fault' : TextFault}

theorem Gives.unique (h : t.Gives s) (h' : t.Gives s') : s = s' := by
  obtain ⟨-, bytes, rfl, hs⟩ := h
  obtain ⟨-, bytes', heq, hs'⟩ := h'
  cases heq
  exact utf8_injective (hs.symm.trans hs')

theorem utf8_eq_nil_iff : utf8 s = [] ↔ s = "" := by
  have hempty : utf8 "" = [] := utf8_eq_encode ""
  rw [← hempty, utf8_injective.eq_iff]

theorem Gives.not_lacks (h : t.Gives s) : ¬ t.Lacks fault := by
  obtain ⟨hne, bytes, rfl, hs⟩ := h
  intro hlacks
  cases hlacks with
  | notUtf8 hnone => exact hnone s hs
  | empty hempty => exact hne (utf8_eq_nil_iff.1 (hs.symm.trans hempty))

theorem Lacks.unique (h : t.Lacks fault) (h' : t.Lacks fault') : fault = fault' := by
  cases h with
  | null =>
    cases h'
    rfl
  | notUtf8 hnone =>
    cases h' with
    | notUtf8 => rfl
    | empty hempty => exact absurd (hempty.trans (utf8_eq_nil_iff.2 rfl).symm) (hnone "")
  | empty hempty =>
    cases h' with
    | notUtf8 hnone => exact absurd (hempty.trans (utf8_eq_nil_iff.2 rfl).symm) (hnone "")
    | empty => rfl

theorem gives_or_lacks (t : ForeignText) : (∃ s, t.Gives s) ∨ ∃ fault, t.Lacks fault := by
  cases t with
  | null => exact .inr ⟨_, .null⟩
  | bytes b =>
    by_cases hdecodes : ∃ s, beforeNul b = utf8 s
    · obtain ⟨s, hs⟩ := hdecodes
      by_cases hempty : s = ""
      · have hnil : beforeNul b = [] := hs.trans (utf8_eq_nil_iff.2 hempty)
        exact .inr ⟨_, .empty hnil⟩
      · exact .inl ⟨s, hempty, b, rfl, hs⟩
    · exact .inr ⟨_, .notUtf8 (not_exists.1 hdecodes)⟩

theorem text_of_gives {f : EntryField} (h : t.Gives s) : RawEntry.text f t = .ok s := by
  obtain ⟨hne, bytes, rfl, hs⟩ := h
  have hread : decodeUtf8 (beforeNul bytes) = some s := decodeUtf8_eq_some_iff.2 hs
  simp only [RawEntry.text, hread]

theorem text_of_lacks {f : EntryField} (h : t.Lacks fault) :
    RawEntry.text f t = .error (.field f fault) := by
  cases h with
  | null => rfl
  | @notUtf8 bytes hnone =>
    have hread : decodeUtf8 (beforeNul bytes) = none :=
      Option.eq_none_iff_forall_ne_some.2 fun s hs => hnone s (decodeUtf8_eq_some_iff.1 hs)
    simp only [RawEntry.text, hread]
  | @empty bytes hnil =>
    have hread : decodeUtf8 (beforeNul bytes) = some "" :=
      decodeUtf8_eq_some_iff.2 (hnil.trans (utf8_eq_nil_iff.2 rfl).symm)
    simp only [RawEntry.text, hread]

theorem text_cases (f : EntryField) (t : ForeignText) :
    (∃ s, RawEntry.text f t = .ok s ∧ t.Gives s) ∨
      ∃ fault, RawEntry.text f t = .error (.field f fault) ∧ t.Lacks fault := by
  rcases t.gives_or_lacks with ⟨s, hs⟩ | ⟨fault, hfault⟩
  · exact .inl ⟨s, text_of_gives hs, hs⟩
  · exact .inr ⟨fault, text_of_lacks hfault, hfault⟩

end Text.ForeignText

/-! ### Entries -/

theorem EntryField.rank_injective : Function.Injective rank := by
  intro f f' h
  cases f <;> cases f' <;> first | rfl | cases h

namespace RawEntry

variable {raw : RawEntry} {unit : String} {m m' : Method} {nativeName : String}
  {tags tags' : List UInt8} {fault fault' : EntryFault} {e e' : Entry}

theorem Replaces.unique (h : raw.Replaces m) (h' : raw.Replaces m') : m = m' := by
  obtain ⟨className, name, descriptor⟩ := m
  obtain ⟨className', name', descriptor'⟩ := m'
  obtain rfl : className = className' := h.className.unique h'.className
  obtain rfl : name = name' := h.name.unique h'.name
  obtain rfl : descriptor = descriptor' := h.descriptor.unique h'.descriptor
  rfl

theorem Counts.unique (h : raw.Counts tags) (h' : raw.Counts tags') : tags = tags' := by
  cases h with
  | none hzero =>
    cases h' with
    | none => rfl
    | some hne => exact absurd hzero hne
  | some hne hbytes =>
    cases h' with
    | none hzero => exact absurd hzero hne
    | some _ hbytes' =>
      cases hbytes.symm.trans hbytes'
      rfl

theorem not_counts (hne : raw.tagCount ≠ 0) (hnone : raw.tags = none) : ¬ raw.Counts tags := by
  intro hcounts
  cases hcounts with
  | none hzero => exact hne hzero
  | some _ hbytes => cases hnone.symm.trans hbytes

theorem names_cases (raw : RawEntry) :
    (∃ m nativeName, raw.names = .ok (m, nativeName) ∧ raw.Replaces m ∧
      raw.nativeName.Gives nativeName) ∨
    ∃ f fault, raw.names = .error (.field f fault) ∧ (raw.textAt f).Lacks fault ∧
      ∀ f' : EntryField, f'.rank < f.rank → ∃ s, (raw.textAt f').Gives s := by
  unfold names
  rcases Text.ForeignText.text_cases .className raw.className with
    ⟨className, hclass, hclassGives⟩ | ⟨fault, hclass, hlacks⟩ <;> rw [hclass]
  · rcases Text.ForeignText.text_cases .methodName raw.methodName with
      ⟨name, hname, hnameGives⟩ | ⟨fault, hname, hlacks⟩ <;> simp only [hname]
    · rcases Text.ForeignText.text_cases .descriptor raw.descriptor with
        ⟨descriptor, hdescriptor, hdescriptorGives⟩ | ⟨fault, hdescriptor, hlacks⟩ <;>
        simp only [hdescriptor]
      · rcases Text.ForeignText.text_cases .nativeName raw.nativeName with
          ⟨nativeName, hnative, hnativeGives⟩ | ⟨fault, hnative, hlacks⟩ <;> simp only [hnative]
        · exact .inl ⟨_, _, rfl, ⟨hclassGives, hnameGives, hdescriptorGives⟩, hnativeGives⟩
        · refine .inr ⟨.nativeName, fault, rfl, hlacks, fun f' hlt => ?_⟩
          cases f' with
          | className => exact ⟨_, hclassGives⟩
          | methodName => exact ⟨_, hnameGives⟩
          | descriptor => exact ⟨_, hdescriptorGives⟩
          | nativeName => exact absurd hlt (Nat.lt_irrefl _)
      · refine .inr ⟨.descriptor, fault, rfl, hlacks, fun f' hlt => ?_⟩
        cases f' with
        | className => exact ⟨_, hclassGives⟩
        | methodName => exact ⟨_, hnameGives⟩
        | descriptor | nativeName => exact absurd hlt (by decide)
    · refine .inr ⟨.methodName, fault, rfl, hlacks, fun f' hlt => ?_⟩
      cases f' with
      | className => exact ⟨_, hclassGives⟩
      | methodName | descriptor | nativeName => exact absurd hlt (by decide)
  · exact .inr ⟨.className, fault, rfl, hlacks, fun f' hlt => absurd hlt (Nat.not_lt_zero _)⟩

theorem target?_eq_some_iff {target : NativeTarget} :
    raw.target? = some target ↔
      (∃ p, raw.provider = some p ∧ target = .provided p raw.func) ∨
        raw.provider = none ∧ ∃ f, raw.func = some f ∧ target = .direct f := by
  unfold target?
  cases raw.provider <;> simp [eq_comm]

theorem target?_eq_none_iff : raw.target? = none ↔ raw.provider = none ∧ raw.func = none := by
  unfold target?
  cases raw.provider <;> simp

theorem tags?_eq_some_iff : raw.tags? = some tags ↔ raw.Counts tags := by
  unfold tags?
  constructor
  · intro h
    split at h
    · rename_i hzero
      cases h
      exact .none hzero
    · rename_i hne
      obtain ⟨bytes, hbytes, rfl⟩ := Option.map_eq_some_iff.1 h
      exact .some hne hbytes
  · intro h
    cases h with
    | none hzero => rw [if_pos hzero]
    | some hne hbytes => rw [if_neg hne, hbytes, Option.map_some]

theorem tags?_eq_none_iff : raw.tags? = none ↔ raw.tagCount ≠ 0 ∧ raw.tags = none := by
  unfold tags?
  split <;> simp_all

/-- An entry passes the checks before a stage. -/
structure Passes (raw : RawEntry) (stage : Nat) : Prop where
  texts : ∀ f : EntryField, f.rank < stage → ∃ s, (raw.textAt f).Gives s
  target : 4 < stage → raw.provider ≠ none ∨ raw.func ≠ none
  tags : 5 < stage → ∃ tags c, raw.Counts tags ∧ Convention.ofTags tags = .ok c
  descriptor : 6 < stage → ∃ text d, raw.descriptor.Gives text ∧ Descriptor.parse text = .ok d
  fits : 7 < stage → ∃ tags c text d, raw.Counts tags ∧ Convention.ofTags tags = .ok c ∧
    raw.descriptor.Gives text ∧ Descriptor.parse text = .ok d ∧
    c.params = d.params ∧ c.result = d.result

theorem rank_lt_four (f : EntryField) : f.rank < 4 := by cases f <;> decide

theorem stage_lt_eight (fault : EntryFault) : fault.stage < 8 := by
  cases fault with
  | field f _ => exact Nat.lt_trans (rank_lt_four f) (by decide)
  | _ => simp [EntryFault.stage]

/-- What has passed the checks before a stage fails at none of them. -/
theorem Passes.stage_le {stage : Nat} (hpasses : raw.Passes stage) (h : raw.Fails fault) :
    stage ≤ fault.stage := by
  by_contra hlt
  have hpast : fault.stage < stage := Nat.lt_of_not_le hlt
  cases h with
  | @field f _ hlacks =>
    obtain ⟨s, hs⟩ := hpasses.texts f hpast
    exact hs.not_lacks hlacks
  | nullFunction _ hprovider hfunc =>
    rcases hpasses.target hpast with hp | hf
    · exact hp hprovider
    · exact hf hfunc
  | nullConvention _ hne hnone =>
    obtain ⟨tags, c, hcounts, -⟩ := hpasses.tags hpast
    exact not_counts hne hnone hcounts
  | convention _ hcounts hfault =>
    obtain ⟨tags, c, hcounts', hread⟩ := hpasses.tags hpast
    rw [hcounts.unique hcounts', hread] at hfault
    cases hfault
  | descriptor hm hfault =>
    obtain ⟨text, d, htext, hread⟩ := hpasses.descriptor hpast
    rw [hm.descriptor.unique htext, hread] at hfault
    cases hfault
  | mismatch hm hcounts hread hparse hmismatch =>
    obtain ⟨tags, c, text, d, hcounts', hread', htext, hparse', hagree⟩ := hpasses.fits hpast
    rw [hcounts.unique hcounts', hread'] at hread
    rw [hm.descriptor.unique htext, hparse'] at hparse
    cases hread
    cases hparse
    rw [(Convention.mismatch?_eq_none_iff _).2 hagree] at hmismatch
    cases hmismatch

theorem Passes.rank {f : EntryField}
    (h : ∀ f' : EntryField, f'.rank < f.rank → ∃ s, (raw.textAt f').Gives s) :
    raw.Passes f.rank := by
  have hlt := rank_lt_four f
  exact ⟨h, fun _ => by omega, fun _ => by omega, fun _ => by omega, fun _ => by omega⟩

theorem Passes.four (h : ∀ f, ∃ s, (raw.textAt f).Gives s) : raw.Passes 4 :=
  ⟨fun f _ => h f, nofun, nofun, nofun, nofun⟩

theorem Passes.five (h : raw.Passes 4) (htarget : raw.provider ≠ none ∨ raw.func ≠ none) :
    raw.Passes 5 :=
  ⟨fun f _ => h.texts f (rank_lt_four f), fun _ => htarget, nofun, nofun, nofun⟩

theorem Passes.six (h : raw.Passes 5)
    (htags : ∃ tags c, raw.Counts tags ∧ Convention.ofTags tags = .ok c) : raw.Passes 6 :=
  ⟨fun f _ => h.texts f (Nat.lt_succ_of_lt (rank_lt_four f)), fun _ => h.target (by decide),
    fun _ => htags, nofun, nofun⟩

theorem Passes.seven (h : raw.Passes 6)
    (hparse : ∃ text d, raw.descriptor.Gives text ∧ Descriptor.parse text = .ok d) :
    raw.Passes 7 :=
  ⟨fun f _ => h.texts f (Nat.lt_trans (rank_lt_four f) (by decide)), fun _ => h.target (by decide),
    fun _ => h.tags (by decide), fun _ => hparse, nofun⟩

theorem Valid.passes (h : raw.Valid) : raw.Passes 8 := by
  obtain ⟨tags, c, text, d, hcounts, hread, htext, hparse, hagree⟩ := h.fits
  exact ⟨fun f _ => h.texts f, fun _ => h.target, fun _ => ⟨tags, c, hcounts, hread⟩,
    fun _ => ⟨text, d, htext, hparse⟩,
    fun _ => ⟨tags, c, text, d, hcounts, hread, htext, hparse, hagree⟩⟩

theorem Valid.not_fails (h : raw.Valid) : ¬ raw.Fails fault := by
  intro hfails
  exact absurd (h.passes.stage_le hfails) (Nat.not_le.2 (stage_lt_eight fault))

theorem Decodes.valid (h : raw.Decodes unit e) : raw.Valid := by
  obtain ⟨tags, hcounts, hread⟩ := h.convention
  obtain ⟨d, hparse, hagree⟩ := h.fits
  -- no convention is read from no tags
  have htagged : tags ≠ [] := by
    rintro rfl
    cases hread
  refine ⟨fun f => ?_, ?_, ?_, ?_,
    tags, _, _, d, hcounts, hread, h.method.descriptor, hparse, hagree⟩
  · cases f with
    | className => exact ⟨_, h.method.className⟩
    | methodName => exact ⟨_, h.method.name⟩
    | descriptor => exact ⟨_, h.method.descriptor⟩
    | nativeName => exact ⟨_, h.nativeName⟩
  · rcases h.target with ⟨p, hp, -⟩ | ⟨-, f, hf, -⟩
    · exact .inl (hp ▸ Option.some_ne_none p)
    · exact .inr (hf ▸ Option.some_ne_none f)
  · cases hcounts with
    | none => exact absurd rfl htagged
    | some hne => exact hne
  · cases hcounts with
    | none => exact absurd rfl htagged
    | some _ hbytes => exact hbytes ▸ Option.some_ne_none _

theorem Decodes.unique (h : raw.Decodes unit e) (h' : raw.Decodes unit e') : e = e' := by
  obtain ⟨tags, hcounts, hread⟩ := h.convention
  obtain ⟨tags', hcounts', hread'⟩ := h'.convention
  have hconvention : e.convention = e'.convention := by
    rw [hcounts.unique hcounts', hread'] at hread
    exact (Except.ok.inj hread).symm
  have htarget : e.target = e'.target := by
    have heq := (target?_eq_some_iff.2 h.target).symm.trans (target?_eq_some_iff.2 h'.target)
    exact Option.some.inj heq
  have hunit : e.unit = e'.unit := h.unit.trans h'.unit.symm
  have hmethod := h.method.unique h'.method
  have hnative := h.nativeName.unique h'.nativeName
  obtain ⟨howner, hserial⟩ := h.unregistered
  obtain ⟨howner', hserial'⟩ := h'.unregistered
  cases e
  cases e'
  simp_all only

theorem stage_field_ne {f : EntryField} {textFault : TextFault} {stage : Nat} (h : 4 ≤ stage) :
    (EntryFault.field f textFault).stage ≠ stage :=
  Nat.ne_of_lt (Nat.lt_of_lt_of_le (rank_lt_four f) h)

theorem Fails.unique (h : raw.Fails fault) (h' : raw.Fails fault')
    (hstage : fault.stage = fault'.stage) : fault = fault' := by
  cases h with
  | field hlacks =>
    cases h' with
    | field hlacks' =>
      obtain rfl := EntryField.rank_injective hstage
      rw [hlacks.unique hlacks']
    | _ => exact absurd hstage (stage_field_ne (by simp [EntryFault.stage]))
  | nullFunction hm =>
    cases h' with
    | field => exact absurd hstage.symm (stage_field_ne (by simp [EntryFault.stage]))
    | nullFunction hm' => rw [hm.unique hm']
    | _ => simp [EntryFault.stage] at hstage
  | nullConvention hm hne hnone =>
    cases h' with
    | field => exact absurd hstage.symm (stage_field_ne (by simp [EntryFault.stage]))
    | nullConvention hm' => rw [hm.unique hm']
    | convention _ hcounts => exact absurd hcounts (not_counts hne hnone)
    | _ => simp [EntryFault.stage] at hstage
  | convention hm hcounts hfault =>
    cases h' with
    | field => exact absurd hstage.symm (stage_field_ne (by simp [EntryFault.stage]))
    | nullConvention _ hne hnone => exact absurd hcounts (not_counts hne hnone)
    | convention hm' hcounts' hfault' =>
      rw [hcounts.unique hcounts', hfault'] at hfault
      rw [hm.unique hm', Except.error.inj hfault]
    | _ => simp [EntryFault.stage] at hstage
  | descriptor hm hfault =>
    cases h' with
    | field => exact absurd hstage.symm (stage_field_ne (by simp [EntryFault.stage]))
    | descriptor hm' hfault' =>
      obtain rfl := hm.unique hm'
      rw [Except.error.inj (hfault.symm.trans hfault')]
    | _ => simp [EntryFault.stage] at hstage
  | mismatch hm hcounts hread hparse hmismatch =>
    cases h' with
    | field => exact absurd hstage.symm (stage_field_ne (by simp [EntryFault.stage]))
    | mismatch hm' hcounts' hread' hparse' hmismatch' =>
      obtain rfl := hm.unique hm'
      obtain rfl := hcounts.unique hcounts'
      obtain rfl := Except.ok.inj (hread.symm.trans hread')
      obtain rfl := Except.ok.inj (hparse.symm.trans hparse')
      rw [Option.some.inj (hmismatch.symm.trans hmismatch')]
    | _ => simp [EntryFault.stage] at hstage

theorem FailsFirst.unique (h : raw.FailsFirst fault) (h' : raw.FailsFirst fault') :
    fault = fault' :=
  h.1.unique h'.1 (Nat.le_antisymm (h.2 _ h'.1) (h'.2 _ h.1))

theorem Passes.failsFirst (h : raw.Passes fault.stage) (hfails : raw.Fails fault) :
    raw.FailsFirst fault := ⟨hfails, fun _ hother => h.stage_le hother⟩

/-- An entry is checked to what it stands for, or to the first thing that is wrong with it. -/
theorem check_cases (raw : RawEntry) (unit : String) :
    (∃ e, raw.check unit = .ok e ∧ raw.Decodes unit e) ∨
      ∃ fault, raw.check unit = .error fault ∧ raw.FailsFirst fault := by
  unfold check
  rcases raw.names_cases with
    ⟨m, nativeName, hnames, hm, hnative⟩ | ⟨f, fault, hnames, hlacks, hpast⟩ <;> rw [hnames]
  · have hfour : raw.Passes 4 := Passes.four fun f => by
      cases f with
      | className => exact ⟨_, hm.className⟩
      | methodName => exact ⟨_, hm.name⟩
      | descriptor => exact ⟨_, hm.descriptor⟩
      | nativeName => exact ⟨_, hnative⟩
    cases htarget : raw.target? with
    | none =>
      obtain ⟨hprovider, hfunc⟩ := target?_eq_none_iff.1 htarget
      exact .inr ⟨_, rfl, hfour.failsFirst (.nullFunction hm hprovider hfunc)⟩
    | some target =>
      have hfive : raw.Passes 5 := hfour.five (given_of_target? htarget).symm
      cases htags : raw.tags? with
      | none =>
        obtain ⟨hne, hnone⟩ := tags?_eq_none_iff.1 htags
        exact .inr ⟨_, rfl, hfive.failsFirst (.nullConvention hm hne hnone)⟩
      | some tags =>
        have hcounts := tags?_eq_some_iff.1 htags
        cases hread : Convention.ofTags tags with
        | error fault =>
          exact .inr ⟨_, by simp only [hread], hfive.failsFirst (.convention hm hcounts hread)⟩
        | ok c =>
          have hsix := hfive.six ⟨tags, c, hcounts, hread⟩
          cases hparse : Descriptor.parse m.descriptor with
          | error fault =>
            exact .inr ⟨_, by simp only [hread, hparse],
              hsix.failsFirst (.descriptor hm hparse)⟩
          | ok d =>
            have hseven := hsix.seven ⟨_, d, hm.descriptor, hparse⟩
            cases hmismatch : c.mismatch? d with
            | some fault =>
              exact .inr ⟨_, by simp only [hread, hparse, hmismatch],
                hseven.failsFirst (.mismatch hm hcounts hread hparse hmismatch)⟩
            | none =>
              have hagree := (Convention.mismatch?_eq_none_iff _).1 hmismatch
              refine .inl ⟨{ unit, method := m, nativeName, target, convention := c }, ?_, ?_⟩
              · simp only [hread, hparse, hmismatch]
              · exact ⟨rfl, hm, hnative, target?_eq_some_iff.1 htarget, ⟨tags, hcounts, hread⟩,
                  ⟨d, hparse, hagree⟩, rfl, rfl⟩
  · exact .inr ⟨_, rfl, (Passes.rank hpast).failsFirst (.field hlacks)⟩

theorem check_eq_ok_iff : raw.check unit = .ok e ↔ raw.Decodes unit e := by
  rcases raw.check_cases unit with ⟨e', hcheck, hdecodes⟩ | ⟨fault, hcheck, hfails⟩ <;>
    rw [hcheck]
  · constructor
    · intro h
      cases h
      exact hdecodes
    · intro h
      rw [hdecodes.unique h]
  · exact ⟨nofun, fun h => absurd hfails.1 h.valid.not_fails⟩

theorem check_eq_error_iff : raw.check unit = .error fault ↔ raw.FailsFirst fault := by
  rcases raw.check_cases unit with ⟨e, hcheck, hdecodes⟩ | ⟨fault', hcheck, hfails⟩ <;>
    rw [hcheck]
  · exact ⟨nofun, fun h => absurd h.1 hdecodes.valid.not_fails⟩
  · constructor
    · intro h
      cases h
      exact hfails
    · intro h
      rw [hfails.unique h]

theorem valid_iff (unit : String) : raw.Valid ↔ ∃ e, raw.check unit = .ok e := by
  constructor
  · intro h
    rcases raw.check_cases unit with ⟨e, hcheck, -⟩ | ⟨fault, -, hfails⟩
    · exact ⟨e, hcheck⟩
    · exact absurd hfails.1 h.not_fails
  · rintro ⟨e, hcheck⟩
    exact (check_eq_ok_iff.1 hcheck).valid

end RawEntry

/-! ### Tables -/

namespace ExportTable

variable {unit : String} {index : Nat} {raws : List RawEntry} {es : List Entry} {t : ExportTable}
  {table : Option ExportTable} {err : StartupError}

theorem checkEntries_of_fault {raw : RawEntry} {fault : EntryFault}
    (h : raw.check unit = .error fault) (rest : List RawEntry) :
    checkEntries unit index (raw :: rest) = .error (.ofEntryFault unit index fault) := by
  rw [checkEntries, h]

theorem checkEntries_of_check {raw : RawEntry} {e : Entry} (h : raw.check unit = .ok e)
    (rest : List RawEntry) :
    checkEntries unit index (raw :: rest) = (checkEntries unit (index + 1) rest).map (e :: ·) := by
  rw [checkEntries, h]
  cases checkEntries unit (index + 1) rest <;> rfl

theorem checkEntries_eq_ok_iff :
    checkEntries unit index raws = .ok es ↔
      List.Forall₂ (fun raw e => raw.Decodes unit e) raws es := by
  induction raws generalizing index es with
  | nil =>
    rw [List.forall₂_nil_left_iff, checkEntries, Except.ok.injEq]
    exact eq_comm
  | cons raw rest ih =>
    rw [List.forall₂_cons_left_iff]
    constructor
    · intro h
      cases hraw : raw.check unit with
      | error fault =>
        rw [checkEntries_of_fault hraw] at h
        cases h
      | ok e =>
        rw [checkEntries_of_check hraw] at h
        obtain ⟨es', hrest, rfl⟩ := exists_of_map_eq_ok h
        exact ⟨e, es', RawEntry.check_eq_ok_iff.1 hraw, ih.1 hrest, rfl⟩
    · rintro ⟨e, es', hraw, hrest, rfl⟩
      rw [checkEntries_of_check (RawEntry.check_eq_ok_iff.2 hraw), ih.2 hrest]
      rfl

theorem checkEntries_eq_error_iff :
    checkEntries unit index raws = .error err ↔
      ∃ (before : List RawEntry) (raw : RawEntry) (behind : List RawEntry) (fault : EntryFault),
        raws = before ++ raw :: behind ∧ (∀ r ∈ before, r.Valid) ∧ raw.FailsFirst fault ∧
          err = .ofEntryFault unit (index + before.length) fault := by
  induction raws generalizing index with
  | nil => simp [checkEntries]
  | cons first rest ih =>
    cases hfirst : first.check unit with
    | error fault =>
      have hfails := RawEntry.check_eq_error_iff.1 hfirst
      rw [checkEntries_of_fault hfirst]
      constructor
      · intro h
        cases h
        exact ⟨[], first, rest, fault, rfl, List.forall_mem_nil _, hfails, rfl⟩
      · rintro ⟨before, raw, behind, fault', heq, hbefore, hfault, rfl⟩
        cases before with
        | nil =>
          cases heq
          rw [hfails.unique hfault]
          rfl
        | cons r before =>
          cases heq
          exact absurd hfails.1 (hbefore first List.mem_cons_self).not_fails
    | ok e =>
      have hvalid := (RawEntry.valid_iff unit).2 ⟨e, hfirst⟩
      have hpass : checkEntries unit index (first :: rest) = .error err ↔
          checkEntries unit (index + 1) rest = .error err := by
        rw [checkEntries_of_check hfirst]
        cases checkEntries unit (index + 1) rest <;> simp [Except.map]
      have hshift : ∀ i, index + 1 + i = index + (i + 1) := by omega
      simp only [hpass, ih, hshift]
      constructor
      · rintro ⟨before, raw, behind, fault, rfl, hbefore, hfault, rfl⟩
        exact ⟨first :: before, raw, behind, fault, rfl,
          List.forall_mem_cons.2 ⟨hvalid, hbefore⟩, hfault, rfl⟩
      · rintro ⟨before, raw, behind, fault, heq, hbefore, hfault, rfl⟩
        cases before with
        | nil =>
          cases heq
          exact absurd hfault.1 hvalid.not_fails
        | cons r before =>
          cases heq
          exact ⟨before, raw, behind, fault, rfl, (List.forall_mem_cons.1 hbefore).2, hfault, rfl⟩

theorem read_of_head (hversion : t.version = 1) (hcount : t.count ≤ 65536)
    (hentries : t.count ≠ 0 → t.entries ≠ none) :
    read unit (some t) = checkEntries unit 0 t.counted := by
  have hmax : ¬ maxExportEntries < t.count := Nat.not_lt.2 hcount
  have habi : ¬ t.version ≠ abiVersion := not_not.2 hversion
  rw [read, if_neg habi, if_neg hmax, counted]
  by_cases hzero : t.count = 0
  · rw [if_pos hzero, hzero, List.take_zero, checkEntries]
  · rw [if_neg hzero]
    obtain ⟨raws, hraws⟩ := Option.ne_none_iff_exists'.1 (hentries hzero)
    rw [hraws]
    rfl

theorem head_cases (unit : String) (table : Option ExportTable) :
    (∃ t, table = some t ∧ t.version = 1 ∧ t.count ≤ 65536 ∧ (t.count ≠ 0 → t.entries ≠ none)) ∨
      ∃ err, Refuses unit table err := by
  cases table with
  | none => exact .inr ⟨_, .null⟩
  | some t =>
    by_cases hversion : t.version = 1
    · by_cases hcount : t.count ≤ 65536
      · by_cases hnull : t.count ≠ 0 ∧ t.entries = none
        · exact .inr ⟨_, .nullEntries hversion hcount hnull.1 hnull.2⟩
        · exact .inl ⟨t, rfl, hversion, hcount, fun hzero hnone => hnull ⟨hzero, hnone⟩⟩
      · exact .inr ⟨_, .tooMany hversion (Nat.lt_of_not_le hcount)⟩
    · exact .inr ⟨_, .version hversion⟩

theorem ofEntryFault_of_ne_mismatch {fault : EntryFault} (h : ∀ m x, fault ≠ .mismatch m x) :
    StartupError.ofEntryFault unit index fault = .invalidExportTable unit (.entry index fault) := by
  cases fault with
  | mismatch m x => exact absurd rfl (h m x)
  | _ => rfl

theorem Refuses.of_entry {before behind : List RawEntry} {raw : RawEntry} {fault : EntryFault}
    (hversion : t.version = 1) (hcount : t.count ≤ 65536)
    (heq : t.counted = before ++ raw :: behind) (hbefore : ∀ r ∈ before, r.Valid)
    (hfails : raw.FailsFirst fault) :
    Refuses unit (some t) (.ofEntryFault unit before.length fault) := by
  by_cases hmismatch : ∃ m x, fault = .mismatch m x
  · obtain ⟨m, x, rfl⟩ := hmismatch
    exact .mismatch hversion hcount heq hbefore hfails
  · have hother : ∀ m x, fault ≠ .mismatch m x := fun m x heq => hmismatch ⟨m, x, heq⟩
    rw [ofEntryFault_of_ne_mismatch hother]
    exact .entry hversion hcount heq hbefore hfails hother

theorem read_of_entry {before behind : List RawEntry} {raw : RawEntry} {fault : EntryFault}
    (hversion : t.version = 1) (hcount : t.count ≤ 65536)
    (heq : t.counted = before ++ raw :: behind) (hbefore : ∀ r ∈ before, r.Valid)
    (hfails : raw.FailsFirst fault) :
    read unit (some t) = .error (.ofEntryFault unit before.length fault) := by
  have hentries : t.entries ≠ none := by
    intro hnone
    rw [counted, hnone, Option.getD_none, List.take_nil] at heq
    exact absurd heq.symm (by simp)
  rw [read_of_head hversion hcount fun _ => hentries]
  exact checkEntries_eq_error_iff.2
    ⟨before, raw, behind, fault, heq, hbefore, hfails, by rw [Nat.zero_add]⟩

theorem Refuses.read_eq (h : Refuses unit table err) : read unit table = .error err := by
  have hpast {t : ExportTable} (hversion : t.version = 1) : ¬ t.version ≠ abiVersion :=
    not_not.2 hversion
  have hfew {t : ExportTable} (hcount : t.count ≤ 65536) : ¬ maxExportEntries < t.count :=
    Nat.not_lt.2 hcount
  cases h with
  | null => rfl
  | version hversion => exact if_pos hversion
  | tooMany hversion hcount => exact (if_neg (hpast hversion)).trans (if_pos hcount)
  | nullEntries hversion hcount hzero hnone =>
    rw [read, if_neg (hpast hversion), if_neg (hfew hcount), if_neg hzero, hnone]
  | entry hversion hcount heq hbefore hfails hother =>
    rw [read_of_entry hversion hcount heq hbefore hfails, ofEntryFault_of_ne_mismatch hother]
  | mismatch hversion hcount heq hbefore hfails =>
    exact read_of_entry hversion hcount heq hbefore hfails

theorem read_eq_error_iff : read unit table = .error err ↔ Refuses unit table err := by
  refine ⟨fun h => ?_, Refuses.read_eq⟩
  rcases head_cases unit table with ⟨t, rfl, hversion, hcount, hentries⟩ | ⟨err', hrefuses⟩
  · rw [read_of_head hversion hcount hentries] at h
    obtain ⟨before, raw, behind, fault, heq, hbefore, hfails, rfl⟩ := checkEntries_eq_error_iff.1 h
    rw [Nat.zero_add]
    exact .of_entry hversion hcount heq hbefore hfails
  · cases hrefuses.read_eq.symm.trans h
    exact hrefuses

theorem Valid.not_refuses (h : t.Valid) : ¬ Refuses unit (some t) err := by
  intro hrefuses
  cases hrefuses with
  | version hversion => exact hversion h.version
  | tooMany _ hcount => exact Nat.not_lt.2 h.count hcount
  | nullEntries _ _ hzero hnone => exact h.entries hzero hnone
  | @entry _ before behind raw _ _ _ heq _ hfails =>
    exact (h.each raw (by simp [heq])).not_fails hfails.1
  | @mismatch _ before behind raw _ _ _ _ heq _ hfails =>
    exact (h.each raw (by simp [heq])).not_fails hfails.1

/-- A table is read exactly if it is in order, and then each of its entries to what it stands
for. -/
theorem read_eq_ok_iff :
    read unit table = .ok es ↔
      ∃ t, table = some t ∧ t.Valid ∧
        List.Forall₂ (fun raw e => raw.Decodes unit e) t.counted es := by
  constructor
  · intro h
    rcases head_cases unit table with ⟨t, rfl, hversion, hcount, hentries⟩ | ⟨err, hrefuses⟩
    · rw [read_of_head hversion hcount hentries] at h
      have heach := checkEntries_eq_ok_iff.1 h
      have hvalid := (List.forall₂_and_left _ _).1 (heach.imp fun _ _ h => ⟨h.valid, h⟩)
      exact ⟨t, rfl, ⟨hversion, hcount, hentries, hvalid.1⟩, heach⟩
    · cases hrefuses.read_eq.symm.trans h
  · rintro ⟨t, rfl, hvalid, heach⟩
    rw [read_of_head hvalid.version hvalid.count hvalid.entries]
    exact checkEntries_eq_ok_iff.2 heach

/-- All the entries of a table are checked at once: either each stands for one, or none is read. -/
theorem exists_read_iff (unit : String) :
    (∃ es, read unit table = .ok es) ↔ ∃ t, table = some t ∧ t.Valid := by
  constructor
  · rintro ⟨es, hread⟩
    obtain ⟨t, rfl, hvalid, -⟩ := read_eq_ok_iff.1 hread
    exact ⟨t, rfl, hvalid⟩
  · rintro ⟨t, rfl, hvalid⟩
    cases hread : read unit (some t) with
    | ok es => exact ⟨es, rfl⟩
    | error err => exact absurd (read_eq_error_iff.1 hread) hvalid.not_refuses

/-- Tables are read exactly if they are in order. The entries that are read are what the counted
ones stand for, in their order, and none is missing; and of a table that is not in order the first
thing that is wrong is told: of its head, or of its first entry that is out of order. -/
theorem read_exactly_valid (unit : String) :
    (∀ table, (∃ es, read unit table = .ok es) ↔ ∃ t, table = some t ∧ t.Valid) ∧
    (∀ t es, read unit (some t) = .ok es →
      List.Forall₂ (fun raw e => raw.Decodes unit e) t.counted es ∧
        (t.count ≤ (t.entries.getD []).length → es.length = t.count)) ∧
    ∀ table err, read unit table = .error err ↔ Refuses unit table err := by
  refine ⟨fun table => exists_read_iff unit, fun t es hread => ?_,
    fun table err => read_eq_error_iff⟩
  obtain ⟨t', heq, -, heach⟩ := read_eq_ok_iff.1 hread
  cases heq
  refine ⟨heach, fun hstored => ?_⟩
  rw [← heach.length_eq, counted, List.length_take, Nat.min_eq_left hstored]

/-- Of two entries that are out of order the first is told, and the first that is wrong with it. -/
example :
    read "fast" (some ⟨1, 2, some
      [⟨.ofString "a.B", .ofString "f", .ofString "(I)V", .ofString "b_f", none, some [99, 0], 2,
          none⟩,
        ⟨.null, .null, .null, .null, none, none, 1, none⟩]⟩) =
      .error (.invalidExportTable "fast" (.entry 0 (.nullFunction ⟨"a.B", "f", "(I)V"⟩))) := by
  decide +kernel

end ExportTable

end AccelHost
