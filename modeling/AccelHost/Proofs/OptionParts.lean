import AccelHost.Proofs.Encoding
import AccelHost.Proofs.OptionGrammar

/-!
The parts of an option that can be read. Each stands somewhere in the text of the option, so it has
no character that the text has not, and none is longer than its bound. The value of a key is that of
its last group.
-/
namespace AccelHost.UnitOption

open Text

/-! ### Where the parts stand -/

theorem infix_join {sep : Char} {p q : List Char} {ps : List (List Char)} (h : q ∈ p :: ps) :
    q <:+: join sep p ps := by
  induction ps generalizing p with
  | nil =>
    obtain rfl := List.mem_singleton.1 h
    exact List.infix_refl _
  | cons p' ps ih =>
    rcases List.mem_cons.1 h with rfl | h
    · exact (List.prefix_append _ _).isInfix
    · have hrest : join sep p' ps <:+: p ++ sep :: join sep p' ps :=
        ((List.suffix_cons sep _).trans (List.suffix_append _ _)).isInfix
      exact (ih h).trans hrest

variable {text : String} {o : UnitOption} {identifier feature raw : List Char}
  {version : Option (List Char)} {kvs : List (String × String)}

theorem Stem.isInfix {name s : List Char} (h : Stem name s) : s <:+: name := by
  cases h with
  | library => exact (List.prefix_append _ _).isInfix
  | other => exact List.infix_refl _

theorem Feature.isInfix {s : List Char} (h : Feature s feature version) :
    feature <:+: s ∧ ∀ v ∈ version, v <:+: s := by
  cases h with
  | versioned =>
    refine ⟨(List.prefix_append _ _).isInfix, fun v hv => ?_⟩
    cases hv
    exact ((List.suffix_cons _ _).trans (List.suffix_append _ _)).isInfix
  | plain => exact ⟨List.infix_refl _, fun v hv => by cases hv⟩

theorem Names.isInfix (h : Names identifier feature version) :
    feature <:+: identifier ∧ ∀ v ∈ version, v <:+: identifier := by
  obtain ⟨name, s, ⟨-, before, rfl, -⟩, -, hstem, hfeature⟩ := h.derived
  have hname : s <:+: before ++ name := hstem.isInfix.trans (List.suffix_append _ _).isInfix
  exact ⟨hfeature.isInfix.1.trans hname, fun v hv => (hfeature.isInfix.2 v hv).trans hname⟩

theorem Names.version_short (h : Names identifier feature version) :
    ∀ v ∈ version, byteLength v ≤ 64 := by
  obtain ⟨name, s, -, -, -, hfeature⟩ := h.derived
  intro v hv
  cases hfeature with
  | versioned _ hversion =>
    cases hv
    exact hversion.1
  | plain => cases hv

/-- What a path may not hold, and a drive does not, no identifier has. -/
theorem Names.not_mem {c : Char} (h : Names identifier feature version) (hplain : ¬ Plain c)
    (hletter : c.isAlpha = false) (hdrive : c ∉ [':', '/', '\\']) : c ∉ identifier := by
  obtain ⟨drive, path, rfl, hbefore, hpath⟩ := h.plain
  rw [List.mem_append]
  rintro (hmem | hmem)
  · rcases hbefore with rfl | ⟨hl, hs⟩
    · cases hmem
    · simp only [List.mem_cons, List.not_mem_nil, or_false] at hmem hdrive
      rcases hmem with rfl | rfl | rfl
      · rw [hl] at hletter
        cases hletter
      · exact hdrive (.inl rfl)
      · exact hdrive (.inr hs)
  · exact hplain (hpath _ hmem)

theorem Names.nul_not_mem (h : Names identifier feature version) : '\x00' ∉ identifier :=
  h.not_mem (fun hplain => absurd hplain.2.1 (by decide)) (by decide) (by decide)

theorem exists_group_of_mem {groups : List (List Char)} (h : List.Forall₂ Group groups kvs) :
    ∀ kv ∈ kvs, ∃ group ∈ groups, Group group kv := by
  induction h with
  | nil => exact List.forall_mem_nil _
  | @cons group kv groups kvs hfirst _ ih =>
    refine List.forall_mem_cons.2 ⟨⟨group, List.mem_cons_self, hfirst⟩, fun kv' hkv' => ?_⟩
    obtain ⟨group', hmem, hgroup⟩ := ih kv' hkv'
    exact ⟨group', List.mem_cons_of_mem _ hmem, hgroup⟩

theorem Params.isInfix (h : Params raw kvs) : ∀ kv ∈ kvs, kv.2.toList <:+: raw := by
  obtain ⟨g, gs, rfl, -, hgroups⟩ := h.groups
  intro kv hkv
  obtain ⟨group, hmem, hgroup⟩ := exists_group_of_mem hgroups kv hkv
  have hvalue : kv.2.toList <:+: group := by
    rw [hgroup.written]
    exact ((List.suffix_cons _ _).trans (List.suffix_append _ _)).isInfix
  exact hvalue.trans (infix_join hmem)

/-! ### The last value of a key -/

variable {key value : String} {before behind : List (String × String)}

theorem get?_foldl_set_of_ne (h : ∀ kv ∈ kvs, kv.1 ≠ key) (t : Keyed String String) :
    (kvs.foldl (fun t kv => Keyed.set kv.1 kv.2 t) t).get? key = t.get? key := by
  induction kvs generalizing t with
  | nil => rfl
  | cons kv kvs ih =>
    obtain ⟨hkv, hrest⟩ := List.forall_mem_cons.1 h
    rw [List.foldl_cons, ih hrest, Keyed.get?_set_of_ne hkv]

theorem get?_table_of_ne (h : ∀ kv ∈ kvs, kv.1 ≠ key) : (table kvs).get? key = none :=
  get?_foldl_set_of_ne h []

theorem get?_table_of_last (h : ∀ kv ∈ behind, kv.1 ≠ key) :
    (table (before ++ (key, value) :: behind)).get? key = some value := by
  rw [table, List.foldl_append, List.foldl_cons, get?_foldl_set_of_ne h, Keyed.get?_set_self]

theorem exists_last_group (h : ∃ kv ∈ kvs, kv.1 = key) :
    ∃ before value behind, kvs = before ++ (key, value) :: behind ∧
      ∀ kv ∈ behind, kv.1 ≠ key := by
  induction kvs with
  | nil =>
    obtain ⟨kv, hkv, -⟩ := h
    cases hkv
  | cons kv kvs ih =>
    by_cases hrest : ∃ kv ∈ kvs, kv.1 = key
    · obtain ⟨before, value, behind, rfl, hbehind⟩ := ih hrest
      exact ⟨kv :: before, value, behind, rfl, hbehind⟩
    · obtain ⟨kv', hkv', rfl⟩ := h
      rcases List.mem_cons.1 hkv' with rfl | hmem
      · exact ⟨[], kv'.2, kvs, rfl, fun kv hkv hkey => hrest ⟨kv, hkv, hkey⟩⟩
      · exact absurd ⟨kv', hmem, rfl⟩ hrest

theorem mem_of_get?_table (h : (table kvs).get? key = some value) : (key, value) ∈ kvs := by
  by_cases hkey : ∃ kv ∈ kvs, kv.1 = key
  · obtain ⟨before, value', behind, rfl, hbehind⟩ := exists_last_group hkey
    rw [get?_table_of_last hbehind] at h
    cases h
    simp
  · rw [get?_table_of_ne fun kv hkv heq => hkey ⟨kv, hkv, heq⟩] at h
    cases h

theorem get?_table_eq_none_iff : (table kvs).get? key = none ↔ ∀ kv ∈ kvs, kv.1 ≠ key := by
  refine ⟨fun hnone kv hkv hkey => ?_, get?_table_of_ne⟩
  obtain ⟨before, value, behind, rfl, hbehind⟩ := exists_last_group ⟨kv, hkv, hkey⟩
  rw [get?_table_of_last hbehind] at hnone
  cases hnone

/-! ### Options that are read -/

def Writes (o : UnitOption) (kvs : List (String × String)) : Prop :=
  match o.rawParams with
  | none => kvs = []
  | some raw => Params raw.toList kvs

/-- An option that was read: each part is short enough, and only parameters may have a NUL. -/
structure Fits (o : UnitOption) : Prop where
  feature : byteLength o.feature.toList ≤ 64 ∧ '\x00' ∉ o.feature.toList
  version : ∀ v ∈ o.version, byteLength v.toList ≤ 64 ∧ '\x00' ∉ v.toList
  rawParams : ∀ raw ∈ o.rawParams, byteLength raw.toList ≤ 1024 ∧ raw.toList <:+: o.text.toList
  values : ∀ kvs, o.Writes kvs → ∀ kv ∈ kvs,
    byteLength kv.2.toList ≤ 1024 ∧ kv.2.toList <:+: o.text.toList

theorem Sections.isInfix {option : List Char} {raw : Option (List Char)}
    (h : Sections option identifier raw) : ∀ r ∈ raw, r <:+: option := by
  intro r hr
  cases h with
  | bare => cases hr
  | params =>
    cases hr
    exact ((List.suffix_cons _ _).trans (List.suffix_append _ _)).isInfix

theorem exists_writes (h : parse text = .ok o) : ∃ kvs, o.Writes kvs := by
  obtain ⟨-, -, -, htable⟩ := parse_eq_ok_iff.1 h
  unfold Writes
  cases hraw : o.rawParams with
  | none => exact ⟨[], rfl⟩
  | some raw =>
    rw [hraw] at htable
    obtain ⟨kvs, hkvs, -⟩ := htable
    exact ⟨kvs, hkvs⟩

/-- The table of an option is that of the groups that it writes. -/
theorem params_eq_table (h : parse text = .ok o) (hw : o.Writes kvs) : o.params = table kvs := by
  obtain ⟨-, -, -, htable⟩ := parse_eq_ok_iff.1 h
  unfold Writes at hw
  cases hraw : o.rawParams with
  | none =>
    rw [hraw] at htable hw
    rw [hw]
    exact htable
  | some raw =>
    rw [hraw] at htable hw
    -- Both are what the reader makes of the list of parameters.
    have hread := parseParams_eq_ok_iff.2 htable
    rw [parseParams_eq_ok_iff.2 ⟨kvs, hw, rfl⟩] at hread
    exact (Except.ok.inj hread).symm

theorem fits_of_parse (h : parse text = .ok o) : o.Fits := by
  obtain ⟨htext, hsections, hnames, htable⟩ := parse_eq_ok_iff.1 h
  have hparts := hnames.isInfix
  have hparams : ∀ raw ∈ o.rawParams,
      byteLength raw.toList ≤ 1024 ∧ raw.toList <:+: o.text.toList := by
    intro raw hraw
    rw [hraw] at htable hsections
    obtain ⟨kvs, hkvs, -⟩ := htable
    rw [htext]
    exact ⟨hkvs.short.2, hsections.isInfix raw.toList rfl⟩
  refine ⟨⟨hnames.feature.2, fun hnul => hnames.nul_not_mem (hparts.1.subset hnul)⟩,
    fun v hv => ?_, hparams, fun kvs hw kv hkv => ?_⟩
  · have hmem : v.toList ∈ o.version.map String.toList := Option.mem_map_of_mem _ hv
    exact ⟨hnames.version_short _ hmem,
      fun hnul => hnames.nul_not_mem ((hparts.2 _ hmem).subset hnul)⟩
  · unfold Writes at hw
    cases hraw : o.rawParams with
    | none =>
      rw [hraw] at hw
      rw [hw] at hkv
      cases hkv
    | some raw =>
      rw [hraw] at hw
      have hvalue := hw.isInfix kv hkv
      obtain ⟨hshort, hwhole⟩ := hparams raw hraw
      exact ⟨Nat.le_trans (byteLength_le_of_isInfix hvalue) hshort, hvalue.trans hwhole⟩

end AccelHost.UnitOption
