import AccelHost.Proofs.Admission

/-!
What the check of a raw entry vouches for. An entry that passes has names that are not empty, a
descriptor that can be read, a convention of the same kinds, a receiver nowhere but before all
parameters, and a function or a provider.
-/
namespace AccelHost

namespace Convention

variable {c : Convention} {tags : List UInt8}

theorem receiver_not_mem_paramsOfTags {position : Nat} {ks : List ParamKind}
    (h : paramsOfTags position tags = .ok ks) : .receiver ∉ ks := by
  induction tags generalizing position ks with
  | nil =>
    cases h
    exact List.not_mem_nil
  | cons t rest ih =>
    unfold paramsOfTags at h
    split at h
    · cases h
    · cases h
    · cases h
    · rename_i k hvoid hreceiver hk
      cases hrest : paramsOfTags (position + 1) rest with
      | error fault =>
        rw [hrest] at h
        cases h
      | ok ks' =>
        rw [hrest] at h
        cases h
        exact List.not_mem_cons_of_ne_of_not_mem (fun heq => hreceiver heq.symm) (ih hrest)

theorem resultOfTag_ne_receiver {t : UInt8} {k : ParamKind} (h : resultOfTag t = .ok k) :
    k ≠ .receiver := by
  unfold resultOfTag at h
  split at h
  · cases h
  · cases h
  · rename_i hreceiver hk
    cases h
    exact hreceiver

/-- A convention that is read from tags has no receiver but its own. -/
theorem receiver_of_ofTags (h : ofTags tags = .ok c) :
    .receiver ∉ c.params ∧ c.result ≠ .receiver := by
  unfold ofTags at h
  split at h
  · cases h
  · split at h
    · cases h
    · rename_i result hresult
      dsimp only at h
      generalize (tags.dropLast.head?.bind ParamKind.ofTag? == some .receiver) = hasReceiver at h
      split at h
      · cases h
      · rename_i params hparams
        cases h
        exact ⟨receiver_not_mem_paramsOfTags hparams, resultOfTag_ne_receiver hresult⟩

theorem receiver_first (h : .receiver ∉ c.params) {i : Nat}
    (hi : c.nativeParams[i]? = some .receiver) : i = 0 := by
  unfold nativeParams at hi
  split at hi
  · cases i with
    | zero => rfl
    | succ i =>
      rw [List.getElem?_cons_succ] at hi
      exact absurd (List.mem_of_getElem? hi) h
  · exact absurd (List.mem_of_getElem? hi) h

end Convention

namespace RawEntry

variable {raw : RawEntry} {unit : String} {e : Entry}

theorem text_ne_empty {f : EntryField} {t : Text.ForeignText} {s : String} (h : text f t = .ok s) :
    s ≠ "" := by
  unfold text at h
  split at h
  · cases h
  · split at h
    · cases h
    · cases h
    · rename_i hempty hs
      cases h
      exact hempty

theorem names_ne_empty {m : Method} {nativeName : String} (h : raw.names = .ok (m, nativeName)) :
    m.className ≠ "" ∧ m.name ≠ "" ∧ m.descriptor ≠ "" ∧ nativeName ≠ "" := by
  unfold names at h
  split at h
  · cases h
  · rename_i hclass
    split at h
    · cases h
    · rename_i hname
      split at h
      · cases h
      · rename_i hdescriptor
        split at h
        · cases h
        · rename_i hnative
          cases h
          exact ⟨text_ne_empty hclass, text_ne_empty hname, text_ne_empty hdescriptor,
            text_ne_empty hnative⟩

theorem given_of_target? {target : NativeTarget} (h : raw.target? = some target) :
    raw.func ≠ none ∨ raw.provider ≠ none := by
  unfold target? at h
  cases hp : raw.provider with
  | some p => exact .inr (Option.some_ne_none p)
  | none =>
    rw [hp] at h
    obtain ⟨code, hcode, -⟩ := Option.map_eq_some_iff.1 h
    exact .inl (hcode ▸ Option.some_ne_none code)

theorem parts_of_check (h : raw.check unit = .ok e) :
    ∃ tags d, raw.names = .ok (e.method, e.nativeName) ∧ raw.target? = some e.target ∧
      raw.tags? = some tags ∧ Convention.ofTags tags = .ok e.convention ∧
      Descriptor.parse e.method.descriptor = .ok d ∧ e.convention.mismatch? d = none ∧
      e = { unit, method := e.method, nativeName := e.nativeName, target := e.target,
            convention := e.convention } := by
  unfold check at h
  split at h
  · cases h
  · rename_i hnames
    split at h
    · cases h
    · rename_i htarget
      split at h
      · cases h
      · rename_i tags htags
        split at h
        · cases h
        · rename_i hconvention
          split at h
          · cases h
          · rename_i d hdescriptor
            split at h
            · cases h
            · rename_i hmismatch
              cases h
              exact ⟨tags, d, hnames, htarget, htags, hconvention, hdescriptor, hmismatch, rfl⟩

end RawEntry

namespace Entry

/-- An entry that stands for a raw one that has passed the check of its unit. -/
def Checked (e : Entry) : Prop :=
  ∃ raw : RawEntry, raw.check e.unit = .ok { e with owner := none } ∧
    (raw.func ≠ none ∨ raw.provider ≠ none)

/-- An entry that can be called as its method is. -/
structure WellFormed (e : Entry) : Prop where
  className : e.method.className ≠ ""
  name : e.method.name ≠ ""
  descriptor : e.method.descriptor ≠ ""
  nativeName : e.nativeName ≠ ""
  /-- Its convention is that of its descriptor. -/
  agrees : ∃ d, Descriptor.parse e.method.descriptor = .ok d ∧
    e.convention.params = d.params ∧ e.convention.result = d.result
  /-- A receiver is the first parameter, and no other. -/
  receiver : ∀ i, e.convention.nativeParams[i]? = some .receiver → i = 0
  result : e.convention.result ≠ .receiver
  /-- It was made of an export entry with a function or a provider. -/
  checked : e.Checked

theorem checked_of_check {raw : RawEntry} {unit : String} {e : Entry}
    (h : raw.check unit = .ok e) : e.Checked := by
  obtain ⟨tags, d, -, htarget, -, -, -, -, heq⟩ := RawEntry.parts_of_check h
  refine ⟨raw, ?_, RawEntry.given_of_target? htarget⟩
  have hunit : e.unit = unit := by rw [heq]
  have howner : { e with owner := none } = e := by rw [heq]
  rw [howner, hunit]
  exact h

theorem Checked.ownedBy {e : Entry} (h : e.Checked) (x : UnitHandle) : (e.ownedBy x).Checked := h

theorem Checked.wellFormed {e : Entry} (h : e.Checked) : e.WellFormed := by
  have ⟨_, hcheck, _⟩ := h
  obtain ⟨tags, d, hnames, -, -, hconvention, hparse, hmismatch, -⟩ :=
    RawEntry.parts_of_check hcheck
  obtain ⟨hclass, hname, hdescriptor, hnative⟩ := RawEntry.names_ne_empty hnames
  obtain ⟨hparams, hresult⟩ := Convention.receiver_of_ofTags hconvention
  exact {
    className := hclass
    name := hname
    descriptor := hdescriptor
    nativeName := hnative
    agrees := ⟨d, hparse, (Convention.mismatch?_eq_none_iff _).1 hmismatch⟩
    receiver := fun _ hi => Convention.receiver_first hparams hi
    result := hresult
    checked := h }

end Entry

end AccelHost
