import AccelHost.Proofs.Pinning
import AccelHost.Proofs.RecordsRuns

/-!
A provider is asked at most once. What a chronicle tells of the entries of one id is that their
provider is asked, unless its answer is known, and that all that comes of them from then on is that
answer. Were an entry dealt with while its own provider is asked, that would wait for ever. The
trace has no question to a provider that the chronicle does not tell.
-/
namespace AccelHost

variable {K : List UnitHandle} {j : Nat} {m m' : Machine} {ds ds' : List Dealing} {i : EntryId}

/-- What a dealing is to the entries of an id. -/
inductive Look where
  | asked
  | found (answer : Option CodeRef)
deriving DecidableEq

namespace Dealing

/-- What a dealing is to the entries of an id, if the host at work has to do with one. -/
def look? (i : EntryId) : Dealing → Option Look
  | asked e => if e.id = i then some .asked else none
  | told e answer | lowered e answer => if e.id = i then some (.found answer) else none
  | step _ _ d => d.look? i
  | compiled .. | within _ => none

/-- The entry that a dealing is about, by this host or another one. -/
def entry? : Dealing → Option Entry
  | asked e | told e _ | lowered e _ => some e
  | step _ _ d | within d => d.entry?
  | compiled .. => none

def event? : Dealing → Option TraceEvent
  | asked e =>
    match e.target with
    | .direct _ => none
    | .provided provider data => some (.asked e.id provider e.nativeName data)
  | step _ _ d | within d => d.event?
  | told .. | lowered .. | compiled .. => none

variable {h : Host} {e : Entry} {answer : Option CodeRef} {d : Dealing}

theorem Finds.look?_eq (hd : d.Finds h e answer) :
    d.look? i = if e.id = i then some (.found answer) else none := by
  rcases hd with rfl | ⟨rfl, -⟩ <;> rfl

theorem Finds.entry?_eq (hd : d.Finds h e answer) : d.entry? = some e := by
  rcases hd with rfl | ⟨rfl, -⟩ <;> rfl

theorem Finds.event?_eq (hd : d.Finds h e answer) : d.event? = none := by
  rcases hd with rfl | ⟨rfl, -⟩ <;> rfl

@[simp] theorem look?_comp_step (op : Op) (m : Machine) : look? i ∘ step op m = look? i := rfl

@[simp] theorem look?_comp_within : look? i ∘ within = fun _ => none := rfl

@[simp] theorem event?_comp_step (op : Op) (m : Machine) : event? ∘ step op m = event? := rfl

@[simp] theorem event?_comp_within : event? ∘ within = event? := rfl

end Dealing

def looks (i : EntryId) (ds : List Dealing) : List Look := ds.filterMap (Dealing.look? i)

@[simp] theorem looks_append : looks i (ds ++ ds') = looks i ds ++ looks i ds' :=
  List.filterMap_append

@[simp] theorem looks_map_step (op : Op) (m : Machine) :
    looks i (ds.map (.step op m)) = looks i ds := by
  rw [looks, List.filterMap_map, Dealing.look?_comp_step]
  rfl

@[simp] theorem looks_map_within : looks i (ds.map .within) = [] := by
  rw [looks, List.filterMap_map, Dealing.look?_comp_within]
  exact List.filterMap_eq_nil_iff.2 fun _ _ => rfl

theorem looks_singleton (d : Dealing) : looks i [d] = (d.look? i).toList := by
  cases hd : d.look? i <;> simp [looks, hd]

theorem Dealing.Finds.looks_eq {h : Host} {e : Entry} {answer : Option CodeRef} {d : Dealing}
    (hd : d.Finds h e answer) : looks i [d] = if e.id = i then [.found answer] else [] := by
  rw [looks_singleton, hd.look?_eq]
  split <;> rfl

/-- Entries of an id are dealt with as they should be, from one state of their answer to another:
what is known is found, and what is not is asked for once and found from then on. -/
inductive AnswersOnce :
    Option (Option CodeRef) → List Look → Option (Option CodeRef) → Prop where
  | known (answer : Option CodeRef) (k : Nat) :
      AnswersOnce (some answer) (.replicate k (.found answer)) (some answer)
  | untouched : AnswersOnce none [] none
  | asked (answer : Option CodeRef) (k : Nat) :
      AnswersOnce none (.asked :: .replicate (k + 1) (.found answer)) (some answer)
  /-- A name with a NUL cannot be asked for. -/
  | unnamed (k : Nat) : AnswersOnce none (.replicate (k + 1) (.found none)) (some none)

namespace AnswersOnce

variable {a b c : Option (Option CodeRef)} {ls ls' : List Look}

theorem refl : ∀ a, AnswersOnce a [] a
  | none => .untouched
  | some answer => .known answer 0

theorem trans (h : AnswersOnce a ls b) (h' : AnswersOnce b ls' c) :
    AnswersOnce a (ls ++ ls') c := by
  cases h with
  | untouched => exact h'
  | known answer k =>
    cases h' with
    | known _ k' => rw [List.replicate_append_replicate]; exact .known answer (k + k')
  | asked answer k =>
    cases h' with
    | known _ k' =>
      rw [List.cons_append, List.replicate_append_replicate, Nat.add_right_comm]
      exact .asked answer (k + k')
  | unnamed k =>
    cases h' with
    | known _ k' =>
      rw [List.replicate_append_replicate, Nat.add_right_comm]
      exact .unnamed (k + k')

end AnswersOnce

/-- When a provider was asked, nothing but its answer comes on top of what it did. -/
theorem Dispatch.nativeFunc_asks {n : Nested} {e : Entry} {provider : CodeRef}
    {data : Option CodeRef} (ht : e.target = .provided provider data)
    (hp : m.host.provided.get? e.id = none) :
    let asked := (askProvider n e provider data).after (m.hold (.answer e.id))
    let after := (nativeFunc n e).after m
    after.stuck = asked.stuck ∧ after.host.runtime = asked.host.runtime ∧
      after.host.serial = asked.host.serial ∧
      (e.id ≠ i → after.host.provided.get? i = asked.host.provided.get? i) := by
  obtain ⟨-, hafter⟩ := nativeFunc_of_provided (n := n) ht hp
  simp only [hafter, Work.after_holding]
  generalize (askProvider n e provider data).after (m.hold (.answer e.id)) = asked
  exact ⟨rfl, rfl, rfl, fun hi => Keyed.get?_set_of_ne hi _ _⟩

namespace Chronicle

theorem trace_asked (h : Chronicle K j m ds m') : m'.trace.filter TraceEvent.isAsked =
    m.trace.filter TraceEvent.isAsked ++ ds.filterMap Dealing.event? := by
  induction h with
  | plain hp =>
    obtain ⟨es, hes, hno⟩ := hp.trace
    have hnil : es.filter TraceEvent.isAsked = [] :=
      List.filter_eq_nil_iff.2 fun e he => by simp [hno e he]
    rw [hes, List.filter_append, hnil]
    rfl
  | trans _ _ ih₁ ih₂ => rw [ih₂, ih₁, List.filterMap_append, List.append_assoc]
  | hook _ ih | hold _ ih => exact ih
  | @nested _ m m' p ds _ _ ih =>
    have htrace : m'.leave.trace = m'.trace := by
      unfold Machine.leave
      split <;> rfl
    rw [htrace, ih, List.filterMap_map, Dealing.event?_comp_within]
    rfl
  | step _ _ ih => rw [ih, List.filterMap_map, Dealing.event?_comp_step]
  | known _ _ _ hd => simp [hd.event?_eq]
  | unnamed _ _ _ _ hd => simp [hd.event?_eq, Machine.withHost, Machine.await]
  | @ask _ depth m e provider data d ds _ ht hp _ _ _ hd ih =>
    obtain ⟨-, hafter⟩ := Dispatch.nativeFunc_of_provided (n := .ofDepth depth) ht hp
    simp only [hafter, Work.after_holding, Machine.trace_withHost, Machine.trace_withLocks]
    rw [ih, List.filter_append]
    simp only [List.filter_cons, TraceEvent.isAsked, ↓reduceIte, List.filter_nil, List.cons_append,
      List.filterMap_cons, Dealing.event?, ht, List.filterMap_append, hd.event?_eq,
      List.filterMap_nil, List.append_assoc, List.nil_append, List.append_nil]
  | cached => simp [Dealing.event?, Machine.await]
  | @keep _ m m' rs method plan ds _ _ ih =>
    have hnone : [Dealing.compiled rs.id method].filterMap Dealing.event? = [] := rfl
    rw [List.filterMap_append, hnone, List.append_nil, Machine.trace_withLocks,
      Machine.trace_withHost, ih]
    rfl

theorem outside (h : Chronicle K j m ds m') {d : Dealing} (hd : d ∈ ds) {e : Entry}
    (he : d.entry? = some e) : e.Outside K := by
  induction h generalizing d with
  | plain => cases hd
  | trans _ _ ih₁ ih₂ => exact (List.mem_append.1 hd).elim (ih₁ · he) (ih₂ · he)
  | hook _ ih | hold _ ih => exact ih hd he
  | nested _ _ ih | step _ _ ih =>
    obtain ⟨d', hd', rfl⟩ := List.mem_map.1 hd
    exact ih hd' he
  | known ho _ _ hf | unnamed ho _ _ _ hf =>
    cases List.mem_singleton.1 hd
    cases hf.entry?_eq.symm.trans he
    exact ho
  | ask ho _ _ _ _ _ hf ih =>
    simp only [List.cons_append, List.mem_cons, List.mem_append, List.not_mem_nil, or_false] at hd
    rcases hd with rfl | hd | rfl
    · cases he
      exact ho
    · exact ih hd he
    · cases hf.entry?_eq.symm.trans he
      exact ho
  | cached =>
    cases List.mem_singleton.1 hd
    cases he
  | keep _ _ ih =>
    rcases List.mem_append.1 hd with hd | hd
    · exact ih hd he
    · cases List.mem_singleton.1 hd
      cases he

/-- What the work at hand does not do itself is done by operations, and is what these are for. -/
theorem exists_by (h : Chronicle K j m ds m') {d : Dealing} (hd : d ∈ ds)
    (hown : d.isOwn = false) : ∃ op m₀ d₀ depth, Dealing.By op m₀ d₀ d ∧
      d₀ ∈ op.deals (.ofDepth depth) m₀ := by
  induction h generalizing d with
  | plain => cases hd
  | trans _ _ ih₁ ih₂ => exact (List.mem_append.1 hd).elim (ih₁ · hown) (ih₂ · hown)
  | hook _ ih | hold _ ih => exact ih hd hown
  | nested _ hnone ih =>
    obtain ⟨d', hd', rfl⟩ := List.mem_map.1 hd
    have hother : d'.isOwn = false := Bool.eq_false_iff.2 fun hd'' =>
      List.not_mem_nil (hnone ▸ Dealing.mem_own.2 ⟨hd', hd''⟩)
    obtain ⟨op, m₀, d₀, depth, hby, hmem⟩ := ih hd' hother
    exact ⟨op, m₀, d₀, depth, .within hby, hmem⟩
  | @step _ depth m op ds _ hdeals ih =>
    obtain ⟨d', hd', rfl⟩ := List.mem_map.1 hd
    cases hd'' : d'.isOwn with
    | true => exact ⟨op, m, d', depth, .here hd'', hdeals ▸ Dealing.mem_own.2 ⟨hd', hd''⟩⟩
    | false =>
      obtain ⟨op', m₀, d₀, depth, hby, hmem⟩ := ih hd' hd''
      exact ⟨op', m₀, d₀, depth, .step hby, hmem⟩
  | known _ _ _ hf | unnamed _ _ _ _ hf =>
    cases List.mem_singleton.1 hd
    cases hf.isOwn.symm.trans hown
  | ask _ _ _ _ _ _ hf ih =>
    simp only [List.cons_append, List.mem_cons, List.mem_append, List.not_mem_nil, or_false] at hd
    rcases hd with rfl | hd | rfl
    · cases hown
    · exact ih hd hown
    · cases hf.isOwn.symm.trans hown
  | cached =>
    cases List.mem_singleton.1 hd
    cases hown
  | keep _ _ ih =>
    rcases List.mem_append.1 hd with hd | hd
    · exact ih hd hown
    · cases List.mem_singleton.1 hd
      cases hown

/-- While the provider of an entry is asked, nothing is done with entries of its id, unless that
waits for ever. -/
theorem locked_answer (h : Chronicle K j m ds m') (hl : .answer i ∈ m.host.locks)
    (hnone : m.host.provided.get? i = none) :
    m'.stuck = true ∨ looks i ds = [] ∧ m'.host.provided.get? i = none := by
  induction h with
  | plain hp => exact .inr ⟨rfl, by rw [hp.provided, hnone]⟩
  | trans h₁ h₂ ih₁ ih₂ =>
    rcases ih₁ hl hnone with hs | ⟨hlooks, hnone⟩
    · exact .inl (h₂.around.stuck hs)
    · rcases ih₂ (h₁.locks_eq ▸ hl) hnone with hs | ⟨hlooks', hnone⟩
      · exact .inl hs
      · exact .inr ⟨by rw [looks_append, hlooks, hlooks', List.append_nil], hnone⟩
  | hook _ ih => exact ih hl hnone
  | nested hc => exact .inr ⟨looks_map_within, by rw [hc.around.waited_leave.1.rest, hnone]⟩
  | step _ _ ih => simpa using ih hl hnone
  | hold _ ih => exact ih (List.mem_cons_of_mem _ hl) hnone
  | @known _ m e answer d _ _ hp hd =>
    have hi : e.id ≠ i := by
      rintro rfl
      cases hp.symm.trans hnone
    exact .inr ⟨by rw [hd.looks_eq, if_neg hi], hnone⟩
  | @unnamed _ m e d _ _ hp _ hd =>
    by_cases hi : e.id = i
    · subst hi
      exact .inl (Machine.stuck_of_mem hl)
    · exact .inr ⟨by rw [hd.looks_eq, if_neg hi], (Keyed.get?_set_of_ne hi _ _).trans hnone⟩
  | @ask _ depth m e provider data d ds _ ht hp _ hc _ hd ih =>
    obtain ⟨hstuck, -, -, hprovided⟩ :=
      Dispatch.nativeFunc_asks (i := i) (n := .ofDepth depth) ht hp
    rw [hstuck]
    by_cases hi : e.id = i
    · subst hi
      exact .inl (hc.around.stuck (Machine.stuck_of_mem hl))
    · rcases ih (List.mem_cons_of_mem _ hl) hnone with hs | ⟨hlooks, hnone⟩
      · exact .inl hs
      · refine .inr ⟨?_, (hprovided hi).trans hnone⟩
        have hasked : looks i (.asked e :: ds) = looks i ds := by simp [looks, Dealing.look?, hi]
        rw [looks_append, hd.looks_eq, if_neg hi, List.append_nil, hasked, hlooks]
  | cached => exact .inr ⟨rfl, hnone⟩
  | @keep _ m m' rs method plan ds _ _ ih =>
    rcases ih (List.mem_cons_of_mem _ hl) hnone with hs | ⟨hlooks, hnone⟩
    · exact .inl hs
    · refine .inr ⟨by rw [looks_append, hlooks]; rfl, ?_⟩
      rw [Machine.provided_withLocks, Machine.withHost, Host.provided_keep, hnone]

/-- Entries of an id are dealt with as they should be, unless one waits for its own provider. -/
theorem answersOnce (h : Chronicle K j m ds m') (hs : m'.stuck = false) :
    AnswersOnce (m.host.provided.get? i) (looks i ds) (m'.host.provided.get? i) := by
  induction h with
  | plain hp => rw [hp.provided]; exact .refl _
  | trans _ h₂ ih₁ ih₂ =>
    rw [looks_append]
    exact (ih₁ (Bool.eq_false_iff.2 fun hs' => by simp [h₂.around.stuck hs'] at hs)).trans (ih₂ hs)
  | hook _ ih | hold _ ih => exact ih hs
  | nested hc =>
    rw [looks_map_within, hc.around.waited_leave.1.rest]
    exact .refl _
  | step _ _ ih => simpa using ih hs
  | @known _ m e answer d _ _ hp hd =>
    rw [hd.looks_eq]
    split
    · rename_i hi
      rw [← hi, hp]
      exact .known answer 1
    · exact .refl _
  | @unnamed _ m e d _ _ hp _ hd =>
    rw [hd.looks_eq]
    split
    · rename_i hi
      rw [← hi, hp, Machine.withHost, Keyed.get?_set_self]
      exact .unnamed 0
    · rename_i hi
      rw [Machine.withHost, Keyed.get?_set_of_ne hi]
      exact .refl _
  | @ask _ depth m e provider data d ds _ ht hp _ hc _ hd ih =>
    obtain ⟨hstuck, -, -, hprovided⟩ :=
      Dispatch.nativeFunc_asks (i := i) (n := .ofDepth depth) ht hp
    rw [hstuck] at hs
    rw [looks_append, hd.looks_eq]
    by_cases hi : e.id = i
    · subst hi
      -- Nothing is done with the entry while its provider is asked.
      rcases hc.locked_answer (List.mem_cons_self ..) hp with hstuck | ⟨hnil, -⟩
      · exact Bool.noConfusion (hs.symm.trans hstuck)
      · have hprovided : e.isProvided = true := by simp [Entry.isProvided, ht]
        have hasked : looks e.id (.asked e :: ds) = [.asked] := by
          rw [← List.singleton_append, looks_append, hnil, looks_singleton]
          simp [Dealing.look?]
        rw [hasked, if_pos rfl, Dispatch.known_of_nativeFunc hprovided, hp]
        exact .asked _ 0
    · have hasked : looks i (.asked e :: ds) = looks i ds := by simp [looks, Dealing.look?, hi]
      rw [hasked, if_neg hi, List.append_nil, hprovided hi]
      exact ih hs
  | cached => exact .refl _
  | @keep _ m m' rs method plan ds _ _ ih =>
    rw [looks_append, looks_singleton]
    rw [Machine.provided_withLocks, Machine.withHost, Host.provided_keep]
    simpa [Dealing.look?] using ih hs

end Chronicle

/-! ### One lowering -/

/-- What an entry is lowered to by the answer of its provider. -/
def Entry.verdict (e : Entry) : Option CodeRef → Except DispatchError CallPlan
  | some func => .ok (.ofEntry e func)
  | none => .error (.nativeUnavailable e.method e.nativeName)

namespace Dispatch

variable {n : Nested} {e : Entry} {G : List UnitHandle}

/-- How an entry with a provider is lowered. -/
inductive Lowers (n : Nested) (e : Entry) (m : Machine) : Prop where
  | unloaded : m.host.isLoaded e = false →
      (lower n e).result m = .error (.unitUnloaded e.method e.unit) → (lower n e).after m = m →
      Lowers n e m
  | known {answer : Option CodeRef} : m.host.isLoaded e = true →
      m.host.provided.get? e.id = some answer → (lower n e).result m = e.verdict answer →
      (lower n e).after m = m → Lowers n e m
  /-- The provider is asked by the name and with the data of the entry, and what it answers is
  kept. -/
  | asked {provider : CodeRef} {data answer : Option CodeRef} {es : List TraceEvent} :
      m.host.isLoaded e = true → m.host.provided.get? e.id = none →
      '\x00' ∉ e.nativeName.toList → e.target = .provided provider data →
      ((lower n e).after m).trace =
        m.trace ++ .asked e.id provider e.nativeName data :: es →
      ((lower n e).after m).host.provided.get? e.id = some answer →
      (lower n e).result m = e.verdict answer →
      (((lower n e).after m).stuck = false →
        (askProvider n e provider data).result (m.hold (.answer e.id)) = answer) → Lowers n e m
  | unnamed : m.host.isLoaded e = true → m.host.provided.get? e.id = none →
      '\x00' ∈ e.nativeName.toList →
      (lower n e).after m = (m.await (.answer e.id)).withHost
        { m.host with provided := m.host.provided.set e.id none } →
      (lower n e).result m = e.verdict none → Lowers n e m

theorem result_lower_of_loaded (hl : m.host.isLoaded e = true) :
    (lower n e).result m = e.verdict ((nativeFunc n e).result m) := by
  rw [result_lower, if_pos hl]
  cases (nativeFunc n e).result m <;> rfl

theorem lower_of_answer {answer : Option CodeRef} (he : e.isProvided = true)
    (hl : m.host.isLoaded e = true) (hp : m.host.provided.get? e.id = some answer) :
    (lower n e).result m = e.verdict answer ∧ (lower n e).after m = m := by
  have hfunc : (nativeFunc n e).result m = answer ∧ (nativeFunc n e).after m = m := by
    unfold nativeFunc
    cases ht : e.target with
    | direct code => simp [Entry.isProvided, ht] at he
    | provided provider data => simp [hp]
  rw [result_lower_of_loaded hl, after_lower, asked, if_pos hl, hfunc.1]
  exact ⟨rfl, hfunc.2⟩

/-- A provider that does not have its own entry dealt with is the only one to answer. -/
theorem nativeFunc_answer (hn : n.Recorded j) (hd : m.Discreet G K) {provider : CodeRef}
    {data : Option CodeRef} (ht : e.target = .provided provider data)
    (hp : m.host.provided.get? e.id = none) (hname : '\x00' ∉ e.nativeName.toList)
    (hs : ((nativeFunc n e).after m).stuck = false) : (nativeFunc n e).result m =
      (askProvider n e provider data).result (m.hold (.answer e.id)) := by
  obtain ⟨ds, hds, -, -⟩ :=
    askProvider_records hn (hd.hold (.answer e.id)) provider data hname
  obtain ⟨hresult, -⟩ := nativeFunc_of_provided (n := n) ht hp
  obtain ⟨hsame, -⟩ := nativeFunc_asks (i := e.id) (n := n) ht hp
  rw [hsame] at hs
  rcases hds.locked_answer (List.mem_cons_self ..) hp with hstuck | ⟨-, hnone⟩
  · exact Bool.noConfusion (hs.symm.trans hstuck)
  · simp only [Work.after_holding, Work.result_holding, Machine.provided_withLocks, hnone,
      Option.getD_none] at hresult
    exact hresult

theorem lowers (hn : n.Recorded j) (hd : m.Discreet G K) (he : e.isProvided = true) :
    Lowers n e m := by
  cases hl : m.host.isLoaded e with
  | false =>
    exact .unloaded hl (by simp [result_lower, hl]) (by simp [after_lower, Dispatch.asked, hl])
  | true =>
    cases hp : m.host.provided.get? e.id with
    | some answer =>
      obtain ⟨hresult, hafter⟩ := lower_of_answer (n := n) he hl hp
      exact .known hl hp hresult hafter
    | none =>
      obtain ⟨provider, data, ht⟩ : ∃ provider data, e.target = .provided provider data := by
        cases ht : e.target with
        | direct code => simp [Entry.isProvided, ht] at he
        | provided provider data => exact ⟨_, _, rfl⟩
      have hlower : (lower n e).after m = (nativeFunc n e).after m := by
        rw [after_lower, Dispatch.asked, if_pos hl]
      by_cases hname : '\x00' ∈ e.nativeName.toList
      · obtain ⟨hresult, hafter⟩ := nativeFunc_of_unnamed (n := n) ht hp hname
        exact .unnamed hl hp hname (hlower.trans hafter)
          (by rw [result_lower_of_loaded hl, hresult])
      · have hknown := known_of_nativeFunc (n := n) (m := m) he
        rw [← hlower] at hknown
        obtain ⟨es, hes⟩ := trace_askProvider hn.lawful data (hd.hold (.answer e.id)).orderly hname
        have htrace : ((lower n e).after m).trace =
            m.trace ++ .asked e.id provider e.nativeName data :: es := by
          rw [hlower, (nativeFunc_of_provided ht hp).2, Machine.trace_withHost, Work.after_holding,
            Machine.trace_withLocks, hes]
          rfl
        refine .asked hl hp hname ht htrace hknown (result_lower_of_loaded hl) fun hs => ?_
        rw [hlower] at hs
        exact (nativeFunc_answer hn hd ht hp hname hs).symm

/-- A method that is not compiled leaves what its lowering leaves, if it was lowered at all. -/
theorem after_compile_of_error {rs : Replacements} {method : Method} {err : DispatchError}
    (h : (compile n rs method).result m = .error err) :
    (compile n rs method).after m = m.await (.calls rs.id) ∨
      ∃ e, rs.published.find? method = some e ∧
        let held := m.hold (.calls rs.id)
        (lower n e).result held = .error err ∧
          (compile n rs method).after m = ((lower n e).after held).withLocks m.host.locks := by
  unfold compile at h ⊢
  cases hc : rs.compiled.get? method with
  | some c => exact .inl rfl
  | none =>
    cases he : rs.published.find? method with
    | none => exact .inl rfl
    | some e =>
      simp only [hc, he, Work.result_bind, Work.after_bind, Work.after_await, Work.result_holding,
        Work.after_holding, Machine.hold_await, Machine.host_await, lowerKept] at h ⊢
      cases hl : (lower n e).result (m.hold (.calls rs.id)) with
      | error err' =>
        rw [hl] at h
        cases h
        exact .inr ⟨e, rfl, hl, rfl⟩
      | ok plan =>
        rw [hl] at h
        cases h

end Dispatch

/-! ### Whole runs -/

/-- What a chronicle tells of a run in which some units are in secret. -/
structure Account (K : List UnitHandle) (j : Nat) (m : Machine) (ds : List Dealing)
    (m' : Machine) : Prop where
  chronicle : Chronicle K j m ds m'
  /-- Every question to a provider is told, by the id, the name and the data of the entry. -/
  asked : m'.trace.filter TraceEvent.isAsked =
    m.trace.filter TraceEvent.isAsked ++ ds.filterMap Dealing.event?
  /-- What the work at hand does not do itself is done by operations, and is what these are for. -/
  others : ∀ d ∈ ds, d.isOwn = false → ∃ op m₀ d₀ depth, Dealing.By op m₀ d₀ d ∧
    d₀ ∈ op.deals (.ofDepth depth) m₀
  outside : ∀ d ∈ ds, ∀ e, d.entry? = some e → e.Outside K
  /-- Unless something waits for ever, as a provider does that has its own entry dealt with. -/
  once : m'.stuck = false → ∀ i,
    AnswersOnce (m.host.provided.get? i) (looks i ds) (m'.host.provided.get? i)
  kept : ∀ i answer, m.host.provided.get? i = some answer →
    m'.host.provided.get? i = some answer

theorem Chronicle.account (h : Chronicle K j m ds m') : Account K j m ds m' :=
  ⟨h, h.trace_asked, fun _ hd hown => h.exists_by hd hown, fun _ hd _ he => h.outside hd he,
    fun hs _ => h.answersOnce hs, h.around.provided⟩

/-- There is an account of a run, in which work does just some things itself. -/
def Accounted (K : List UnitHandle) (j : Nat) (m : Machine) (os : List Dealing) (m' : Machine) :
    Prop := ∃ ds, Account K j m ds m' ∧ Dealing.own ds = os

theorem Recounts.accounted {α : Type} {w : Work α} {P : α → Machine → Prop} {os : List Dealing}
    (h : Recounts K j m os w P) : Accounted K j m os (w.after m) :=
  h.2.imp fun _ hds => ⟨hds.1.account, hds.2⟩

/-- A machine that operations leave, or at which foreign code is part way through. -/
inductive Machine.Later (n : Nested) (m : Machine) : Machine → Prop where
  | done (ops : List Op) : Later n m ((ops.mapM (Op.answer n)).after m)
  | amid {α : Type} {code rest : Behaviour α} {m' : Machine} :
      n.Reaches code m rest m' → Later n m m'

/-- Of what is done up to then there is an account. All of it is done by operations. -/
theorem Machine.Later.accounted {n : Nested} {G : List UnitHandle} (hn : n.Recorded j)
    (h : m.Later n m') (hd : m.Discreet G K) : m'.Discreet G K ∧ Accounted K (j + 1) m [] m' := by
  cases h with
  | done ops =>
    have hrun := answers_records hn hd ops
    exact ⟨hrun.1, hrun.accounted⟩
  | amid hr =>
    suffices m'.Discreet G K ∧ ∃ ds, Chronicle K j m ds m' ∧ Dealing.own ds = [] from
      ⟨this.1, this.2.imp fun _ hds => ⟨hds.1.deepen.account, hds.2⟩⟩
    induction hr with
    | here => exact ⟨hd, [], .refl K _, rfl⟩
    | @next request _ m _ _ _ ih =>
      obtain ⟨hd₁, ds, hds, hos⟩ := hn.answer hd request
      obtain ⟨hd₂, ds', hds', hos'⟩ := ih hd₁
      exact ⟨hd₂, ds ++ ds', hds.trans hds', by rw [Dealing.own_append, hos, hos']; rfl⟩

/-- What an operation does is what it is for, and all that is done where foreign code carries out
no operations. -/
theorem Op.accounted {G : List UnitHandle} (depth : Nat) (hd : m.Discreet G K) (op : Op) :
    let n := Nested.ofDepth depth
    Accounted K depth m (op.deals n m) ((op.perform n).after m) ∧
      (depth = 0 → Account K depth m (op.deals n m) ((op.perform n).after m)) := by
  have hrun := op.perform_recounts (Nested.recorded_ofDepth depth) hd
  refine ⟨hrun.accounted, ?_⟩
  rintro rfl
  obtain ⟨-, ds, hds, hos⟩ := hrun
  rw [hds.own_eq] at hos
  rw [← hos]
  exact hds.account

/-- A provider is asked at most once. Every host begins discreet, and from each machine that is, to
any that operations leave or foreign code comes to, there is an account: it tells every question to
a provider, and of the entries of each id that their provider was asked at most once, before
anything else came of them, and that all they came to from then on is the same answer, unless some
provider has its own entry dealt with and so waits for ever. Once known the answer stays, and a
loaded entry is lowered to it with no effect at all. All that is told is done by operations. Each
does with entries what it is for, and that is all that is done unless foreign code carries out
operations as well. What asks a provider is for lowering a loaded entry, or for looking up a native
function, and comes where no answer is known. An entry is lowered in one of four ways. The account
of a startup, whole or in its two phases, has nothing of the entries of its own units. What is
compiled is what the answer says, and a method that is not compiled leaves no more than its
lowering. -/
theorem providers_asked_once (d : Nat) :
    ((∀ p, (Machine.ofProgram p).Discreet [] []) ∧
      ∀ G K m p, Machine.Discreet G K m → (m.enter p).Discreet G K) ∧
    (∀ n m op e, .asked e ∈ Op.deals n m op → e.isProvided = true ∧
      m.host.provided.get? e.id = none ∧
        (m.host.isLoaded e = true ∨ ∃ name, op = .dispatch (.nativeFunc name))) ∧
    ∀ (G K : List UnitHandle) (m : Machine), m.Discreet G K →
      let n := Nested.ofDepth d
      (∀ m', m.Later n m' → m'.Discreet G K ∧ Accounted K (d + 1) m [] m' ∧
        ∀ e answer, e.isProvided = true → m.host.provided.get? e.id = some answer →
          m'.host.isLoaded e = true →
          (Dispatch.lower n e).result m' = e.verdict answer ∧
            (Dispatch.lower n e).after m' = m') ∧
      (∀ op : Op, Accounted K d m (op.deals n m) ((op.perform n).after m) ∧
        (d = 0 → Account K d m (op.deals n m) ((op.perform n).after m))) ∧
      (∀ e, e.isProvided = true → Dispatch.Lowers n e m) ∧
      (let xs := m.declares.map (·.handle)
       Accounted (xs ++ K) d m [] ((Startup.initAll n).after m) ∧
       Accounted (xs ++ K) d m [] ((Startup.start n).after m) ∧
       ∀ rt, (Startup.start n).result m = .ok rt →
         ∀ e ∈ rt.registry.entries, ∃ x ∈ xs, e.owner = some x) ∧
      (∀ r, m.host.pending = some r →
        let m₁ := m.withHost { m.host with pending := none }
        Accounted (r.handles ++ K) d m₁ [] ((Startup.postInitAll n r).after m₁) ∧
        ∀ e ∈ r.entries, ∃ x ∈ r.handles, e.owner = some x) ∧
      (∀ rs method err, (Dispatch.compile n rs method).result m = .error err →
        (Dispatch.compile n rs method).after m = m.await (.calls rs.id) ∨
          ∃ e, rs.published.find? method = some e ∧
            let held := m.hold (.calls rs.id)
            (Dispatch.lower n e).result held = .error err ∧ (Dispatch.compile n rs method).after m =
              ((Dispatch.lower n e).after held).withLocks m.host.locks) ∧
      ∀ rt method c, m.host.runtime = some rt → (method, c) ∈ rt.replacements.compiled →
        ∃ e func, rt.replacements.published.find? method = some e ∧ c.plan = .ofEntry e func ∧
          (e.isProvided = true → m.host.provided.get? e.id = some (some func)) := by
  have hn : (Nested.ofDepth d).Recorded d := Nested.recorded_ofDepth d
  refine ⟨⟨.ofProgram, fun G K m p hd => hd.enter p⟩, fun _ _ _ _ => Op.of_asked_mem_deals,
    fun G K m hd => ⟨fun m' h => ?_, fun op => op.accounted d hd,
      fun e he => Dispatch.lowers hn hd he, ?_, fun r hr => ?_,
      fun rs method err h => Dispatch.after_compile_of_error h, ?_⟩⟩
  · obtain ⟨hd', haccounts⟩ := h.accounted hn hd
    refine ⟨hd', haccounts, fun e answer he hp hl => ?_⟩
    obtain ⟨ds, hds, -⟩ := haccounts
    exact Dispatch.lower_of_answer he hl (hds.kept _ _ hp)
  · have hstart := Startup.start_records hn hd
    refine ⟨(Startup.initAll_records hn hd).accounted, hstart.accounted, fun rt hrt e he => ?_⟩
    obtain ⟨howned, hhandles⟩ := hstart.1.2 rt hrt
    rw [← hhandles]
    exact howned e he
  · obtain ⟨hd₁, -⟩ := UnitOp.resume_records hd hr
    have hpost := Startup.postInitAll_records (r := r) hn hd₁ fun x hx =>
      List.mem_append_right G (List.mem_append_left K hx)
    exact ⟨hpost.accounted, (hd.orderly.host.pending r hr).1⟩
  · intro rt method c hrt hc
    obtain ⟨e, func, he, hf, rfl⟩ := (hd.orderly.host.runtime rt hrt).compiled method c hc
    refine ⟨e, func, he, rfl, fun hprovided => ?_⟩
    cases ht : e.target with
    | direct code => simp [Entry.isProvided, ht] at hprovided
    | provided provider data => simpa [Host.native?, ht, Option.join_eq_some_iff] using hf

def answeringSpec (name : String) : EntrySpec where
  unit := none
  method := ⟨"Answering", name, "()V"⟩
  nativeName := name
  func := some ⟨none, "code"⟩
  provider := some ⟨none, "provider"⟩
  tags := [6]

/-- A host whose provider answers one name only, with two entries that are lowered in turn. -/
def answering : Program where
  settings := {}
  source := { load := fun _ => .error .notBuiltIn, contains := fun _ => false }
  native := fun _ => none
  provider := fun _ => some fun name data => .done (if name = "square" then data else none)
  steps := [.dispatch (.entry (answeringSpec "square") "e"),
    .dispatch (.entry (answeringSpec "missing") "f"), .dispatch (.lower "e"),
    .dispatch (.lower "f"), .dispatch (.lower "e"), .dispatch (.lower "f")]

/-- Each entry has its provider asked by the first lowering, and comes to its answer from then on,
be there a function or not. -/
theorem providers_asked_once_answering :
    let m := Machine.ofProgram answering
    let m' := (answering.steps.mapM (Op.answer (.ofDepth 1))).after m
    m'.trace = [.asked (.single 0) ⟨none, "provider"⟩ "square" (some ⟨none, "code"⟩),
      .asked (.single 1) ⟨none, "provider"⟩ "missing" (some ⟨none, "code"⟩)] ∧
    (∃ ds k, Account [] 2 m ds m' ∧ looks (.single 0) ds =
      .asked :: .replicate (k + 1) (.found (some ⟨none, "code"⟩))) ∧
    ∀ e, m'.host.entries.get? "f" = some e → (Dispatch.lower (.ofDepth 1) e).result m' =
      .error (.nativeUnavailable ⟨"Answering", "missing", "()V"⟩ "missing") := by
  intro m m'
  obtain ⟨⟨hbegins, -⟩, -, hall⟩ := providers_asked_once 1
  obtain ⟨hd', ⟨ds, hds, -⟩, -⟩ : m'.Discreet [] [] ∧ Accounted [] 2 m [] m' ∧ _ :=
    (hall [] [] m (hbegins answering)).1 m' (.done answering.steps)
  have htrace : m'.trace = [.asked (.single 0) ⟨none, "provider"⟩ "square" (some ⟨none, "code"⟩),
      .asked (.single 1) ⟨none, "provider"⟩ "missing" (some ⟨none, "code"⟩)] := by decide +kernel
  have hknown : m'.host.provided.get? (.single 0) = some (some ⟨none, "code"⟩) := by
    decide +kernel
  have hentry : (m'.host.entries.get? "f").map (fun e => (e.isProvided, m'.host.isLoaded e,
      m'.host.provided.get? e.id, e.method, e.nativeName)) =
        some (true, true, some none, ⟨"Answering", "missing", "()V"⟩, "missing") := by
    decide +kernel
  have hs : m'.stuck = false := by decide +kernel
  clear_value m'
  refine ⟨htrace, ?_, fun e he => ?_⟩
  · have honce := hds.once hs (.single 0)
    have hnone : m.host.provided.get? (.single 0) = none := rfl
    rw [hnone, hknown] at honce
    generalize hls : looks (.single 0) ds = ls at honce
    cases honce with
    | asked answer k => exact ⟨ds, k, hds, hls⟩
  · rw [he, Option.map_some, Option.some_inj] at hentry
    simp only [Prod.mk.injEq] at hentry
    obtain ⟨hprovided, hl, hp, hmethod, hname⟩ := hentry
    obtain ⟨-, -, hlower⟩ := (hall [] [] m' hd').1 m' (.done [])
    rw [← hmethod, ← hname]
    exact (hlower e none hprovided hp hl).1

end AccelHost
