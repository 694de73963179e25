import AccelHost.Run
import Mathlib.Data.List.Forall2

/-!
What requests of units leave as it is. A request of a hook goes to the innermost session, whose
registry it may only extend, and to the flags of that session's host; the hosts are otherwise as
they were.
-/
namespace AccelHost

namespace Registry

/-- The handles of the units, in the order of their declaration. -/
def handles (r : Registry) : List UnitHandle := r.units.map (·.handle)

/-- Every entry is owned by a unit that is declared here. -/
def Owned (r : Registry) : Prop := ∀ e ∈ r.entries, ∃ x ∈ r.handles, e.owner = some x

/-- More entries of declared units, and nothing else new but the methods that units list. -/
structure Extends (r r' : Registry) : Prop where
  units : r'.units.map (fun u => { u with methods := [] }) =
    r.units.map fun u => { u with methods := [] }
  entries : ∃ es, r'.entries = r.entries ++ es ∧ ∀ e ∈ es, ∃ x ∈ r.handles, e.owner = some x

theorem Extends.refl (r : Registry) : r.Extends r := ⟨rfl, [], by simp, by simp⟩

theorem Extends.handles_eq {r r' : Registry} (h : r.Extends r') : r'.handles = r.handles := by
  simpa [handles, Function.comp_def] using congrArg (List.map DeclaredUnit.handle) h.units

theorem Extends.trans {r₁ r₂ r₃ : Registry} (h : r₁.Extends r₂) (h' : r₂.Extends r₃) :
    r₁.Extends r₃ := by
  obtain ⟨es, he, ho⟩ := h.entries
  obtain ⟨es', he', ho'⟩ := h'.entries
  refine ⟨h'.units.trans h.units, es ++ es', by rw [he', he, List.append_assoc], ?_⟩
  intro e hmem
  rcases List.mem_append.1 hmem with hm | hm
  · exact ho e hm
  · simpa only [h.handles_eq] using ho' e hm

theorem Owned.of_extends {r r' : Registry} (ho : r.Owned) (h : r.Extends r') : r'.Owned := by
  obtain ⟨es, he, hes⟩ := h.entries
  intro e hmem
  rw [he, List.mem_append] at hmem
  rw [h.handles_eq]
  exact hmem.elim (ho e) (hes e)

theorem mem_handles_of_unit? {r : Registry} {x : UnitHandle} {u : DeclaredUnit}
    (h : r.unit? x = some u) : x ∈ r.handles := by
  have hx : u.handle = x := by simpa using List.find?_some h
  exact List.mem_map.2 ⟨u, List.mem_of_find?_eq_some h, hx⟩

theorem register_eq {r r' : Registry} {option : UnitOption} {x : UnitHandle}
    (h : r.register option x = .ok r') :
    r' = { r with units := r.units ++ [{ handle := x, option }] } := by
  unfold register at h
  split at h
  · cases h
  · cases h
    rfl

theorem handles_register {r r' : Registry} {option : UnitOption} {x : UnitHandle}
    (h : r.register option x = .ok r') : r'.handles = r.handles ++ [x] := by
  simp [register_eq h, handles]

theorem mem_of_find? {r : Registry} {m : Method} {e : Entry} (h : r.find? m = some e) :
    e ∈ r.entries := List.mem_of_find?_eq_some h

@[simp] theorem handles_modifyUnit {r : Registry} {x : UnitHandle}
    {f : DeclaredUnit → DeclaredUnit} (hf : ∀ u, (f u).handle = u.handle) :
    (r.modifyUnit x f).handles = r.handles := by
  simp only [handles, modifyUnit, List.map_map]
  refine List.map_congr_left fun u _ => ?_
  by_cases hu : u.handle = x <;> simp [hu, hf]

theorem unit?_modifyUnit {r : Registry} {x : UnitHandle} {f : DeclaredUnit → DeclaredUnit}
    (hf : ∀ u, (f u).handle = u.handle) : (r.modifyUnit x f).unit? x = (r.unit? x).map f := by
  simp only [unit?, modifyUnit]
  induction r.units with
  | nil => rfl
  | cons u us ih =>
    by_cases hu : u.handle = x
    · simp [hu, hf]
    · simp [hu, ih]

theorem modifyUnit_modifyUnit {r : Registry} {x : UnitHandle} {f g : DeclaredUnit → DeclaredUnit}
    (hf : ∀ u, (f u).handle = u.handle) :
    (r.modifyUnit x f).modifyUnit x g = r.modifyUnit x fun u => g (f u) := by
  simp only [modifyUnit, List.map_map, mk.injEq, and_true]
  refine List.map_congr_left fun u _ => ?_
  by_cases hu : u.handle = x <;> simp [hu, hf]

theorem extends_of_registerEntries {r r' : Registry} {x : UnitHandle} {batch : List Entry}
    (h : r.registerEntries x batch = .ok r') : r.Extends r' := by
  unfold registerEntries at h
  split at h
  · cases h
  · rename_i u hu
    split at h
    · cases h
    · rename_i fresh hf
      cases h
      refine ⟨?_, fresh.map fun e => { e with owner := some x }, rfl, ?_⟩
      · simp only [modifyUnit, List.map_map]
        refine List.map_congr_left fun v _ => ?_
        by_cases hv : v.handle = x <;> simp [hv]
      · intro e he
        obtain ⟨e', _, rfl⟩ := List.mem_map.1 he
        exact ⟨x, mem_handles_of_unit? hu, rfl⟩

end Registry

/-- What a session comes to by answering some requests, whatever the flags of its host are
meanwhile. -/
inductive Session.Answers : Session → List (Callback × CallbackReply) → Session → Prop where
  | nil (s : Session) : Answers s [] s
  | cons {s s' : Session} {c : Callback} {log : List (Callback × CallbackReply)} (flags : Flags) :
    Answers ((s.answer flags c).2.1.noted c (s.answer flags c).1) log s' →
    Answers s ((c, (s.answer flags c).1) :: log) s'

theorem Session.Answers.append {s₁ s₂ s₃ : Session} {log log' : List (Callback × CallbackReply)}
    (h : s₁.Answers log s₂) (h' : s₂.Answers log' s₃) : s₁.Answers (log ++ log') s₃ := by
  induction h with
  | nil => exact h'
  | cons flags _ ih => exact .cons flags (ih h')

/-- A hook call that goes on: it is of the same unit, its registry has grown, and all that is new
comes from requests. -/
structure Session.Extends (s s' : Session) : Prop where
  handle : s'.handle = s.handle
  vmVersion : s'.vmVersion = s.vmVersion
  registry : s.registry.Extends s'.registry
  answers : ∃ log, s.Answers log s'

namespace Session.Extends

theorem refl (s : Session) : s.Extends s := ⟨rfl, rfl, .refl _, [], .nil s⟩

theorem trans {s₁ s₂ s₃ : Session} (h : s₁.Extends s₂) (h' : s₂.Extends s₃) : s₁.Extends s₃ := by
  obtain ⟨log, ha⟩ := h.answers
  obtain ⟨log', ha'⟩ := h'.answers
  exact ⟨h'.handle.trans h.handle, h'.vmVersion.trans h.vmVersion, h.registry.trans h'.registry,
    log ++ log', ha.append ha'⟩

end Session.Extends

theorem forall₂_trans {α : Type} {R : α → α → Prop}
    (hR : ∀ a b c, R a b → R b c → R a c) {as bs cs : List α} (h : List.Forall₂ R as bs)
    (h' : List.Forall₂ R bs cs) : List.Forall₂ R as cs := by
  induction h generalizing cs with
  | nil => exact h'
  | cons ha _ ih =>
    cases h' with
    | cons hb hbs => exact .cons (hR _ _ _ ha hb) (ih hbs)

namespace Session

variable (s : Session)

/-- A session before and after some work on a request: of the same unit, with a registry that has
grown, and with the same history. -/
structure Grows (s' : Session) : Prop where
  handle : s'.handle = s.handle
  vmVersion : s'.vmVersion = s.vmVersion
  registry : s.registry.Extends s'.registry
  history : s'.history = s.history

theorem Grows.refl : s.Grows s := ⟨rfl, rfl, .refl _, rfl⟩

theorem grows_register (u : DeclaredUnit) (e : Option RawEntry) :
    s.Grows (s.register u e).2 := by
  unfold register
  dsimp only
  split
  · rename_i r h
    split at h
    · cases h
    · split at h
      · cases h
      · exact ⟨rfl, rfl, Registry.extends_of_registerEntries h, rfl⟩
  · exact ⟨rfl, rfl, .refl _, rfl⟩

theorem grows_answerUnit (u : DeclaredUnit) (c : Callback) : s.Grows (s.answerUnit u c).2 := by
  cases c with
  | register _ e => exact s.grows_register u e
  | _ => exact .refl s

theorem grows_answerOwn (c : Callback) : s.Grows (s.answerOwn c).2 := by
  unfold answerOwn
  split
  · split
    · exact ⟨rfl, rfl, .refl _, rfl⟩
    · exact .refl s
  · split
    · exact s.grows_answerUnit _ c
    · exact .refl s

theorem grows_answerPlain (c : Callback) : s.Grows (s.answerPlain c).2 := by
  unfold answerPlain
  split
  · exact .refl s
  · split
    · exact .refl s
    · split
      · exact s.grows_answerOwn _
      · exact .refl s

/-- No request changes more of its session than the registry, the failure and the reports. -/
theorem grows_answer (flags : Flags) (c : Callback) : s.Grows (s.answer flags c).2.1 := by
  unfold answer
  split
  · exact .refl s
  · split
    · split <;> exact .refl s
    · exact .refl s
  · exact s.grows_answerPlain _

theorem extends_noted (flags : Flags) (c : Callback) :
    s.Extends ((s.answer flags c).2.1.noted c (s.answer flags c).1) := by
  have h := s.grows_answer flags c
  exact ⟨h.handle, h.vmVersion, h.registry, _, .cons flags (.nil _)⟩

theorem Answers.history_eq {s s' : Session} {log : List (Callback × CallbackReply)}
    (h : s.Answers log s') : s'.history = s.history ++ log := by
  induction h with
  | nil => rw [List.append_nil]
  | @cons s s' c log flags _ ih =>
    rw [ih, noted, (s.grows_answer flags c).history, List.append_assoc, List.singleton_append]

end Session

/-- A host after requests of hooks: sessions have grown, flags have changed. -/
structure Host.Waited (h h' : Host) : Prop where
  rest : h' = { h with sessions := h'.sessions, settings := h'.settings }
  settings : h'.settings = { h.settings with flags := h'.settings.flags }
  sessions : List.Forall₂ Session.Extends h.sessions h'.sessions

namespace Host.Waited

theorem refl (h : Host) : h.Waited h := ⟨rfl, rfl, List.forall₂_same.2 fun s _ => .refl s⟩

theorem trans {h₁ h₂ h₃ : Host} (h : h₁.Waited h₂) (h' : h₂.Waited h₃) : h₁.Waited h₃ := by
  refine ⟨?_, ?_, ?_⟩
  · rw [h'.rest, h.rest]
  · rw [h'.settings, h.settings]
  · exact forall₂_trans (fun _ _ _ s s' => s.trans s') h.sessions h'.sessions

variable {h h' : Host}

theorem source_eq (w : h.Waited h') : h'.source = h.source := by rw [w.rest]

theorem heap_eq (w : h.Waited h') : h'.heap = h.heap := by rw [w.rest]

theorem modules_eq (w : h.Waited h') : h'.modules = h.modules := by rw [w.rest]

theorem guards_eq (w : h.Waited h') : h'.guards = h.guards := by rw [w.rest]

end Host.Waited

/-- A request finds each host as it left it, but for the session that answers. -/
theorem waited_of_answerInnermost {c : Callback} {hosts hosts' : List Host} {reply : CallbackReply}
    (h : answerInnermost c hosts = some (reply, hosts')) :
    List.Forall₂ Host.Waited hosts hosts' := by
  induction hosts generalizing reply hosts' with
  | nil => cases h
  | cons host rest ih =>
    unfold answerInnermost at h
    split at h
    · rename_i s outer hs
      cases h
      refine .cons ⟨?_, rfl, ?_⟩ (List.forall₂_same.2 fun h _ => .refl h)
      · rfl
      · rw [hs]
        exact .cons (s.extends_noted _ c) (List.forall₂_same.2 fun s _ => .refl s)
    · rename_i hs
      obtain ⟨⟨r, rest'⟩, hr, he⟩ := Option.map_eq_some_iff.1 h
      cases he
      exact .cons (.refl host) (ih hr)

end AccelHost
