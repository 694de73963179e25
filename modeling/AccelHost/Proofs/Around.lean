import AccelHost.Proofs.Moves

/-!
What moves never do: they leave the program of the host at work and the hosts that wait, sessions
and their registries only grow, a number, a handle or an answer of a provider is never given up, and
what is stuck stays so.
-/
namespace AccelHost

/-- Replacements that are published in a host: their number, and what they publish. -/
structure Publication where
  ofRuntime : Bool
  id : Nat
  published : Registry

def Host.publications (h : Host) : List Publication :=
  (h.runtime.map fun r => ⟨true, r.replacements.id, r.replacements.published⟩).toList ++
    (h.bareReplacements.map fun s => ⟨false, s.id, s.published⟩).toList

/-- Whatever is done to replacements, the rest of the host stays. -/
theorem Host.modifyReplacements_eq (h : Host) (f : Replacements → Replacements) :
    ∃ r b, h.modifyReplacements f = { h with runtime := r, bareReplacements := b } := by
  unfold Host.modifyReplacements
  split
  · exact ⟨_, h.bareReplacements, rfl⟩
  · exact ⟨h.runtime, _, rfl⟩

/-- What every run of moves from one machine to another keeps. -/
structure Around (m m' : Machine) : Prop where
  sessions : List.Forall₂ Session.Extends m.host.sessions m'.host.sessions
  waiting : List.Forall₂ Host.Waited m.waiting m'.waiting
  settings : m'.host.settings = { m.host.settings with flags := m'.host.settings.flags }
  source : m'.host.source = m.host.source
  native : m'.host.native = m.host.native
  provider : m'.host.provider = m.host.provider
  nextHandle : m.nextHandle ≤ m'.nextHandle
  serial : m.host.serial ≤ m'.host.serial
  provided : ∀ id a, m.host.provided.get? id = some a → m'.host.provided.get? id = some a
  published : ∀ p ∈ m'.host.publications, p ∈ m.host.publications ∨ m.host.serial ≤ p.id
  stuck : m.stuck = true → m'.stuck = true

theorem Keyed.get?_set_of_none {κ ν : Type} [DecidableEq κ] {k k' : κ} {t : Keyed κ ν} {v w : ν}
    (hn : t.get? k = none) (h : t.get? k' = some w) : (t.set k v).get? k' = some w := by
  have hne : k ≠ k' := by
    rintro rfl
    rw [hn] at h
    cases h
  rw [Keyed.get?_set_of_ne hne, h]

namespace Around

theorem refl (m : Machine) : Around m m where
  sessions := List.forall₂_same.2 fun s _ => .refl s
  waiting := List.forall₂_same.2 fun h _ => .refl h
  settings := rfl
  source := rfl
  native := rfl
  provider := rfl
  nextHandle := Nat.le_refl _
  serial := Nat.le_refl _
  provided _ _ h := h
  published _ h := .inl h
  stuck h := h

theorem vmVersion {m m' : Machine} (h : Around m m') :
    m'.host.settings.vmVersion = m.host.settings.vmVersion := by rw [h.settings]

theorem trans {m₁ m₂ m₃ : Machine} (h : Around m₁ m₂) (h' : Around m₂ m₃) : Around m₁ m₃ where
  sessions := forall₂_trans (fun _ _ _ s s' => s.trans s') h.sessions h'.sessions
  waiting := forall₂_trans (fun _ _ _ w w' => w.trans w') h.waiting h'.waiting
  settings := by rw [h'.settings, h.settings]
  source := h'.source.trans h.source
  native := h'.native.trans h.native
  provider := h'.provider.trans h.provider
  nextHandle := Nat.le_trans h.nextHandle h'.nextHandle
  serial := Nat.le_trans h.serial h'.serial
  provided id a ha := h'.provided id a (h.provided id a ha)
  published p hp := by
    rcases h'.published p hp with hp | hp
    · exact h.published p hp
    · exact .inr (Nat.le_trans h.serial hp)
  stuck hs := h'.stuck (h.stuck hs)

theorem of_waited {m m' : Machine} (hh : m.host.Waited m'.host)
    (hw : List.Forall₂ Host.Waited m.waiting m'.waiting) (hn : m.nextHandle ≤ m'.nextHandle)
    (hs : m.stuck = true → m'.stuck = true) : Around m m' where
  sessions := hh.sessions
  waiting := hw
  settings := hh.settings
  source := hh.source_eq
  native := by rw [hh.rest]
  provider := by rw [hh.rest]
  nextHandle := hn
  serial := Nat.le_of_eq (by rw [hh.rest])
  provided := by rw [hh.rest]; exact fun _ _ h => h
  published p h := by
    rw [hh.rest] at h
    exact .inl h
  stuck := hs

theorem of_modifyReplacements (m : Machine) {f : Replacements → Replacements}
    (hid : ∀ s, (f s).id = s.id) (hp : ∀ s, (f s).published = s.published) :
    Around m (m.withHost (m.host.modifyReplacements f)) := by
  have hpub : (m.host.modifyReplacements f).publications = m.host.publications := by
    unfold Host.modifyReplacements Host.publications
    cases m.host.runtime <;> cases m.host.bareReplacements <;> simp [hid, hp]
  obtain ⟨r, b, hrest⟩ := m.host.modifyReplacements_eq f
  rw [hrest] at hpub ⊢
  exact { Around.refl m with published := fun p h => .inl (hpub ▸ h) }

theorem of_hook {m m' : Machine} {s : Session} (h : Around (m.push s) m') : Around m m'.pop := by
  have hs : List.Forall₂ Session.Extends m.host.sessions m'.host.sessions.tail := by
    have := h.sessions
    simp only [Machine.push, Machine.withHost] at this
    cases hm : m'.host.sessions with
    | nil => rw [hm] at this; cases this
    | cons s' rest => rw [hm] at this; cases this with | cons _ hrest => exact hrest
  exact { h with sessions := hs }

theorem waited_leave {m m' : Machine} {p : Program} (h : Around (m.enter p) m') :
    m.host.Waited m'.leave.host ∧ List.Forall₂ Host.Waited m.waiting m'.leave.waiting := by
  have hw := h.waiting
  simp only [Machine.enter] at hw
  cases hm : m'.waiting with
  | nil => rw [hm] at hw; cases hw
  | cons host waiting =>
    rw [hm] at hw
    cases hw with
    | cons hh hrest =>
      have hl : m'.leave = { m' with host, waiting } := by simp [Machine.leave, hm]
      rw [hl]
      exact ⟨hh, hrest⟩

theorem nextHandle_leave (m : Machine) : m.leave.nextHandle = m.nextHandle := by
  unfold Machine.leave
  split <;> rfl

theorem stuck_leave (m : Machine) : m.leave.stuck = m.stuck := by
  unfold Machine.leave
  split <;> rfl

theorem of_nested {m m' : Machine} {p : Program} (h : Around (m.enter p) m') :
    Around m m'.leave :=
  of_waited h.waited_leave.1 h.waited_leave.2 (by rw [nextHandle_leave]; exact h.nextHandle)
    (by rw [stuck_leave]; exact h.stuck)

end Around

theorem Moves.around {X Y : List Holding} {m m' : Machine} (h : Moves X m Y m') :
    Around m m' := by
  induction h with
  | perm => exact .refl _
  | trans _ _ ih₁ ih₂ => exact ih₁.trans ih₂
  | @quiet X m h j stuck hq hs =>
    rw [hq.rest]
    exact { Around.refl m with serial := hq.serial, stuck := hs }
  | @event X m => exact { Around.refl m with }
  | @heap X m => exact { Around.refl m with }
  | @pin X m => exact { Around.refl m with }
  | @unpin X m => exact { Around.refl m with }
  | @name X m => exact { Around.refl m with }
  | @unname X m => exact { Around.refl m with }
  | @unnameAll X m => exact { Around.refl m with }
  | callback hc =>
    cases waited_of_answerInnermost hc with
    | cons hh hw => exact .of_waited hh hw (Nat.le_refl _) id
  | hook _ ih => exact ih.of_hook
  | nested _ ih => exact ih.of_nested
  | @declare X m => exact { Around.refl m with nextHandle := Nat.le_succ _ }
  | @attach X m => exact { Around.refl m with }
  | @release X m => exact { Around.refl m with }
  | @suspend X m => exact { Around.refl m with }
  | @resume X m => exact { Around.refl m with }
  | @install X m r hn =>
    refine { Around.refl m with serial := Nat.le_succ _, published := ?_ }
    intro p hp
    simp only [Machine.withHost, Host.serve, Host.publications, hn] at hp ⊢
    simp only [Option.map_some, Option.toList_some, List.cons_append, List.nil_append,
      List.mem_cons, Option.map_none, Option.toList_none] at hp ⊢
    exact hp.elim (fun h => .inr (Nat.le_of_eq (by rw [h]))) .inl
  | @retire X m r hr =>
    refine { Around.refl m with published := fun p hp => .inl ?_ }
    simp only [Machine.withHost, Host.publications] at hp ⊢
    exact List.mem_append_right _ hp
  | @bareUnit X m => exact { Around.refl m with }
  | @bareEntries X m => exact { Around.refl m with }
  | @expose X m published =>
    refine { Around.refl m with serial := Nat.le_succ _, published := ?_ }
    intro p hp
    simp only [Machine.withHost, Host.expose, Host.publications, Option.map_some,
      Option.toList_some, List.mem_append, List.mem_singleton] at hp ⊢
    exact hp.elim (fun h => .inl (.inl h)) fun h => .inr (Nat.le_of_eq (by rw [h]))
  | @provide X m id answer hn =>
    refine { Around.refl m with provided := ?_ }
    exact fun id a ha => Keyed.get?_set_of_none hn ha
  | @cache X m => exact .of_modifyReplacements m (fun _ => rfl) fun _ => rfl
  | @discard X m => exact .refl m

end AccelHost
