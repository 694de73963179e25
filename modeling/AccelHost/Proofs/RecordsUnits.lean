import AccelHost.Proofs.PairedUnits
import AccelHost.Proofs.RecordsOps

/-!
Startup and shutdown, and the operations on units and runtimes, with their chronicles. Units of a
startup are in secret until they are active: what is done with entries meanwhile is done with
those of others.
-/
namespace AccelHost

open Holding

variable {n : Nested} {j : Nat} {G K : List UnitHandle} {m : Machine}
  {x : UnitHandle} {r : Registry}

namespace Machine

theorem Orderly.perm {G' : List UnitHandle} (ho : m.Orderly G) (hp : G'.Perm G) : m.Orderly G' :=
  ho.of_count (fun x => Nat.le_of_eq ((hp.append_right m.held).count_eq x)) rfl ho.host ho.waiting

namespace Discreet

theorem forget {xs : List UnitHandle} (hd : m.Discreet (xs ++ G) K) : m.Discreet G K :=
  ⟨(List.append_assoc xs G K ▸ hd.orderly).forget, hd.names⟩

theorem perm_secret {xs : List UnitHandle} (ho : m.Orderly (G ++ (xs ++ K))) :
    m.Orderly (xs ++ (G ++ K)) := ho.perm (List.perm_append_comm_assoc ..)

theorem forget_secret {xs : List UnitHandle} (hd : m.Discreet G (xs ++ K)) : m.Discreet G K where
  orderly := (perm_secret hd.orderly).forget
  names l e x hl hx := by
    obtain ⟨hlt, hK, hp⟩ := hd.names l e x hl hx
    exact ⟨hlt, fun hmem => hK (List.mem_append_right xs hmem), hp⟩

end Discreet

end Machine

namespace Startup

/-- The same units are in hand, and a registry is of the same units as another one. -/
abbrev Tends {α : Type} (G K : List UnitHandle) (r : Registry) (f : α → Registry) (a : α)
    (m' : Machine) : Prop :=
  m'.Discreet G K ∧ (f a).handles = r.handles

theorem callHook_records (hn : n.Recorded j) (hd : m.Discreet G K) (point : EntryPoint)
    (hook : UnitHandle → Behaviour Status) (r : Registry) :
    Records K j m (callHook n point hook r x) (Tends G K r fun e => e.session.registry) := by
  let s : Session := { handle := x, vmVersion := m.host.settings.vmVersion, registry := r }
  let m₁ : Machine := { m with trace := m.trace ++ [.entered point x] }
  have hpush : (m₁.push s).Discreet G K :=
    ⟨hd.orderly.of_same rfl { Host.Same.refl m.host with } rfl, hd.names⟩
  obtain ⟨hd₂, ds, hds, hos⟩ := hn.runCode hpush (hook x)
  have hext := (session_callHook (x := x) hn.lawful hd.orderly point hook r).registry
  have ho : ((callHook n point hook r x).after m).Orderly (G ++ K) :=
    hd₂.orderly.of_same rfl { Host.Same.refl _ with } rfl
  refine ⟨⟨⟨ho, hd₂.names⟩, hext.handles_eq⟩, [] ++ (ds ++ []), ?_, by simpa using hos⟩
  exact Chronicle.trans (.plain (.event rfl))
    (Chronicle.trans (.hook hds) (.plain (.event (m := Machine.pop _) rfl)))

theorem advance_records (hd : m.Discreet G K) (r : Registry) (next : UnitState) :
    Records K j m (advance r x next) (Tends G K r id) :=
  .trace rfl (.pure ⟨⟨hd.orderly.of_same rfl (.refl _) rfl, hd.names⟩,
    Registry.handles_modifyUnit fun _ => rfl⟩)

theorem attach_records (hd : m.Discreet G K) (hx : x ∈ G ++ K) (r : Registry) (mod : UnitModule) :
    Records K j m (attach r x mod) (Tends G K r id) := by
  have ho : ({ m with trace := m.trace ++ [.attached x] } : Machine).Orderly (G ++ K) :=
    hd.orderly.of_same rfl (.refl _) rfl
  let m₁ : Machine := { m with trace := m.trace ++ [.attached x] }
  have ho₁ : (m₁.withHost { m₁.host with
      modules := m₁.host.modules.set x mod
      loaded := m₁.host.loaded.set x true }).Orderly (G ++ K) :=
    Moves.orderly_in_hand (.attach (List.mem_map_of_mem hx)) ho
  refine .trace rfl (.modifyHost (.of_eq { Around.refl _ with } rfl rfl rfl rfl) ?_)
  refine Recounts.imp (advance_records ⟨ho₁, hd.names⟩ _ .loaded) fun _ _ h => ⟨h.1, h.2.trans ?_⟩
  exact Registry.handles_modifyUnit fun _ => rfl

theorem release_records (hd : m.Discreet G K) (hx : x ∈ G ++ K) :
    Records K j m (release x) (Stays G K) := by
  refine .host ?_
  split
  · have ho : ({ m with trace := m.trace ++ [.released x] } : Machine).Orderly (G ++ K) :=
      hd.orderly.of_same rfl (.refl _) rfl
    have ho₁ := Moves.orderly_in_hand (.release (List.mem_map_of_mem hx)) ho
    exact .trace rfl
      ⟨⟨ho₁, hd.names⟩, [], .plain (.of_eq { Around.refl _ with } rfl rfl rfl rfl), rfl⟩
  · exact .pure hd

theorem releaseAll_records (hd : m.Discreet G K) (hr : ∀ x ∈ r.handles, x ∈ G ++ K) :
    Records K j m (releaseAll r) (Stays G K) := by
  have hunits (us : List DeclaredUnit) (hus : ∀ u ∈ us, u.handle ∈ G ++ K) (m : Machine)
      (hd : m.Discreet G K) :
      Records K j m (us.forM fun u => release u.handle) (Stays G K) := by
    induction us generalizing m with
    | nil => exact .pure hd
    | cons u us ih =>
      refine .bind (release_records hd (hus u (by simp))) fun hd => ?_
      exact ih (fun v hv => hus v (List.mem_cons_of_mem u hv)) _ hd
  exact hunits r.units (fun u hu => hr _ (List.mem_map_of_mem hu)) m hd

/-! ### The end of units -/

theorem finalizeUnit_records (hn : n.Recorded j) (hd : m.Discreet G K) (r : Registry)
    (report : ShutdownReport) (x : UnitHandle) :
    Records K j m (finalizeUnit n r report x) (Tends G K r Prod.fst) := by
  unfold finalizeUnit
  cases r.unit? x with
  | none => exact .pure ⟨hd, rfl⟩
  | some u =>
    dsimp only
    split
    · exact .pure ⟨hd, rfl⟩
    · refine .host ?_
      have hlast {a : Registry} (failures : List (String × String)) {m : Machine}
          (ha : m.Discreet G K ∧ a.handles = r.handles) :
          let last : Work (Registry × ShutdownReport) := do
            let registry ← advance a x .finalized
            pure (registry, { finalized := report.finalized ++ [u.name],
                              failures := report.failures ++ failures })
          Records K j m last (Tends G K r Prod.fst) :=
        .bind (advance_records ha.1 a .finalized) fun h => .pure ⟨h.1, h.2.trans ha.2⟩
      cases (m.host.modules.get? x).bind (·.finalize) with
      | none => exact hlast [] ⟨hd, rfl⟩
      | some hook => exact .bind (callHook_records hn hd _ hook r) fun h => hlast _ h

theorem finalizeUnits_records (hn : n.Recorded j) (hd : m.Discreet G K) (xs : List UnitHandle)
    (r : Registry) (report : ShutdownReport) :
    Records K j m (finalizeUnits n r report xs) (Tends G K r Prod.fst) := by
  induction xs generalizing r report m with
  | nil => exact .pure ⟨hd, rfl⟩
  | cons x xs ih =>
    refine .bind (finalizeUnit_records hn hd r report x) fun h => ?_
    exact (ih h.1 _ _).imp fun _ _ h' => ⟨h'.1, h'.2.trans h.2⟩

theorem finalizeAll_records (hn : n.Recorded j) (hd : m.Discreet G K)
    (hr : ∀ x ∈ r.handles, x ∈ G ++ K) :
    Records K j m (finalizeAll n r) (Tends G K r Prod.fst) :=
  .bind (finalizeUnits_records hn hd _ r {}) fun h =>
    .bind (releaseAll_records h.1 (h.2 ▸ hr)) fun hd => .pure ⟨hd, h.2⟩

theorem abort_records (hn : n.Recorded j) (hd : m.Discreet G K)
    (hr : ∀ x ∈ r.handles, x ∈ G ++ K) : Records K j m (abort n r) (Stays G K) :=
  .bind (finalizeAll_records hn hd hr) fun h => releaseAll_records h.1 (h.2 ▸ hr)

theorem finalize_records (hn : n.Recorded j) (hd : m.Discreet G K) {rt : Runtime}
    (hr : ∀ x ∈ rt.registry.handles, x ∈ G ++ K) :
    Records K j m (finalize n rt) (Tends G K rt.registry fun a => a.1.registry) := by
  unfold finalize
  split
  · exact .pure ⟨hd, rfl⟩
  · exact .bind (finalizeAll_records hn hd hr) fun h => .pure h

theorem drop_records (hn : n.Recorded j) (hd : m.Discreet G K) {rt : Runtime}
    (hr : ∀ x ∈ rt.registry.handles, x ∈ G ++ K) : Records K j m (drop n rt) (Stays G K) :=
  .bind (finalize_records hn hd hr) fun h => releaseAll_records h.1 (h.2 ▸ hr)

theorem shutdown_records (hn : n.Recorded j) (hd : m.Discreet G K) {rt : Runtime}
    (hr : ∀ x ∈ rt.registry.handles, x ∈ G ++ K) : Records K j m (shutdown n rt) (Stays G K) :=
  .bind (finalize_records hn hd hr) fun h =>
    .bind (drop_records hn h.1 (h.2 ▸ hr)) fun hd => .pure hd

/-! ### The start of units -/

theorem initUnit_records (hn : n.Recorded j) (hd : m.Discreet G K) (r : Registry) {u : DeclaredUnit}
    (hu : u.handle ∈ G ++ K) : Records K j m (initUnit n r u) (Tends G K r Prod.snd) := by
  refine .host ?_
  split
  · exact .pure ⟨hd, rfl⟩
  · rename_i mod init exports _
    refine .bind (attach_records hd hu r mod) fun h₁ => ?_
    refine .bind (callHook_records hn h₁.1 .init init _) fun h₂ => ?_
    have hunits := h₂.2.trans h₁.2
    dsimp only
    split
    · exact .bind (advance_records h₂.1 _ .initFailed) fun h₃ =>
        .pure ⟨h₃.1, h₃.2.trans hunits⟩
    · refine .bind (advance_records h₂.1 _ .activePending) fun h₃ => .trace rfl ?_
      refine .bind (hn.runCode (h₃.1.told _) exports) fun hd₅ => ?_
      split
      · rename_i hok
        obtain ⟨es, _, hes⟩ := exists_of_bind_eq_ok hok
        have hext := Registry.extends_of_registerEntries hes
        exact .pure ⟨hd₅, hext.handles_eq.trans (h₃.2.trans hunits)⟩
      · exact .pure ⟨hd₅, h₃.2.trans hunits⟩

theorem initUnits_records (hn : n.Recorded j) (hd : m.Discreet G K) (us : List DeclaredUnit)
    (hus : ∀ u ∈ us, u.handle ∈ G ++ K) (r : Registry) :
    Records K j m (initUnits n r us) (Tends G K r Prod.snd) := by
  induction us generalizing r m with
  | nil => exact .pure ⟨hd, rfl⟩
  | cons u us ih =>
    refine .bind (initUnit_records hn hd r (hus u (by simp))) fun h => ?_
    split
    · rename_i registry hres
      rw [hres] at h
      refine (ih h.1 (fun v hv => hus v (List.mem_cons_of_mem u hv)) registry).imp ?_
      exact fun _ _ h' => ⟨h'.1, h'.2.trans h.2⟩
    · rename_i hres
      rw [hres] at h
      exact .pure h

theorem postInitUnit_records (hn : n.Recorded j) (hd : m.Discreet G K) (r : Registry)
    (x : UnitHandle) : Records K j m (postInitUnit n r x) (Tends G K r Prod.snd) := by
  refine .host ?_
  have hlast (error : Option StartupError) {a : Registry} (next : UnitState) {m : Machine}
      (ha : m.Discreet G K ∧ a.handles = r.handles) :
      let last : Work (Option StartupError × Registry) := do return (error, ← advance a x next)
      Records K j m last (Tends G K r Prod.snd) :=
    .bind (advance_records ha.1 a next) fun h => .pure ⟨h.1, h.2.trans ha.2⟩
  cases (m.host.modules.get? x).bind (·.postInit) with
  | none => exact hlast none .active ⟨hd, rfl⟩
  | some hook =>
    refine .bind (callHook_records hn hd _ hook r) fun h => ?_
    dsimp only
    split
    · exact hlast _ .postInitFailed h
    · exact hlast none .active h

theorem postInitUnits_records (hn : n.Recorded j) (hd : m.Discreet G K) (xs : List UnitHandle)
    (r : Registry) : Records K j m (postInitUnits n r xs) (Tends G K r Prod.snd) := by
  induction xs generalizing r m with
  | nil => exact .pure ⟨hd, rfl⟩
  | cons x xs ih =>
    refine .bind (postInitUnit_records hn hd r x) fun h => ?_
    split
    · rename_i registry hres
      rw [hres] at h
      exact (ih h.1 registry).imp fun _ _ h' => ⟨h'.1, h'.2.trans h.2⟩
    · rename_i hres
      rw [hres] at h
      exact .pure h

/-- What a phase comes to: the same units are in hand, and the registry is of the same units. -/
abbrev Phase (G K : List UnitHandle) (r : Registry) (res : Except StartupError Registry)
    (m' : Machine) : Prop :=
  m'.Discreet G K ∧ ∀ r', res = .ok r' → r'.handles = r.handles

theorem undone_records (hn : n.Recorded j) (hr : ∀ x ∈ r.handles, x ∈ G ++ K)
    {w : Work (Option StartupError × Registry)} (hw : Records K j m w (Tends G K r Prod.snd)) :
    let phase : Work (Except StartupError Registry) := do
      match ← w with
      | (none, registry) => return .ok registry
      | (some e, registry) =>
        abort n registry
        return .error e
    Records K j m phase (Phase G K r) := by
  refine .bind hw fun h => ?_
  split
  · rename_i hres
    rw [hres] at h
    exact .pure ⟨h.1, fun r' hr' => by cases hr'; exact h.2⟩
  · rename_i hres
    rw [hres] at h
    exact .bind (abort_records hn h.1 (h.2 ▸ hr)) fun hd => .pure ⟨hd, fun _ h => by cases h⟩

theorem postInitAll_records (hn : n.Recorded j) (hd : m.Discreet G K)
    (hr : ∀ x ∈ r.handles, x ∈ G ++ K) : Records K j m (postInitAll n r) (Phase G K r) :=
  undone_records hn hr (postInitUnits_records hn hd _ r)

theorem afterDeclares_discreet (hd : m.Discreet G K) :
    m.afterDeclares.Discreet G (m.declares.map (·.handle) ++ K) := by
  have ho := (orderly_afterDeclares (X := []) hd.orderly (moves_afterDeclares [] m)).1
  refine ⟨ho.perm (List.perm_append_comm_assoc ..), fun l e x hl hx => ?_⟩
  obtain ⟨hlt, hK, hp⟩ := hd.names l e x hl hx
  refine ⟨Nat.lt_of_lt_of_le hlt (Nat.le_add_right _ _), fun hmem => ?_, hp⟩
  rcases List.mem_append.1 hmem with hmem | hmem
  · obtain ⟨u, hu, rfl⟩ := List.mem_map.1 hmem
    exact Nat.not_lt.2 (Machine.mem_declares hu) hlt
  · exact hK hmem

theorem initAll_records (hn : n.Recorded j) (hd : m.Discreet G K) :
    let xs := m.declares.map (·.handle)
    Records (xs ++ K) j m (initAll n) fun res m' =>
      m'.Discreet G (xs ++ K) ∧ ∀ r, res = .ok r → r.handles = xs := by
  intro xs
  have hd₁ := afterDeclares_discreet hd
  have hdeclares (k : Nat) : Plain m { m with nextHandle := m.nextHandle + k } :=
    .of_eq { Around.refl m with nextHandle := Nat.le_add_right _ _ } rfl rfl rfl rfl
  cases initAll_cases n m with
  | @refused e k hrefused hres haft =>
    have hxs : xs = [] := by simp [xs, declares_of_refused hrefused]
    have ho := ((Moves.skip (X := []) k m hd.orderly.host.modules).orderly hd.orderly).1
    rw [Records, Recounts, hres, haft, hxs]
    exact ⟨⟨hd.of_names ho rfl (fun _ hx => .inl hx) (Nat.le_add_right _ _), fun _ h => by cases h⟩,
      [], .plain (hdeclares k), rfl⟩
  | off hoff hres haft =>
    have hxs : xs = [] := by simp [xs, (declares_of_off hoff).1]
    rw [Records, Recounts, hres, haft, hxs]
    exact ⟨⟨hd, fun r hr => by cases hr; rfl⟩, [], .refl _ m, rfl⟩
  | loaded _ _ _ hres haft =>
    let r : Registry := { units := m.declares }
    have hr : ∀ x ∈ r.handles, x ∈ G ++ (xs ++ K) := fun x hx =>
      List.mem_append_right G (List.mem_append_left K hx)
    have hus : ∀ u ∈ m.declares, u.handle ∈ G ++ (xs ++ K) := fun u hu =>
      hr _ (List.mem_map_of_mem hu)
    have hload : Records (xs ++ K) j m.afterDeclares (loadAll n r) (Phase G (xs ++ K) r) :=
      undone_records hn hr (initUnits_records hn hd₁ m.declares hus r)
    obtain ⟨hphase, ds, hds, hos⟩ := hload
    rw [Records, Recounts, hres, haft]
    exact ⟨hphase, [] ++ ds, Chronicle.trans (.plain (hdeclares _)) hds, hos⟩

/-- Both phases. The units of a startup are in secret through all of it. -/
theorem start_records (hn : n.Recorded j) (hd : m.Discreet G K) :
    let xs := m.declares.map (·.handle)
    Records (xs ++ K) j m (start n) fun res m' =>
      m'.Discreet G (xs ++ K) ∧
        ∀ rt, res = .ok rt → rt.registry.Owned ∧ rt.registry.handles = xs := by
  intro xs
  have ho : m.Orderly (Holding.units [] ++ (G ++ K)) := hd.orderly
  refine .bind (initAll_records hn hd) fun ⟨hd₁, hinit⟩ => ?_
  cases h : (initAll n).result m with
  | error e => exact .pure ⟨hd₁, fun _ h => by cases h⟩
  | ok r =>
    have hhandles : r.handles = xs := hinit r h
    have hholds := holds_of_initAll hn.lawful ho h
    have hr : ∀ x ∈ r.handles, x ∈ G ++ (xs ++ K) := fun x hx =>
      List.mem_append_right G (List.mem_append_left K (hhandles ▸ hx))
    have ho₁ : ((initAll n).after m).Orderly
        (Holding.units (ofUnits r.handles ++ []) ++ (G ++ K)) := by
      simpa [hhandles] using Machine.Discreet.perm_secret hd₁.orderly
    refine .bind (postInitAll_records hn hd₁ hr) fun ⟨hd₂, hpost⟩ => ?_
    cases h' : (postInitAll n r).result ((initAll n).after m) with
    | error e => exact .pure ⟨hd₂, fun _ h => by cases h⟩
    | ok r' =>
      have hholds' := holds_of_postInitAll hn.lawful ho₁ hholds h'
      have hpublish : Records (xs ++ K) j _ (publish r') (Stays G (xs ++ K)) :=
        .bind (.fresh hd₂) fun hd₃ => .pure hd₃
      refine .bind hpublish fun hd₃ => .pure ⟨hd₃, fun rt hrt => ?_⟩
      cases hrt
      exact ⟨hholds'.1, (hpost r' h').trans hhandles⟩

end Startup

end AccelHost
