import AccelHost.Proofs.CheckedEntries
import AccelHost.Proofs.Coherence
import AccelHost.Proofs.Lifetime
import AccelHost.Proofs.Retained
import AccelHost.Proofs.StartupOutcome

/-!
What a startup publishes. Entries come into its registry in two ways, from a hook and from a table,
and both ways lead through the same check. A registry stays sound through every phase: its units and
entries belong together, and each entry was checked.
-/
namespace AccelHost

open Holding

namespace Registry

/-- A coherent registry of entries that were checked. -/
structure Sound (r : Registry) : Prop extends r.Coherent where
  checked : ∀ e ∈ r.entries, e.Checked

variable {r r' : Registry} {x : UnitHandle}

/-- Entries that can be called, each of an active unit that lists its method. -/
structure WellFormed (r : Registry) : Prop where
  entries : ∀ e ∈ r.entries, e.WellFormed
  owned : ∀ e ∈ r.entries, ∃ u ∈ r.units, u.state = .active ∧ e.method ∈ u.methods ∧
    e.owner = some u.handle ∧ e.unit = u.name
  /-- Native names are those of the entries. -/
  native : ∀ name, r.isNativeName name = true ↔ ∃ e ∈ r.entries, e.nativeName = name

theorem sound_empty : Sound {} := { coherent_empty with checked := List.forall_mem_nil _ }

namespace Sound

theorem modifyUnit {f : DeclaredUnit → DeclaredUnit} (h : r.Sound)
    (hhandle : ∀ u, (f u).handle = u.handle) (hoption : ∀ u, (f u).option = u.option)
    (hmethods : ∀ u, (f u).methods = u.methods) : (r.modifyUnit x f).Sound :=
  { h.toCoherent.modifyUnit hhandle hoption hmethods with checked := h.checked }

theorem setState (h : r.Sound) (x : UnitHandle) (next : UnitState) :
    (r.modifyUnit x fun u => { u with state := next }).Sound :=
  h.modifyUnit (fun _ => rfl) (fun _ => rfl) fun _ => rfl

theorem registerEntries {u : DeclaredUnit} {batch : List Entry} (h : r.Sound)
    (hu : r.unit? x = some u) (hbatch : ∀ e ∈ batch, ∃ raw : RawEntry, raw.check u.name = .ok e)
    (hr : r.registerEntries x batch = .ok r') : r'.Sound := by
  have hunit : ∀ v, r.unit? x = some v → ∀ e ∈ batch, e.unit = v.name := by
    intro v hv e he
    obtain ⟨raw, hcheck⟩ := hbatch e he
    rw [RawEntry.unit_of_check hcheck]
    rw [hu, Option.some.injEq] at hv
    rw [hv]
  obtain ⟨v, fresh, -, hnew, hentries, -⟩ := registerEntries_eq_ok h.distinct hunit hr
  refine { h.toCoherent.registerEntries hunit hr with checked := ?_ }
  rw [hentries]
  refine List.forall_mem_append.2 ⟨h.checked, fun e he => ?_⟩
  obtain ⟨f, hf, rfl⟩ := List.mem_map.1 he
  obtain ⟨raw, hcheck⟩ := hbatch f (hnew.mem hf)
  exact (Entry.checked_of_check hcheck).ownedBy x

theorem wellFormed (h : r.Sound) (hactive : ∀ u ∈ r.units, u.state = .active) : r.WellFormed where
  entries e he := (h.checked e he).wellFormed
  owned e he := by
    obtain ⟨u, hu, howner, hunit⟩ := h.owned e he
    exact ⟨u, hu, hactive u hu, (h.mem_methods_iff hu he).2 howner, howner, hunit⟩
  native name := by simp [isNativeName]

end Sound

end Registry

namespace Session

variable {s s' : Session}

theorem sound_register {u : DeclaredUnit} (h : s.registry.Sound) (hu : s.unit? = some u)
    (entry : Option RawEntry) : (s.register u entry).2.registry.Sound := by
  unfold register
  dsimp only
  split
  · rename_i registry hreg
    split at hreg
    · cases hreg
    · split at hreg
      · cases hreg
      · rename_i hcheck
        exact h.registerEntries hu (List.forall_mem_singleton.2 ⟨_, hcheck⟩) hreg
  · exact h

/-- A session that does not know its unit registers nothing. -/
theorem answer_register_of_none (h : s.unit? = none) (flags : Flags) (entry : Option RawEntry) :
    (s.answer flags (.register s.handle entry)).2.1 = s := by
  rw [s.answer_of_own rfl (by simp) (by simp), h]

theorem sound_answer (h : s.registry.Sound) (flags : Flags) (c : Callback) :
    (s.answer flags c).2.1.registry.Sound := by
  by_cases hc : ∃ entry, c = .register s.handle entry
  · obtain ⟨entry, rfl⟩ := hc
    cases hu : s.unit? with
    | none =>
      rw [answer_register_of_none hu]
      exact h
    | some u =>
      rw [answer_register hu]
      exact sound_register h hu entry
  · rw [(answer_other (fun entry heq => hc ⟨entry, heq⟩) flags).1]
    exact h

theorem Answers.sound {log : List (Callback × CallbackReply)} (ha : s.Answers log s')
    (h : s.registry.Sound) : s'.registry.Sound := by
  induction ha with
  | nil => exact h
  | cons flags _ ih => exact ih (sound_answer h flags _)

end Session

namespace Startup

variable {n : Nested} {G : List UnitHandle} {us : List DeclaredUnit}
  {σ : UnitHandle → UnitState} {r : Registry} {m : Machine} {u : DeclaredUnit}

/-! ### Phases -/

theorem callHook_sound (hn : n.Lawful) (ho : m.Orderly G) (point : EntryPoint)
    (hook : UnitHandle → Behaviour Status) (h : r.Sound) (x : UnitHandle) :
    ((callHook n point hook r x).result m).session.registry.Sound := by
  obtain ⟨log, hanswers⟩ := (session_callHook (x := x) hn ho point hook r).answers
  exact hanswers.sound h

theorem table_sound {v : DeclaredUnit} (h : r.Sound) (hv : r.unit? u.handle = some v)
    (hname : v.name = u.name) {table : Option ExportTable} {r' : Registry}
    (hr : (ExportTable.read u.name table).bind (r.registerEntries u.handle) = .ok r') :
    r'.Sound := by
  cases hread : ExportTable.read u.name table with
  | error err =>
    rw [hread] at hr
    cases hr
  | ok batch =>
    rw [hread] at hr
    exact h.registerEntries hv (hname ▸ ExportTable.exists_check_of_read hread) hr

theorem initUnit_sound (hn : n.Lawful) (ho : m.Orderly (us.map (·.handle) ++ G))
    (hr : r.Reads us σ) (hown : r.Owned) (hu : u ∈ us) (hs : σ u.handle = .parsed) (h : r.Sound) :
    ((initUnit n r u).result m).2.Sound := by
  have hnodup := ho.nodup
  have hx : u.handle ∈ us.map (·.handle) := List.mem_map_of_mem hu
  cases hload : load m.host.source u with
  | error err =>
    unfold initUnit
    simp only [Work.result_bind, Work.result_host, Work.after_host, hload, Work.result_pure]
    exact h
  | ok loaded =>
    obtain ⟨mod, init, exports⟩ := loaded
    obtain ⟨-, -, hreads, -⟩ :=
      begun_does (X := []) hn ho hr hown hu hs (load_eq_ok hload) init
    obtain ⟨hd, -, hattached⟩ := attach_does (X := []) (m := m) hx r mod
    have hsound : ((attach r u.handle mod).result m).Sound := by
      rw [hattached]
      exact h.modifyUnit (fun _ => rfl) (fun _ => rfl) fun _ => rfl
    have hcall := callHook_sound hn (hd.orderly ho) .init init hsound u.handle
    rw [result_initUnit hload]
    change ((initCall n r u mod init).result m).session.registry.Reads us _ at hreads
    change ((initCall n r u mod init).result m).session.registry.Sound at hcall
    generalize (initCall n r u mod init).result m = e at hreads hcall ⊢
    cases e.error? .init u.name .initFailed with
    | some err => exact hcall.setState _ _
    | none =>
      have hpending := (advance_reads (X := []) (m := m) hreads hnodup hu .activePending).2
      obtain ⟨v, hv, hoption, -⟩ := hpending.unit? hnodup hu
      have hname : v.name = u.name := congrArg UnitOption.displayName hoption
      dsimp only
      split
      · rename_i r' htable
        exact table_sound (hcall.setState _ _) hv hname htable
      · exact hcall.setState _ _

theorem initUnits_sound (hn : n.Lawful) (vs : List DeclaredUnit)
    (hw : Awaits G us vs .parsed σ r m) (h : r.Sound) :
    ((initUnits n r vs).result m).2.Sound := by
  induction vs generalizing r σ m with
  | nil => exact h
  | cons v vs ih =>
    have hfirst := initUnit_sound hn hw.orderly hw.reads hw.owned hw.head_mem hw.head_state h
    have hnext (r' : Registry) (hres : (initUnit n r v).result m = (none, r')) :=
      hw.next (X := []) hn hres
    simp only [initUnits, Work.result_bind]
    generalize (initUnit n r v).result m = res at hfirst hnext ⊢
    obtain ⟨error, r₁⟩ := res
    cases error with
    | some err => exact hfirst
    | none => exact ih (hnext r₁ rfl).1 hfirst

theorem postInitUnit_sound (hn : n.Lawful) (ho : m.Orderly G) (h : r.Sound) (x : UnitHandle) :
    ((postInitUnit n r x).result m).2.Sound := by
  unfold postInitUnit
  simp only [Work.result_bind, Work.result_host, Work.after_host]
  cases (m.host.modules.get? x).bind (·.postInit) with
  | none => exact h.setState _ _
  | some hook =>
    have hcall := callHook_sound hn ho .postInit hook h x
    simp only [Work.result_bind]
    generalize (callHook n .postInit hook r x).result m = e at hcall ⊢
    cases e.error? .postInit _ .postInitFailed with
    | some err => exact hcall.setState _ _
    | none => exact hcall.setState _ _

theorem postInitUnits_sound (hn : n.Lawful) (vs : List DeclaredUnit)
    (hw : Awaits G us vs .activePending σ r m) (ha : ∀ v ∈ vs, m.Attached v) (h : r.Sound) :
    ((postInitUnits n r (vs.map (·.handle))).result m).2.Sound := by
  induction vs generalizing r σ m with
  | nil => exact h
  | cons v vs ih =>
    have hfirst := postInitUnit_sound hn hw.orderly h v.handle
    have hnext (r' : Registry) (hres : (postInitUnit n r v.handle).result m = (none, r')) :=
      hw.nextPostInit (X := []) hn ha hres
    simp only [List.map_cons, postInitUnits, Work.result_bind]
    generalize (postInitUnit n r v.handle).result m = res at hfirst hnext ⊢
    obtain ⟨error, r₁⟩ := res
    cases error with
    | some err => exact hfirst
    | none =>
      obtain ⟨hawaits, hattached, -⟩ := hnext r₁ rfl
      exact ih hawaits hattached hfirst

/-! ### Whole startups -/

theorem parsed_of_parseAll {texts : List String} {options : List UnitOption}
    (h : parseAll texts = .ok options) :
    ∀ option ∈ options, ∃ text ∈ texts, UnitOption.parse text = .ok option := by
  induction texts generalizing options with
  | nil =>
    cases h
    exact List.forall_mem_nil _
  | cons text texts ih =>
    unfold parseAll at h
    cases hp : UnitOption.parse text with
    | error fault =>
      rw [hp] at h
      cases h
    | ok option =>
      cases hrest : parseAll texts with
      | error err =>
        rw [hp, hrest] at h
        cases h
      | ok rest =>
        rw [hp, hrest] at h
        cases h
        refine List.forall_mem_cons.2 ⟨⟨text, List.mem_cons_self, hp⟩, fun o ho => ?_⟩
        obtain ⟨text', hmem, hp'⟩ := ih hrest o ho
        exact ⟨text', List.mem_cons_of_mem _ hmem, hp'⟩

theorem options_declared (next : UnitHandle) (options : List UnitOption) :
    (declared next options).map (·.option) = options := by
  induction options generalizing next with
  | nil => rfl
  | cons option rest ih => rw [declared, List.map_cons, ih]

theorem methods_declared {next : UnitHandle} {options : List UnitOption} :
    ∀ u ∈ declared next options, u.methods = [] := by
  induction options generalizing next with
  | nil => exact List.forall_mem_nil _
  | cons option rest ih => exact List.forall_mem_cons.2 ⟨rfl, ih⟩

theorem sound_declared {next : UnitHandle} {options : List UnitOption}
    (hparsed : ∀ option ∈ options, ∃ text, UnitOption.parse text = .ok option)
    (hfeatures : (options.map (·.feature)).Nodup)
    (hhandles : ((declared next options).map (·.handle)).Nodup) :
    Registry.Sound { units := declared next options } where
  parsed u hu := hparsed _ (options_declared next options ▸ List.mem_map_of_mem hu)
  handles := hhandles
  features := by
    have hmap := congrArg (List.map UnitOption.feature) (options_declared next options)
    rw [List.map_map] at hmap
    exact hmap ▸ hfeatures
  methods := methods_declared
  distinct := List.nodup_nil
  owned := List.forall_mem_nil _
  checked := List.forall_mem_nil _

theorem initAll_sound (hn : n.Lawful) (ho : m.Orderly G) (h : (initAll n).result m = .ok r) :
    r.Sound := by
  have ho₁ := (orderly_afterDeclares (X := []) ho (moves_afterDeclares [] m)).1
  cases initAll_cases n m with
  | refused _ hres _ =>
    rw [hres] at h
    cases h
  | off _ hres _ =>
    rw [hres] at h
    cases h
    exact Registry.sound_empty
  | @loaded options hp hd hdecl hres _ =>
    have hsound : Registry.Sound { units := m.declares } := by
      have hnodup := ho₁.nodup
      rw [hdecl] at hnodup ⊢
      have hparsed : ∀ option ∈ options, ∃ text, UnitOption.parse text = .ok option := by
        intro option hoption
        obtain ⟨text, -, hparse⟩ := parsed_of_parseAll hp option hoption
        exact ⟨text, hparse⟩
      exact sound_declared hparsed hd hnodup
    have hreads : Registry.Reads { units := m.declares } m.declares fun _ => .parsed := by
      rw [hdecl]
      exact reads_declared rfl
    have hloaded := initUnits_sound hn m.declares
      (.all ho₁ hreads fun _ hmem => by cases hmem) hsound
    rw [hres, result_loadAll] at h
    generalize (initUnits n { units := m.declares } m.declares).result m.afterDeclares = res
      at h hloaded
    obtain ⟨_ | err, r'⟩ := res
    · cases h
      exact hloaded
    · cases h

/-- What the second phase completes is sound, and all its units are active. -/
theorem Pending.sound {r' : Registry} {m₁ : Machine} (hp : Pending n m r m₁) (hn : n.Lawful)
    (ho : m.Orderly G) (hr : (postInitAll n r).result m₁ = .ok r') :
    r'.Sound ∧ ∀ u ∈ r'.units, u.state = .active := by
  obtain ⟨-, -, -, hstands, ho₁⟩ := hp.does hn ho
  have hsound := postInitUnits_sound hn m.declares (.all ho₁ hstands.reads hstands.owned)
    hstands.attached (initAll_sound hn ho hp.initialized)
  have hend := postInitAll_end (X := []) (G := G) hn ho₁ hstands
  rw [hr] at hend
  rw [result_postInitAll hstands.reads.handles_eq] at hr
  generalize (postInitUnits n r (m.declares.map (·.handle))).result m₁ = res at hr hsound
  obtain ⟨_ | err, r'⟩ := res
  · cases hr
    cases hend with
    | done _ _ hactive => exact ⟨hsound, fun u hu => (hactive.holds.2 u hu).1⟩
  · cases hr

theorem Pending.wellFormed {r' : Registry} {m₁ : Machine} (hp : Pending n m r m₁) (hn : n.Lawful)
    (ho : m.Orderly G) (hr : (postInitAll n r).result m₁ = .ok r') : r'.WellFormed := by
  obtain ⟨hsound, hactive⟩ := hp.sound hn ho hr
  exact hsound.wellFormed hactive

theorem exists_pending_of_start {rt : Runtime} (h : (start n).result m = .ok rt) :
    ∃ r m₁, Pending n m r m₁ ∧ (postInitAll n r).result m₁ = .ok rt.replacements.published := by
  cases hinit : (initAll n).result m with
  | error err =>
    rw [(result_start_of_initAll_error hinit).1] at h
    cases h
  | ok r =>
    cases hpost : (postInitAll n r).result ((initAll n).after m) with
    | error err =>
      rw [(result_start_of_error hinit hpost).1] at h
      cases h
    | ok r' =>
      rw [(result_start_of_ok hinit hpost).1] at h
      cases h
      exact ⟨r, _, pending_of_initAll hinit, hpost⟩

/-- A runtime publishes the same for as long as it is in use. -/
theorem Running.exists_pending {rt : Runtime} {m' : Machine} (h : Running n m rt m') (hn : n.Lawful)
    (ho : m.Orderly G) :
    ∃ r m₁, Pending n m r m₁ ∧ (postInitAll n r).result m₁ = .ok rt.replacements.published := by
  obtain @⟨r, r', m₁, ops, hpending, hpost, hm', hrt, hid⟩ := h
  obtain ⟨-, -, -, hs₁, ho₁⟩ := hpending.does hn ho
  have hend := postInitAll_end (X := []) (G := G) hn ho₁ hs₁
  refine ⟨r, m₁, hpending, ?_⟩
  rw [hpost] at hend ⊢
  generalize (postInitAll n r).after m₁ = m₂ at hend hid hm'
  cases hend with
  | @done _ ps _ hd₂ hs₂ =>
    have ho₂ := hd₂.orderly (G := G) ho₁
    have hin : m₂.Orderly (units (ofUnits r'.handles ++ []) ++ G) := by
      rw [show r'.handles = m.declares.map (·.handle) from hs₂.reads.handles_eq]
      simpa using ho₂
    obtain ⟨Z, h₃, h₄⟩ := UnitOp.install_moves hn hs₂.holds hin
    have ho₃ := (h₃.orderly hin).1
    have h₅ : Moves Z (m₂.withHost (m₂.host.serve r')) [] m' := by
      rw [hm']
      exact h₄.trans (answers_carries (X := []) hn _ (h₄.orderly ho₃).1)
    have hserved : (m₂.withHost (m₂.host.serve r')).host.replacements? =
        some { id := m₂.host.serial, published := r' } := rfl
    have hkept : m'.host.replacements? = some rt.replacements := by simp [Host.replacements?, hrt]
    exact congrArg Except.ok (h₅.around.published_eq ho₃.host hserved hkept hid).1.symm

end Startup

open Startup in
/-- Everything published is well formed, by a startup in one go or in two phases with other
operations between them, whatever its units register and export. It is so for as long as the runtime
is in use, and native names are recognised by it. -/
theorem published_wellFormed (d : Nat) :
    (∀ (program : Program) (ops : List Op),
      ((ops.mapM (Op.answer (.ofDepth d))).after (.ofProgram program)).Orderly []) ∧
    ∀ (G : List UnitHandle) (m : Machine), m.Orderly G →
      (∀ rt, (start (.ofDepth d)).result m = .ok rt → rt.replacements.published.WellFormed) ∧
      (∀ r m₁ r', Pending (.ofDepth d) m r m₁ → (postInitAll (.ofDepth d) r).result m₁ = .ok r' →
        let rt := (publish r').result ((postInitAll (.ofDepth d) r).after m₁)
        rt.replacements.published.WellFormed) ∧
      ∀ rt m', Running (.ofDepth d) m rt m' →
        rt.replacements.published.WellFormed ∧
        ∀ name, (DispatchOp.perform (.ofDepth d) (.isNative name)).result m' =
          .ok (.flag (decide (∃ e ∈ rt.replacements.published.entries, e.nativeName = name))) := by
  refine ⟨fun program ops => Op.orderly_answers d ops (Machine.orderly_ofProgram program),
    fun G m ho => ?_⟩
  have hn := Nested.lawful_ofDepth d
  refine ⟨fun rt hrt => ?_, fun r m₁ r' hp hr => hp.wellFormed hn ho hr, fun rt m' hrunning => ?_⟩
  · obtain ⟨r, m₁, hp, hr⟩ := exists_pending_of_start hrt
    exact hp.wellFormed hn ho hr
  · obtain ⟨r, m₁, hp, hr⟩ := hrunning.exists_pending hn ho
    have hwell := hp.wellFormed hn ho hr
    have hruntime : m'.host.runtime = some rt := by
      cases hrunning
      assumption
    refine ⟨hwell, fun name => ?_⟩
    have hflag : rt.replacements.published.isNativeName name =
        decide (∃ e ∈ rt.replacements.published.entries, e.nativeName = name) :=
      Bool.eq_iff_iff.2 ((hwell.native name).trans decide_eq_true_iff.symm)
    rw [← hflag]
    simp only [DispatchOp.perform, DispatchOp.withReplacements, Work.result_bind, Work.result_host,
      Work.after_host, Host.replacements?, hruntime]
    rfl

end AccelHost
