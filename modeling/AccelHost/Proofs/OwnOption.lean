import AccelHost.Proofs.BoundedText
import AccelHost.Proofs.LifecycleCalls
import AccelHost.Proofs.OptionParts

/-!
What units learn of their own options. In every hook call the kit gives a unit the feature, the
version and the parameters of its option up to their first NUL, since its buffers have room for
whatever an option may have. So an option without NULs comes through as it is.
-/
namespace AccelHost

open Holding Text

/-! ### Room for an option -/

namespace UnitOption

variable {o : UnitOption}

/-- What is told of an option, each text with the size of its buffer. -/
def told (o : UnitOption) : List (String × Nat) :=
  [(o.feature, Kit.nameRoom), (o.version.getD "", Kit.nameRoom),
    (o.rawParams.getD "", Kit.paramRoom)]

namespace Fits

theorem rooms (h : o.Fits) : ∀ p ∈ o.told, byteLength p.1.toList < p.2 := by
  simp only [told, List.forall_mem_cons, List.not_mem_nil, false_implies, implies_true, and_true]
  refine ⟨Nat.lt_of_le_of_lt h.feature.1 (by decide), ?_, ?_⟩
  · cases hversion : o.version with
    | none => decide
    | some version => exact Nat.lt_of_le_of_lt (h.version version hversion).1 (by decide)
  · cases hraw : o.rawParams with
    | none => decide
    | some raw => exact Nat.lt_of_le_of_lt (h.rawParams raw hraw).1 (by decide)

theorem untilNul_feature (h : o.Fits) : untilNul o.feature = o.feature :=
  untilNul_eq_self h.feature.2

theorem untilNul_version (h : o.Fits) : untilNul (o.version.getD "") = o.version.getD "" := by
  cases hversion : o.version with
  | none => rfl
  | some version => exact untilNul_eq_self (h.version version hversion).2

/-- Nothing of it but the parameters may have a NUL. -/
theorem untilNul_told (h : o.Fits) : o.told.map (fun p => untilNul p.1) =
    [o.feature, o.version.getD "", untilNul (o.rawParams.getD "")] := by
  simp only [told, List.map_cons, List.map_nil, h.untilNul_feature, h.untilNul_version]

/-- So the kit shows the parameters up to their first NUL, and the rest as it is. -/
theorem legible_told (h : o.Fits) : o.told.map (fun p => legible p.2 p.1) =
    [o.feature, o.version.getD "", untilNul (o.rawParams.getD "")] := by
  rw [← h.untilNul_told]
  exact List.map_congr_left fun p hp => legible_of_lt (h.rooms p hp)

end Fits

end UnitOption

/-! ### Answers of a session -/

namespace Session

variable {s : Session} {v : DeclaredUnit}

theorem answer_unitInfo (hv : s.unit? = some v) (flags : Flags) (f w p : Buffer) :
    let written := fillEach
      [(v.option.feature, f), (v.option.version.getD "", w), (v.option.rawParams.getD "", p)]
    (s.answer flags (.unitInfo s.handle f w p)).1 =
      .filled (if written.1 then Status.ok else Status.error) written.2 := by
  rw [s.answer_of_own rfl (by simp) (by simp), hv]
  rfl

theorem answer_param (hv : s.unit? = some v) (flags : Flags) (key : ForeignText) (b : Buffer) :
    (s.answer flags (.param s.handle key b)).1 = fillOne (key.read.bind v.option.param?) b := by
  rw [s.answer_of_own rfl (by simp) (by simp), hv]
  rfl

end Session

/-! ### Answers of the kit -/

namespace Kit

variable {n : Nested} {m : Machine} {s : Session} {f : Flags} {v : DeclaredUnit} {key : String}

theorem runCode_call (n : Nested) (hs : m.scope? = some (s, f)) (c : Callback) :
    (n.runCode (call c)).result m = (s.answer f c).1 ∧
      ((n.runCode (call c)).after m).scope? =
        some ((s.answer f c).2.1.noted c (s.answer f c).1, (s.answer f c).2.2) := by
  obtain ⟨j, hresult, hafter, -⟩ := callback_eq c m
  obtain ⟨hreply, hscope, -⟩ := answered_of_some (m := { m with journal := j }) (c := c) hs
  constructor
  · rw [← hreply, ← hresult]
    rfl
  · rw [← hscope, ← hafter]
    rfl

theorem result_unitInfo (n : Nested) (hs : m.scope? = some (s, f)) (hv : s.unit? = some v) :
    (n.runCode (Env.unitInfo ⟨s.handle⟩)).result m =
      some ⟨legible nameRoom v.option.feature, legible nameRoom (v.option.version.getD ""),
        legible paramRoom (v.option.rawParams.getD "")⟩ := by
  have hrooms : ∀ p ∈ v.option.told, 0 < p.2 := by
    simp only [UnitOption.told, List.forall_mem_cons, List.not_mem_nil, false_implies, implies_true,
      and_true]
    decide
  obtain ⟨buffers, hfilled, htexts⟩ := fillEach_rooms hrooms
  obtain ⟨hcall, -⟩ :=
    runCode_call n hs (.unitInfo s.handle (room nameRoom) (room nameRoom) (room paramRoom))
  simp only [UnitOption.told, List.map_cons, List.map_nil] at hfilled htexts
  simp only [Session.answer_unitInfo hv, hfilled, ↓reduceIte] at hcall
  rw [Env.unitInfo, runCode_bind, Work.result_bind, hcall]
  simp only [filled?, ↓reduceIte, htexts]
  rfl

theorem result_lookUp {c : ForeignText → Callback} {text : Option String}
    (hkey : '\x00' ∉ key.toList)
    (hcall : (n.runCode (call (c (.ofString key)))).result m = fillOne text (room paramRoom)) :
    (n.runCode (lookUp key c)).result m = text.map (legible paramRoom) := by
  rw [lookUp, foreign?_eq_some_iff.2 ⟨hkey, rfl⟩]
  dsimp only
  rw [runCode_bind, Work.result_bind, hcall]
  cases text with
  | none => rfl
  | some value =>
    rw [filled?_fillOne value (by decide)]
    rfl

theorem result_param (n : Nested) (hs : m.scope? = some (s, f)) (hv : s.unit? = some v)
    (hkey : '\x00' ∉ key.toList) :
    (n.runCode (Env.param ⟨s.handle⟩ key)).result m =
      (v.option.param? key).map (legible paramRoom) := by
  obtain ⟨hcall, -⟩ := runCode_call n hs (.param s.handle (.ofString key) (room paramRoom))
  rw [Session.answer_param hv, read_ofString hkey, Option.bind_some] at hcall
  exact result_lookUp hkey hcall

end Kit

/-! ### What a hook is told -/

namespace Machine

/-- What a unit is told of its option, if texts of parameters are shown in some way: its feature,
its version and its list of parameters, and for a key the value of its last group. -/
structure Tells (m : Machine) (u : DeclaredUnit) (shown : String → String) : Prop where
  unitInfo : ∀ n : Nested, (n.runCode (Kit.Env.unitInfo ⟨u.handle⟩)).result m =
    some ⟨u.option.feature, u.option.version.getD "", shown (u.option.rawParams.getD "")⟩
  none_iff : ∀ (n : Nested) (key : String), '\x00' ∉ key.toList → ∀ kvs, u.option.Writes kvs →
    ((n.runCode (Kit.Env.param ⟨u.handle⟩ key)).result m = none ↔ ∀ kv ∈ kvs, kv.1 ≠ key)
  last : ∀ (n : Nested) (key value : String), '\x00' ∉ key.toList → ∀ before behind,
    u.option.Writes (before ++ (key, value) :: behind) → (∀ kv ∈ behind, kv.1 ≠ key) →
    (n.runCode (Kit.Env.param ⟨u.handle⟩ key)).result m = some (shown value)

/-- The hook call at work is of a unit, and its registry has the unit with its option. -/
def InHookOf (m : Machine) (u : DeclaredUnit) : Prop :=
  ∃ s outer, m.host.sessions = s :: outer ∧ s.handle = u.handle ∧ s.registry.Knows u

variable {X Y : List Holding} {m m' : Machine} {u : DeclaredUnit} {text : String}

theorem InHookOf.of_moves (h : m.InHookOf u) (hm : Moves X m Y m') : m'.InHookOf u := by
  obtain ⟨s, outer, hs, hx, v, hv, hoption⟩ := h
  have htouches : Touches ((s :: outer) :: m.waiting.map (·.sessions)) m'.stack := by
    rw [← hs]
    exact hm.touches
  obtain ⟨s', hextends, hstack⟩ := htouches.of_cons
  obtain ⟨v', hv', hoption'⟩ := hextends.registry.unit?_some hv
  exact ⟨s', outer, (List.cons.inj hstack).1, hextends.handle.trans hx, v', hv',
    hoption'.trans hoption⟩

theorem InHookOf.exists_scope (h : m.InHookOf u) : ∃ s v, m.scope? = some (s, m.host.flags) ∧
    s.handle = u.handle ∧ s.unit? = some v ∧ v.option = u.option := by
  obtain ⟨s, outer, hs, hx, v, hv, hoption⟩ := h
  have hscope : m.scope? = some (s, m.host.flags) := by
    simp only [scope?, innermost?, hs]
  exact ⟨s, v, hscope, hx, by rw [Session.unit?, hx, hv], hoption⟩

theorem InHookOf.result_unitInfo (h : m.InHookOf u) (hparse : UnitOption.parse text = .ok u.option)
    (n : Nested) : (n.runCode (Kit.Env.unitInfo ⟨u.handle⟩)).result m =
      some ⟨u.option.feature, u.option.version.getD "", untilNul (u.option.rawParams.getD "")⟩ := by
  obtain ⟨s, v, hs, hx, hv, hoption⟩ := h.exists_scope
  have hshown := (UnitOption.fits_of_parse hparse).legible_told
  simp only [UnitOption.told, List.map_cons, List.map_nil, List.cons.injEq, and_true] at hshown
  obtain ⟨hfeature, hversion, hraw⟩ := hshown
  rw [← hx, Kit.result_unitInfo n hs hv, hoption, hfeature, hversion, hraw]

theorem InHookOf.result_param (h : m.InHookOf u) (hparse : UnitOption.parse text = .ok u.option)
    (n : Nested) {key : String} (hkey : '\x00' ∉ key.toList) {kvs : List (String × String)}
    (hw : u.option.Writes kvs) : (n.runCode (Kit.Env.param ⟨u.handle⟩ key)).result m =
      ((UnitOption.table kvs).get? key).map untilNul := by
  obtain ⟨s, v, hs, hx, hv, hoption⟩ := h.exists_scope
  have htable : v.option.param? key = (UnitOption.table kvs).get? key := by
    rw [UnitOption.param?, hoption, UnitOption.params_eq_table hparse hw]
  have hshown : ∀ value ∈ v.option.param? key, legible Kit.paramRoom value = untilNul value := by
    intro value hvalue
    rw [htable] at hvalue
    have hmem := UnitOption.mem_of_get?_table hvalue
    have hvalues := (UnitOption.fits_of_parse hparse).values kvs hw (key, value) hmem
    exact legible_of_lt (Nat.lt_of_le_of_lt hvalues.1 (by decide))
  rw [← hx, Kit.result_param n hs hv hkey, Option.map_congr hshown, htable]

/-- In its hooks a unit is told what was read of its option, up to the first NUL. -/
theorem InHookOf.tells (h : m.InHookOf u) (hparse : UnitOption.parse text = .ok u.option) :
    m.Tells u untilNul where
  unitInfo := h.result_unitInfo hparse
  none_iff n key hkey kvs hw := by
    rw [h.result_param hparse n hkey hw, Option.map_eq_none_iff]
    exact UnitOption.get?_table_eq_none_iff
  last n key value hkey before behind hw hbehind := by
    rw [h.result_param hparse n hkey hw, UnitOption.get?_table_of_last hbehind, Option.map_some]

theorem Tells.whole (h : m.Tells u untilNul) (hparse : UnitOption.parse text = .ok u.option)
    (hnul : '\x00' ∉ u.option.text.toList) : m.Tells u id := by
  have hfits := UnitOption.fits_of_parse hparse
  refine ⟨fun n => ?_, h.none_iff, fun n key value hkey before behind hw hbehind => ?_⟩
  · have hraw : untilNul (u.option.rawParams.getD "") = u.option.rawParams.getD "" := by
      cases hraw : u.option.rawParams with
      | none => rfl
      | some raw => exact untilNul_eq_self fun h => hnul ((hfits.rawParams raw hraw).2.subset h)
    have hinfo := h.unitInfo n
    rwa [hraw] at hinfo
  · have hvalue : untilNul value = value := by
      have hpart := (hfits.values _ hw (key, value) (by simp)).2
      exact untilNul_eq_self fun h => hnul (hpart.subset h)
    have hlast := h.last n key value hkey before behind hw hbehind
    rwa [hvalue] at hlast

end Machine

/-! ### Hooks of startups -/

namespace Startup

variable {n : Nested} {G : List UnitHandle} {m m' : Machine} {u : DeclaredUnit} {r : Registry}
  {point : EntryPoint}

theorem inHookOf_begun (h : r.Knows u) : (begun point r u.handle m).InHookOf u :=
  ⟨_, _, rfl, rfl, h⟩

theorem parse_of_mem_declares (hu : u ∈ m.declares) :
    u.option.text ∈ m.host.settings.units ∧ UnitOption.parse u.option.text = .ok u.option := by
  obtain ⟨options, hdecl, hoptions⟩ := m.exists_declares
  have hmem := List.mem_map_of_mem (f := DeclaredUnit.option) hu
  rw [hdecl, options_declared] at hmem
  rcases hoptions with rfl | hread
  · cases hmem
  · obtain ⟨text, htext, hparse⟩ := parsed_of_parseAll hread u.option hmem
    have heq : u.option.text = text := (UnitOption.parse_eq_ok_iff.1 hparse).1
    rw [heq]
    exact ⟨htext, hparse⟩

theorem exists_lifecycleCall (n : Nested) {program : Program} {text : String} {o : UnitOption}
    {mod : UnitModule} {init : UnitHandle → Behaviour Status}
    {exports : Behaviour (Option ExportTable)} (hparse : UnitOption.parse text = .ok o)
    (hon : program.settings.enabled = true) (hunits : program.settings.units = [text])
    (hload : program.source.load o = .ok mod) (hinit : mod.init = some init)
    (hexports : mod.exports = some exports) :
    ∃ u r m₁, u.option = o ∧ LifecycleCall n (.ofProgram program) .init u init r m₁ := by
  let m : Machine := .ofProgram program
  let u : DeclaredUnit := { handle := m.nextHandle, option := o }
  have hsettings : m.host.settings.enabled = true ∧ m.host.settings.units = [text] := ⟨hon, hunits⟩
  have hus : m.declares = [] ++ u :: [] := by
    simp [Machine.declares, hsettings, parseAll, hparse, declared, u]
  have hmodule : load m.afterDeclares.host.source u = .ok (mod, init, exports) := by
    have hsource : m.afterDeclares.host.source.load u.option = .ok mod := hload
    simp only [load, hsource, hinit, hexports]
  exact ⟨u, _, _, rfl, .init (.init hus rfl rfl hmodule)⟩

end Startup

open Startup in
/-- A unit sees its own option intact. Whatever option it was declared with, in each of its hook
calls, from `init` to `finalize`, and at each moment of the hook, it is told its feature, its
version and its list of parameters, and for a key without NUL the value of the last group with this
key, or nothing if there is no such group. Texts of parameters come up to their first NUL, so that
nothing is cut or altered of an option without NULs. -/
theorem own_option_intact (d : Nat) :
    (∀ (program : Program) (ops : List Op),
      ((ops.mapM (Op.answer (.ofDepth d))).after (.ofProgram program)).Orderly []) ∧
    (∀ (program : Program) text o mod init exports, UnitOption.parse text = .ok o →
      program.settings.enabled = true → program.settings.units = [text] →
      program.source.load o = .ok mod → mod.init = some init → mod.exports = some exports →
      ∃ u r m₁, u.option = o ∧ LifecycleCall (.ofDepth d) (.ofProgram program) .init u init r m₁) ∧
    ∀ (G : List UnitHandle) (m : Machine), m.Orderly G →
      (∀ r m₁, Pending (.ofDepth d) m r m₁ → Suspended (.ofDepth d) m r m₁) ∧
      (∀ rt m₁, Running (.ofDepth d) m rt m₁ → InUse (.ofDepth d) m rt m₁) ∧
      ∀ point u hook r m₁, LifecycleCall (.ofDepth d) m point u hook r m₁ →
        u.option.text ∈ m.host.settings.units ∧
        UnitOption.parse u.option.text = .ok u.option ∧
        (∃ kvs, u.option.Writes kvs) ∧
        let begins := Startup.begun point r u.handle m₁
        ∀ rest m', (Nested.ofDepth d).Reaches (hook u.handle) begins rest m' →
          m'.Tells u untilNul ∧ ('\x00' ∉ u.option.text.toList → m'.Tells u id) := by
  have hn := Nested.lawful_ofDepth d
  refine ⟨fun program ops => Op.orderly_answers d ops (Machine.orderly_ofProgram program),
    fun program text o mod init exports hparse hon hunits hload hinit hexports =>
      exists_lifecycleCall (.ofDepth d) hparse hon hunits hload hinit hexports,
    fun G m ho => ⟨fun r m₁ hp => hp.suspended hn ho, fun rt m₁ hr => hr.inUse hn ho,
      fun point u hook r m₁ hcall => ?_⟩⟩
  obtain ⟨hu, hknows, K, hbegun⟩ := hcall.knows hn ho
  obtain ⟨htext, hparse⟩ := parse_of_mem_declares hu
  refine ⟨htext, hparse, UnitOption.exists_writes hparse, fun rest m' hreaches => ?_⟩
  have hmoves : Moves [] _ [] m' := hreaches.moves (G := K) hn hbegun
  have htells := ((inHookOf_begun hknows).of_moves hmoves).tells hparse
  exact ⟨htells, htells.whole hparse⟩

/-- Of two groups the last counts, and of its value what stands before the NUL. -/
example : (UnitOption.parse "libMath_1?k=a:k=é\x00b").toOption.map (fun o =>
      Kit.filled? (fillOne (o.param? "k") (Kit.room Kit.paramRoom))) = some (some ["é"]) := by
  decide +kernel

end AccelHost
