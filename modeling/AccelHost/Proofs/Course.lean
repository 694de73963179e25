import AccelHost.Proofs.FinalizeOnce
import AccelHost.Proofs.StartupOutcome
import Mathlib.Data.List.Chain
import Mathlib.Data.List.Induction

/-!
The course of units. What a startup tells about its units is looked at event by event, each against
what was told before: a unit may only move on from the state that it is in, to one that may come
next, and it becomes active only when all units have passed the first phase and its own `post_init`
was no failure.
-/
namespace AccelHost

namespace UnitState

def paths : UnitState → List (List UnitState)
  | parsed =>
    [[loaded, initFailed], [loaded, activePending, postInitFailed],
      [loaded, activePending, active, finalized]]
  | loaded => [[initFailed], [activePending, postInitFailed], [activePending, active, finalized]]
  | activePending => [[postInitFailed], [active, finalized]]
  | active => [[finalized]]
  | initFailed | postInitFailed | finalized => [[]]

theorem cons_mem_paths {state next : UnitState} (h : state.canAdvanceTo next = true) :
    ∀ path ∈ next.paths, next :: path ∈ state.paths := by
  revert h
  cases state <;> cases next <;> simp [canAdvanceTo, paths]

theorem exists_path_of_isChain {state : UnitState} {steps : List UnitState}
    (h : List.IsChain (fun state next => state.canAdvanceTo next = true) (state :: steps)) :
    ∃ path ∈ state.paths, steps <+: path := by
  induction steps generalizing state with
  | nil =>
    obtain ⟨path, hpath⟩ : ∃ path, path ∈ state.paths := by
      cases state <;> exact ⟨_, List.mem_cons_self⟩
    exact ⟨path, hpath, List.nil_prefix⟩
  | cons next steps ih =>
    obtain ⟨hadvance, hrest⟩ := List.isChain_cons_cons.1 h
    obtain ⟨path, hpath, hprefix⟩ := ih hrest
    exact ⟨next :: path, cons_mem_paths hadvance path hpath,
      List.cons_prefix_cons.2 ⟨rfl, hprefix⟩⟩

end UnitState

/-- The state that a unit is in, once some events have been told. -/
def stateAfter (x : UnitHandle) (es : List TraceEvent) : UnitState :=
  es.foldl (fun state e => (e.state? x).getD state) .parsed

/-- Whether a hook of a unit has returned without failure, and nothing that it registered was
rejected. -/
def Passed (point : EntryPoint) (x : UnitHandle) (es : List TraceEvent) : Prop :=
  .left point x Status.ok none ∈ es

/-- Whether a unit has passed its `init` hook, and its exports were asked for then. -/
def Initialized (x : UnitHandle) (es : List TraceEvent) : Prop :=
  Passed .init x es ∧ .entered .exports x ∈ es

def TraceEvent.Follows (src : Source) (us : List DeclaredUnit) (before : List TraceEvent) :
    TraceEvent → Prop
  | advanced x state next =>
    state = stateAfter x before ∧ state.canAdvanceTo next = true ∧
      (next = .active → (∀ v ∈ us, Initialized v.handle before) ∧
        ∀ v ∈ us, v.handle = x → src.exports .postInit v = true → Passed .postInit x before)
  | _ => True

/-- Events of which each may come after those before it, and after some that were told earlier. -/
def Course (src : Source) (us : List DeclaredUnit) (before : List TraceEvent) :
    List TraceEvent → Prop
  | [] => True
  | e :: es => e.Follows src us before ∧ Course src us (before ++ [e]) es

section

variable {src : Source} {us vs active : List DeclaredUnit} {before es es' : List TraceEvent}
  {x y : UnitHandle} {e : TraceEvent} {done : Bool}

@[simp] theorem stateAfter_append :
    stateAfter x (es ++ es') =
      es'.foldl (fun state e => (e.state? x).getD state) (stateAfter x es) := List.foldl_append

@[simp] theorem state?_advanced {state next : UnitState} :
    (TraceEvent.advanced y state next).state? x = if y = x then some next else none := rfl

theorem stateAfter_append_of_not_mem (h : ∀ state next, .advanced x state next ∉ es') :
    stateAfter x (es ++ es') = stateAfter x es := by
  rw [stateAfter_append]
  generalize stateAfter x es = state
  induction es' generalizing state with
  | nil => rfl
  | cons e es' ih =>
    have hnone : e.state? x = none := by
      cases e with
      | advanced y before next =>
        rw [state?_advanced, if_neg]
        rintro rfl
        exact h before next List.mem_cons_self
      | _ => rfl
    rw [List.foldl_cons, hnone, Option.getD_none]
    exact ih (fun s n hm => h s n (List.mem_cons_of_mem _ hm)) state

theorem Passed.mono {point : EntryPoint} (h : Passed point x es) (hsub : es ⊆ es') :
    Passed point x es' := hsub h

theorem Initialized.mono (h : Initialized x es) (hsub : es ⊆ es') : Initialized x es' :=
  ⟨h.1.mono hsub, hsub h.2⟩

/-! ### One course after another -/

theorem course_append : Course src us before (es ++ es') ↔
    Course src us before es ∧ Course src us (before ++ es) es' := by
  induction es generalizing before with
  | nil => simp [Course]
  | cons e es ih =>
    rw [List.cons_append, Course, ih, Course, List.append_assoc, and_assoc]
    rfl

theorem course_of_plain (h : ∀ e ∈ es, ∀ y state next, e ≠ .advanced y state next) :
    Course src us before es := by
  induction es generalizing before with
  | nil => trivial
  | cons e es ih =>
    refine ⟨?_, ih fun e' he' => h e' (List.mem_cons_of_mem _ he')⟩
    cases e with
    | advanced y state next => exact absurd rfl (h _ List.mem_cons_self y state next)
    | _ => trivial

theorem Course.follows (h : Course src us [] (before ++ e :: es)) : e.Follows src us before := by
  have hrest := (course_append.1 h).2
  rw [List.nil_append] at hrest
  exact hrest.1

theorem Course.of_prefix (h : Course src us [] es) (hp : before <+: es) :
    Course src us [] before := by
  obtain ⟨rest, rfl⟩ := hp
  exact (course_append.1 h).1

theorem Course.isChain (h : Course src us [] es) (x : UnitHandle) :
    List.IsChain (fun state next => state.canAdvanceTo next = true) (.parsed :: states x es) ∧
      (UnitState.parsed :: states x es).getLast? = some (stateAfter x es) := by
  induction es using List.reverseRecOn with
  | nil => simp [states, stateAfter]
  | append_singleton es e ih =>
    obtain ⟨hchain, hlast⟩ := ih (h.of_prefix (List.prefix_append _ _))
    have hfollows : e.Follows src us es := h.follows
    cases hs : e.state? x with
    | none =>
      have hstates : states x [e] = [] := by simp [states, hs]
      rw [states_append, hstates, List.append_nil]
      refine ⟨hchain, ?_⟩
      simpa [hs] using hlast
    | some next =>
      cases e with
      | advanced y state next' =>
        rw [state?_advanced, Option.ite_none_right_eq_some] at hs
        obtain ⟨rfl, hn⟩ := hs
        cases hn
        obtain ⟨hstate, hadvance, -⟩ := hfollows
        have hstates : states y [.advanced y state next] = [next] := by simp [states]
        rw [states_append, hstates, ← List.cons_append]
        refine ⟨List.isChain_append.2 ⟨hchain, .singleton _, ?_⟩, ?_⟩
        · intro last hlast' first hfirst
          rw [hlast, Option.mem_some] at hlast'
          cases hlast'
          simp only [List.head?_cons, Option.mem_some] at hfirst
          subst hfirst
          exact hstate ▸ hadvance
        · rw [List.getLast?_append]
          simp
      | _ => cases hs

theorem exists_of_stateAfter {state : UnitState} (h : stateAfter x es = state)
    (hne : state ≠ .parsed) :
    ∃ earlier later start, es = earlier ++ .advanced x start state :: later := by
  induction es using List.reverseRecOn with
  | nil => exact absurd h.symm hne
  | append_singleton es e ih =>
    cases hs : e.state? x with
    | none =>
      have hsame : stateAfter x es = state := by simpa [hs] using h
      obtain ⟨earlier, later, start, rfl⟩ := ih hsame
      exact ⟨earlier, later ++ [e], start, by simp⟩
    | some next =>
      have hnext : next = state := by simpa [hs] using h
      cases e with
      | advanced y start next' =>
        rw [state?_advanced, Option.ite_none_right_eq_some] at hs
        obtain ⟨rfl, hn⟩ := hs
        cases hn
        subst hnext
        exact ⟨es, [], start, rfl⟩
      | _ => cases hs

theorem Course.of_active (h : Course src us [] es) (hx : stateAfter x es = .active) :
    (∀ v ∈ us, Initialized v.handle es) ∧
      ∀ v ∈ us, v.handle = x → src.exports .postInit v = true → Passed .postInit x es := by
  obtain ⟨earlier, later, start, rfl⟩ := exists_of_stateAfter hx (by simp)
  obtain ⟨-, -, hactive⟩ := h.follows
  obtain ⟨hall, hpost⟩ := hactive rfl
  have hsub : earlier ⊆ earlier ++ .advanced x start .active :: later :=
    List.subset_append_left _ _
  exact ⟨fun v hv => (hall v hv).mono hsub, fun v hv hvx he => (hpost v hv hvx he).mono hsub⟩

/-! ### The phases -/

/-- Units of a phase that have not yet moved on from the state in which it began. -/
theorem stateAfter_of_ne {state : UnitState} (hnot : y ∉ vs.map (·.handle))
    (hstates : ∀ v ∈ vs, stateAfter v.handle before = state)
    (hes : ∀ x start next, .advanced x start next ∈ es → x = y) :
    ∀ v ∈ vs, stateAfter v.handle (before ++ es) = state := fun v hv => by
  rw [stateAfter_append_of_not_mem, hstates v hv]
  intro start next hm
  exact hnot (List.mem_map.2 ⟨v, hv, hes _ _ _ hm⟩)

theorem Loading.course (h : Loading vs es done) (hnodup : (vs.map (·.handle)).Nodup)
    (hstates : ∀ v ∈ vs, stateAfter v.handle before = .parsed) : Course src us before es := by
  induction h generalizing before with
  | nil | missing => trivial
  | failed =>
    simp [begun, Course, TraceEvent.Follows, hstates, UnitState.canAdvanceTo, TraceEvent.state?]
  | rejected =>
    simp [begun, exported, Course, TraceEvent.Follows, hstates, UnitState.canAdvanceTo,
      TraceEvent.state?]
  | @cons u vs es done _ ih =>
    obtain ⟨hnot, hnodup⟩ := List.nodup_cons.1 hnodup
    refine course_append.2 ⟨?_, ih hnodup ?_⟩
    · simp [begun, exported, Course, TraceEvent.Follows, hstates, UnitState.canAdvanceTo,
        TraceEvent.state?]
    · refine stateAfter_of_ne hnot (fun v hv => hstates v (List.mem_cons_of_mem _ hv)) ?_
      intro x start next hm
      simp [begun, exported] at hm
      tauto

theorem Loading.initialized (h : Loading vs es done) (hd : done = true) :
    ∀ v ∈ vs, Initialized v.handle es := by
  induction h with
  | nil => simp
  | missing | failed | rejected => cases hd
  | cons _ ih =>
    refine List.forall_mem_cons.2 ⟨?_, fun v hv => ?_⟩
    · simp [Initialized, Passed, begun, exported]
    · exact (ih hd v hv).mono (List.subset_append_right _ _)

theorem Loading.handle_mem (h : Loading vs es done) {start next : UnitState}
    (hm : .advanced x start next ∈ es) : x ∈ vs.map (·.handle) := by
  induction h with
  | nil | missing => cases hm
  | failed | rejected =>
    simp only [begun, exported, List.mem_append, List.mem_cons, List.not_mem_nil, or_false,
      reduceCtorEq, TraceEvent.advanced.injEq, false_or, List.map_cons] at hm ⊢
    tauto
  | cons _ ih =>
    simp only [begun, exported, List.mem_append, List.mem_cons, List.not_mem_nil, or_false,
      reduceCtorEq, TraceEvent.advanced.injEq, false_or, List.map_cons] at hm ⊢
    tauto

theorem Loading.pending (h : Loading vs es done) (hd : done = true)
    (hnodup : (vs.map (·.handle)).Nodup) :
    ∀ v ∈ vs, stateAfter v.handle (before ++ es) = .activePending := by
  induction h generalizing before with
  | nil => simp
  | missing | failed | rejected => cases hd
  | cons hload ih =>
    obtain ⟨hnot, hnodup⟩ := List.nodup_cons.1 hnodup
    rw [← List.append_assoc]
    refine List.forall_mem_cons.2 ⟨?_, ih hd hnodup⟩
    rw [stateAfter_append_of_not_mem fun start next hm => hnot (hload.handle_mem hm)]
    simp [begun, exported, TraceEvent.state?]

/-- Units complete from the state in which they wait for it, when all are initialized. -/
theorem Completing.course (h : Completing src vs es active done)
    (hnodup : (us.map (·.handle)).Nodup) (hsub : vs.Sublist us)
    (hall : ∀ v ∈ us, Initialized v.handle before)
    (hstates : ∀ v ∈ vs, stateAfter v.handle before = .activePending) :
    Course src us before es := by
  induction h generalizing before with
  | nil => trivial
  | failed =>
    simp [Course, TraceEvent.Follows, hstates, UnitState.canAdvanceTo, TraceEvent.state?]
  | @bare u vs _ _ _ hbare _ ih =>
    obtain ⟨hnot, -⟩ := List.nodup_cons.1 ((hsub.map (·.handle)).nodup hnodup)
    have hu : u ∈ us := hsub.subset List.mem_cons_self
    refine ⟨⟨(hstates u List.mem_cons_self).symm, rfl, fun _ => ⟨hall, fun v hv hvx he => ?_⟩⟩,
      ih ((List.sublist_cons_self u vs).trans hsub)
        (fun v hv => (hall v hv).mono (List.subset_append_left _ _))
        (stateAfter_of_ne hnot (fun v hv => hstates v (List.mem_cons_of_mem _ hv))
          (by simp +contextual))⟩
    cases List.inj_on_of_nodup_map hnodup hv hu hvx
    rw [hbare] at he
    cases he
  | @hook u vs _ _ _ _ _ ih =>
    obtain ⟨hnot, -⟩ := List.nodup_cons.1 ((hsub.map (·.handle)).nodup hnodup)
    have hstate := hstates u List.mem_cons_self
    refine ⟨trivial, trivial, ⟨?_, rfl, fun _ => ⟨fun v hv => (hall v hv).mono ?_, ?_⟩⟩, ?_⟩
    · simp [hstate, TraceEvent.state?]
    · intro e he
      simp [he]
    · intro _ _ _ _
      simp [Passed]
    · refine ih ((List.sublist_cons_self u vs).trans hsub) (fun v hv => (hall v hv).mono ?_) ?_
      · intro e he
        simp [he]
      · simp only [List.append_assoc]
        refine stateAfter_of_ne hnot (fun v hv => hstates v (List.mem_cons_of_mem _ hv)) ?_
        simp +contextual

theorem Completing.handle_mem (h : Completing src vs es active done) {start next : UnitState}
    (hm : .advanced x start next ∈ es) : x ∈ vs.map (·.handle) := by
  induction h with
  | nil => cases hm
  | failed | bare _ _ ih | hook _ _ ih =>
    simp only [List.mem_cons, List.not_mem_nil, or_false, reduceCtorEq,
      TraceEvent.advanced.injEq, false_or, List.map_cons] at hm ⊢
    tauto

theorem Completing.active_of_mem (h : Completing src vs es active done)
    (hnodup : (vs.map (·.handle)).Nodup) :
    ∀ v ∈ active, stateAfter v.handle (before ++ es) = .active := by
  induction h generalizing before with
  | nil | failed => simp
  | @bare u vs active es done _ hcomp ih =>
    obtain ⟨hnot, hnodup⟩ := List.nodup_cons.1 hnodup
    change ∀ w ∈ u :: active, stateAfter w.handle (before ++ ([_] ++ es)) = _
    rw [← List.append_assoc]
    refine List.forall_mem_cons.2 ⟨?_, ih hnodup⟩
    rw [stateAfter_append_of_not_mem fun start next hm => hnot (hcomp.handle_mem hm)]
    simp
  | @hook u vs active es done _ hcomp ih =>
    obtain ⟨hnot, hnodup⟩ := List.nodup_cons.1 hnodup
    change ∀ w ∈ u :: active, stateAfter w.handle (before ++ ([_, _, _] ++ es)) = _
    rw [← List.append_assoc]
    refine List.forall_mem_cons.2 ⟨?_, ih hnodup⟩
    rw [stateAfter_append_of_not_mem fun start next hm => hnot (hcomp.handle_mem hm)]
    simp [TraceEvent.state?]

theorem Finalizing.course {names : List String} {failures : List (String × String)}
    (h : Finalizing src vs es names failures) (hnodup : (vs.map (·.handle)).Nodup)
    (hstates : ∀ v ∈ vs, stateAfter v.handle before = .active) : Course src us before es := by
  induction h generalizing before with
  | nil => trivial
  | @bare u vs _ _ _ _ _ ih =>
    obtain ⟨hnot, hnodup⟩ := List.nodup_cons.1 hnodup
    refine ⟨⟨(hstates u List.mem_cons_self).symm, rfl, by simp⟩, ih hnodup ?_⟩
    exact stateAfter_of_ne hnot (fun v hv => hstates v (List.mem_cons_of_mem _ hv))
      (by simp +contextual)
  | @hook u vs _ _ _ _ _ _ _ _ _ ih =>
    obtain ⟨hnot, hnodup⟩ := List.nodup_cons.1 hnodup
    refine ⟨trivial, trivial, ⟨?_, rfl, by simp⟩, ih hnodup ?_⟩
    · simp [hstates, TraceEvent.state?]
    · simp only [List.append_assoc]
      exact stateAfter_of_ne hnot (fun v hv => hstates v (List.mem_cons_of_mem _ hv))
        (by simp +contextual)

/-! ### The whole -/

/-- What is told of the units of a startup is a course, through all its phases. -/
theorem Startup.Story.course {report : ShutdownReport}
    (h : Startup.Story src us es active report) (hnodup : (us.map (·.handle)).Nodup) :
    Course src us [] es := by
  obtain @⟨ls, ps, fs, active, report, loaded, hload, hcomp, hfin⟩ := h
  have hloading : Course src us [] ls := hload.course hnodup fun _ _ => rfl
  have hgone : ∀ e ∈ (us.filter fun u => .attached u.handle ∈ ls).map
      (TraceEvent.released ·.handle), ∀ y state next, e ≠ .advanced y state next := by
    intro e he y state next
    obtain ⟨u, -, rfl⟩ := List.mem_map.1 he
    simp
  refine course_append.2 ⟨hloading, ?_⟩
  rw [List.nil_append]
  rcases hcomp with ⟨rfl, rfl⟩ | ⟨rfl, done, hcomp⟩
  · rw [Startup.finalizing_nil hfin]
    exact course_of_plain hgone
  · have hpending : ∀ v ∈ us, stateAfter v.handle ([] ++ ls) = .activePending :=
      hload.pending rfl hnodup
    have hactive : ∀ v ∈ active, stateAfter v.handle (ls ++ ps) = .active :=
      hcomp.active_of_mem hnodup
    exact course_append.2 ⟨hcomp.course hnodup (.refl us) (hload.initialized rfl) hpending,
      course_append.2 ⟨hfin.course ((hcomp.sublist.map (·.handle)).nodup hnodup) hactive,
        course_of_plain hgone⟩⟩

/-- The states of units have only moved forward. Each unit has gone along one of the paths from its
declaration to the state that it is in; when it is active its hooks have all passed, and those of
the first phase have passed for every other unit, too. -/
structure Forward (src : Source) (us : List DeclaredUnit) (es : List TraceEvent) : Prop where
  legal : ∀ x state next, .advanced x state next ∈ es → state.canAdvanceTo next = true
  path : ∀ u ∈ us, (∃ path ∈ UnitState.parsed.paths, states u.handle es <+: path) ∧
    (UnitState.parsed :: states u.handle es).getLast? = some (stateAfter u.handle es)
  passed : ∀ u ∈ us, stateAfter u.handle es = .active → Passed .init u.handle es ∧
    (src.exports .postInit u = true → Passed .postInit u.handle es)
  initialized : ∀ u ∈ us, stateAfter u.handle es = .active → ∀ v ∈ us, Initialized v.handle es

theorem Course.forward (h : Course src us [] es) : Forward src us es where
  legal x state next hm := by
    obtain ⟨earlier, later, rfl⟩ := List.append_of_mem hm
    exact h.follows.2.1
  path u _ := by
    obtain ⟨hchain, hlast⟩ := h.isChain u.handle
    exact ⟨UnitState.exists_path_of_isChain hchain, hlast⟩
  passed u hu hactive := by
    obtain ⟨hall, hpost⟩ := h.of_active hactive
    exact ⟨(hall u hu).1, hpost u hu rfl⟩
  initialized u _ hactive := (h.of_active hactive).1

end

namespace Startup

variable {n : Nested} {G : List UnitHandle} {m m' : Machine} {r : Registry}

/-- When the first phase succeeds, nothing stands against any unit, and everything is registered. -/
theorem collects_of_initAll (hn : n.Lawful) (ho : m.Orderly G)
    (h : (initAll n).result m = .ok r) :
    loadFaults n [] { units := m.declares } m.declares m.afterDeclares = [] ∧
      r.Collects (loadEntries n { units := m.declares } m.declares m.afterDeclares) := by
  obtain ⟨ho₁, -⟩ := orderly_afterDeclares (X := []) ho (moves_afterDeclares [] m)
  cases initAll_cases n m with
  | refused _ hres =>
    rw [hres] at h
    cases h
  | off hoff hres =>
    rw [hres] at h
    cases h
    rw [(declares_of_off hoff).1]
    exact ⟨rfl, Registry.collects_empty []⟩
  | loaded hp hd hdecl hres =>
    have hreads : Registry.Reads { units := m.declares } m.declares fun _ => .parsed := by
      rw [hdecl]
      exact reads_declared rfl
    have hsettles := initUnits_settles (X := []) hn m.declares
      (.all ho₁ hreads fun _ h => by cases h) (Registry.collects_empty m.declares)
    rw [hres, result_loadAll, hsettles.error] at h
    cases hfaults : loadFaults n [] { units := m.declares } m.declares m.afterDeclares with
    | cons err errs =>
      rw [hfaults] at h
      cases h
    | nil =>
      rw [hfaults] at h
      cases h
      exact ⟨rfl, hsettles.collects hfaults⟩

/-- In the lifetime of a startup its units take their course, and one of them becomes active only if
the first phase has succeeded. -/
theorem Life.course {report : Option ShutdownReport} (h : Life n m report m') (hn : n.Lawful)
    (ho : m.Orderly G) :
    ∃ es, own (m.declares.map (·.handle)) m'.trace =
        own (m.declares.map (·.handle)) m.trace ++ es ∧
      Course m.host.source m.declares [] es ∧
      ∀ x, .active ∈ states x es → ∃ r, (initAll n).result m = .ok r := by
  have hnodup := (orderly_afterDeclares (X := []) (G := G) ho (moves_afterDeclares [] m)).1.nodup
  obtain ⟨es, active, rep, htold, hstory, -⟩ := h.story hn ho
  refine ⟨es, htold, hstory.course hnodup, fun x hx => ?_⟩
  cases hinit : (initAll n).result m with
  | ok r => exact ⟨r, rfl⟩
  | error e =>
    exfalso
    cases h with
    | pendingDropped hp | postInitFailed hp =>
      rw [hp.initialized] at hinit
      cases hinit
    | shutDown hr | dropped hr =>
      obtain ⟨hp, -⟩ := hr
      rw [hp.initialized] at hinit
      cases hinit
    | initFailed he =>
      have hend := initAll_end (X := []) (G := G) hn ho
      rw [hinit] at hend
      generalize (initAll n).after m = m' at hend htold
      cases hend with
      | refused hrefused hm =>
        rw [hm, List.self_eq_append_right] at htold
        rw [htold] at hx
        cases hx
      | failed hload hd =>
        have hes := List.append_cancel_left (htold.symm.trans hd.told)
        rw [hes] at hx
        simp [hload.active_not_mem] at hx

end Startup

open Startup in
/-- Unit states only move forward. At every moment in the lifetime of a startup each unit has gone
along one of the paths from its declaration, and it is active only if its hooks have passed. While
any unit is active the first phase has succeeded: nothing stands against any unit there, and
everything that the units export is registered. -/
theorem unit_states_move_forward (d : Nat) :
    (∀ program (ops : List Op),
      ((ops.mapM (Op.answer (.ofDepth d))).after (.ofProgram program)).Orderly []) ∧
    ∀ (G : List UnitHandle) (m m' : Machine) (report : Option ShutdownReport), m.Orderly G →
      Life (.ofDepth d) m report m' →
      let n := Nested.ofDepth d
      let us := m.declares
      ∃ es, own (us.map (·.handle)) m'.trace = own (us.map (·.handle)) m.trace ++ es ∧
        ∀ told, told <+: es → Forward m.host.source us told ∧
          ∀ u ∈ us, stateAfter u.handle told = .active →
            ∃ r, (initAll n).result m = .ok r ∧
              loadFaults n [] { units := us } us m.afterDeclares = [] ∧
              r.Collects (loadEntries n { units := us } us m.afterDeclares) := by
  refine ⟨fun program ops => ?_, fun G m m' report ho hlife => ?_⟩
  · exact Op.orderly_answers d ops (Machine.orderly_ofProgram program)
  intro n us
  have hn : n.Lawful := Nested.lawful_ofDepth d
  obtain ⟨es, htold, hcourse, hok⟩ := hlife.course hn ho
  refine ⟨es, htold, fun told hprefix => ?_⟩
  refine ⟨(hcourse.of_prefix hprefix).forward, fun u _ hactive => ?_⟩
  obtain ⟨earlier, later, start, rfl⟩ := exists_of_stateAfter hactive (by simp)
  have hmem : .active ∈ states u.handle es :=
    mem_states.2 ⟨start, hprefix.subset (by simp)⟩
  obtain ⟨r, hr⟩ := hok u.handle hmem
  exact ⟨r, hr, collects_of_initAll hn ho hr⟩

end AccelHost
