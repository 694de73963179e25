import AccelHost.Proofs.HookOrder

/-!
Each unit that became active is finalized once, however the units of a startup come to their end:
not again when a runtime that was shut down is dropped, and not less because another one failed.
Modules go once as well, and only when nothing is left to finalize.
-/
namespace AccelHost

namespace TraceEvent

def state? (x : UnitHandle) : TraceEvent → Option UnitState
  | advanced y _ next => if y = x then some next else none
  | _ => none

/-- Whether a `finalize` hook ends that failed, or of which a registration was rejected. -/
def finalizeFails (x : UnitHandle) : TraceEvent → Bool
  | left .finalize y status rejected => y = x && (status ≠ Status.ok || rejected ≠ none)
  | _ => false

end TraceEvent

def states (x : UnitHandle) (es : List TraceEvent) : List UnitState := es.filterMap (·.state? x)

def becameActive (es : List TraceEvent) (u : DeclaredUnit) : Bool := .active ∈ states u.handle es

def finalizeFailed (es : List TraceEvent) (u : DeclaredUnit) : Bool :=
  es.any (·.finalizeFails u.handle)

section States

variable {x : UnitHandle} {es es' : List TraceEvent}

@[simp] theorem states_append : states x (es ++ es') = states x es ++ states x es' :=
  List.filterMap_append

@[simp] theorem states_advanced {y : UnitHandle} {before next : UnitState} :
    states x (.advanced y before next :: es) =
      if y = x then next :: states x es else states x es := by
  by_cases h : y = x <;> simp [states, TraceEvent.state?, h]

@[simp] theorem states_entered {point : EntryPoint} {y : UnitHandle} :
    states x (.entered point y :: es) = states x es := rfl

@[simp] theorem states_left {point : EntryPoint} {y : UnitHandle} {status : Status}
    {rejected : Option StartupError} :
    states x (.left point y status rejected :: es) = states x es := rfl

@[simp] theorem states_released (us : List DeclaredUnit) :
    states x (us.map (.released ·.handle)) = [] := by
  induction us with
  | nil => rfl
  | cons u us ih => exact ih

theorem mem_states {state : UnitState} :
    state ∈ states x es ↔ ∃ before, .advanced x before state ∈ es := by
  constructor
  · intro h
    obtain ⟨e, he, hs⟩ := List.mem_filterMap.1 h
    cases e with
    | advanced y before next =>
      simp only [TraceEvent.state?, Option.ite_none_right_eq_some, Option.some.injEq] at hs
      exact ⟨before, by rw [← hs.1, ← hs.2]; exact he⟩
    | _ => cases hs
  · rintro ⟨before, h⟩
    exact List.mem_filterMap.2 ⟨_, h, by simp [TraceEvent.state?]⟩

end States

variable {s : Source} {us active : List DeclaredUnit} {es : List TraceEvent} {x : UnitHandle}

def TraceEvent.finishes : TraceEvent → Bool
  | entered .finalize _ | left .finalize .. | advanced _ _ .finalized => true
  | _ => false

theorem unfinished (h : ∀ e ∈ es, e.finishes = false) (x : UnitHandle) :
    .entered .finalize x ∉ es ∧ .finalized ∉ states x es ∧ es.any (·.finalizeFails x) = false := by
  refine ⟨fun hm => (by cases h _ hm), fun hm => ?_, List.any_eq_false.2 fun e he hf => ?_⟩
  · obtain ⟨before, hm⟩ := mem_states.1 hm
    cases h _ hm
  · have hfinishes := h e he
    cases e with
    | left point =>
      cases point with
      | finalize => cases hfinishes
      | init | postInit | exports => simp [TraceEvent.finalizeFails] at hf
    | _ => cases hf

theorem Loading.unfinished {done : Bool} (h : Loading us es done) :
    ∀ e ∈ es, e.finishes = false := by
  induction h with
  | nil | missing => simp
  | failed => simp [begun, TraceEvent.finishes]
  | rejected => simp [begun, exported, TraceEvent.finishes]
  | cons _ ih => simpa [begun, exported, TraceEvent.finishes] using ih

theorem Completing.unfinished {done : Bool} (h : Completing s us es active done) :
    ∀ e ∈ es, e.finishes = false := by
  induction h with
  | nil => simp
  | failed => simp [TraceEvent.finishes]
  | bare _ _ ih | hook _ _ ih => simpa [TraceEvent.finishes] using ih

theorem Loading.active_not_mem {done : Bool} (h : Loading us es done) (x : UnitHandle) :
    .active ∉ states x es := by
  rw [mem_states]
  induction h with
  | nil | missing => simp
  | failed => simp [begun]
  | rejected => simp [begun, exported]
  | cons _ ih => simpa [begun, exported] using ih

theorem Loading.count_attached_le {done : Bool} (h : Loading us es done) (x : UnitHandle) :
    es.count (.attached x) ≤ (us.map (·.handle)).count x := by
  induction h with
  | nil => simp
  | missing => simp
  | failed => simp [begun, List.count_cons]
  | rejected => simp [begun, exported, List.count_cons]
  | cons _ ih =>
    simp only [begun, exported, List.count_append, List.count_cons, List.map_cons]
    simp
    omega

theorem Completing.sublist {done : Bool} (h : Completing s us es active done) :
    active.Sublist us := by
  induction h with
  | nil => exact .slnil
  | failed => exact List.nil_sublist _
  | bare _ _ ih | hook _ _ ih => exact ih.cons_cons _

theorem Completing.filter_active {done : Bool} (h : Completing s us es active done)
    (hn : (us.map (·.handle)).Nodup) : us.filter (becameActive es) = active := by
  induction h with
  | nil => rfl
  | @failed u us status rejected =>
    refine List.filter_eq_nil_iff.2 fun v _ => ?_
    rw [becameActive, decide_eq_true_eq, mem_states]
    simp
  | @bare u us active es done _ _ ih | @hook u us active es done _ _ ih =>
    obtain ⟨hnot, hn⟩ := List.nodup_cons.1 hn
    have hself : becameActive (.advanced u.handle .activePending .active :: es) u = true := by
      simp [becameActive]
    have hother : ∀ v ∈ us, becameActive (.advanced u.handle .activePending .active :: es) v =
        becameActive es v := fun v hv => by
      have hne : u.handle ≠ v.handle := fun he => hnot (List.mem_map.2 ⟨v, hv, he.symm⟩)
      simp [becameActive, hne]
    rw [List.filter_cons_of_pos (by exact hself)]
    refine congrArg (u :: ·) ((List.filter_congr fun v hv => ?_).trans (ih hn))
    exact hother v hv

theorem Finalizing.count_entered {names : List String} {failures : List (String × String)}
    (h : Finalizing s us es names failures) (x : UnitHandle) :
    es.count (.entered .finalize x) =
      ((us.filter (s.exports .finalize)).map (·.handle)).count x := by
  induction h with
  | nil => rfl
  | bare hu _ ih =>
    rw [List.filter_cons_of_neg (by simp [hu]), ← ih]
    simp
  | hook hu _ _ ih =>
    rw [List.filter_cons_of_pos hu, List.map_cons, List.count_cons (l := List.map _ _), ← ih]
    simp [List.count_cons]

theorem Finalizing.states_eq {names : List String} {failures : List (String × String)}
    (h : Finalizing s us es names failures) (x : UnitHandle) :
    states x es = List.replicate ((us.map (·.handle)).count x) .finalized := by
  induction h with
  | nil => rfl
  | @bare u us _ _ _ _ _ ih | @hook u us _ _ _ _ _ _ _ _ _ ih =>
    by_cases hx : u.handle = x
    · simp [hx, ih, List.replicate_succ]
    · simp [hx, ih]

theorem Finalizing.names_eq {names : List String} {failures : List (String × String)}
    (h : Finalizing s us es names failures) : names = us.map (·.name) := by
  induction h with
  | nil => rfl
  | bare _ _ ih | hook _ _ _ ih => rw [ih, List.map_cons]

theorem Finalizing.fails_of_not_mem {names : List String} {failures : List (String × String)}
    (h : Finalizing s us es names failures) (hx : x ∉ us.map (·.handle)) :
    es.any (·.finalizeFails x) = false := by
  induction h with
  | nil => rfl
  | bare _ _ ih => exact ih fun hm => hx (List.mem_cons_of_mem _ hm)
  | @hook u us _ _ _ _ _ _ _ _ _ ih =>
    simp only [List.map_cons, List.mem_cons, not_or] at hx
    have hne : u.handle ≠ x := Ne.symm hx.1
    simpa [TraceEvent.finalizeFails, hne] using ih hx.2

theorem Finalizing.failures_eq {names : List String} {failures : List (String × String)}
    (h : Finalizing s us es names failures) (hn : (us.map (·.handle)).Nodup) :
    failures.map (·.1) = (us.filter (finalizeFailed es)).map (·.name) := by
  induction h with
  | nil => rfl
  | @bare u us es names failures _ hfin ih =>
    obtain ⟨hnot, hn⟩ := List.nodup_cons.1 hn
    have hself : finalizeFailed (.advanced u.handle .active .finalized :: es) u = false :=
      hfin.fails_of_not_mem hnot
    rw [List.filter_cons_of_neg (by simpa using hself), ih hn]
    rfl
  | @hook u us es names failures status rejected message hu hmessage hfin ih =>
    obtain ⟨hnot, hn⟩ := List.nodup_cons.1 hn
    have hother : us.filter (finalizeFailed (.entered .finalize u.handle ::
        .left .finalize u.handle status rejected ::
          .advanced u.handle .active .finalized :: es)) = us.filter (finalizeFailed es) := by
      refine List.filter_congr fun v hv => ?_
      have hne : u.handle ≠ v.handle := fun he => hnot (List.mem_map.2 ⟨v, hv, he.symm⟩)
      simp [finalizeFailed, TraceEvent.finalizeFails, hne]
    have hself : finalizeFailed (.entered .finalize u.handle ::
        .left .finalize u.handle status rejected ::
          .advanced u.handle .active .finalized :: es) u = message.isSome := by
      have hrest : es.any (·.finalizeFails u.handle) = false := hfin.fails_of_not_mem hnot
      rw [finalizeFailed, List.any_cons, List.any_cons, List.any_cons, hrest]
      simp only [TraceEvent.finalizeFails]
      cases message with
      | none =>
        obtain ⟨hs, hr⟩ := hmessage.1 rfl
        simp [hs, hr]
      | some text =>
        by_cases hs : status = Status.ok
        · have hr : rejected ≠ none := fun hr => by simpa using hmessage.2 ⟨hs, hr⟩
          simp [hs, hr]
        · simp [hs]
    cases message with
    | none =>
      rw [List.filter_cons_of_neg (by simp [hself]), hother, ← ih hn]
      rfl
    | some text =>
      rw [List.filter_cons_of_pos (by simp [hself]), hother, List.map_cons, ← ih hn]
      rfl

/-- What the lifetime of a unit comes to: it is finalized once if it became active, and not at all
otherwise; its module is attached and released once, or neither. -/
structure Settled (s : Source) (es : List TraceEvent) (u : DeclaredUnit) : Prop where
  finalize : es.count (.entered .finalize u.handle) =
    if becameActive es u ∧ s.exports .finalize u = true then 1 else 0
  finalized : becameActive es u = true → (states u.handle es).getLast? = some .finalized
  untouched : becameActive es u = false → .finalized ∉ states u.handle es
  attached : es.count (.attached u.handle) ≤ 1
  released : es.count (.released u.handle) = es.count (.attached u.handle)

namespace Startup

variable {report : ShutdownReport}

theorem completed {ps : List TraceEvent} {loaded : Bool} (hn : (us.map (·.handle)).Nodup)
    (h : ps = [] ∧ active = [] ∨ (loaded = true ∧ ∃ done, Completing s us ps active done)) :
    us.filter (becameActive ps) = active ∧ (∀ e ∈ ps, e.finishes = false) ∧
      ∀ x, .attached x ∉ ps ∧ .released x ∉ ps := by
  rcases h with ⟨rfl, rfl⟩ | ⟨-, done, h⟩
  · exact ⟨by simp [becameActive, states], by simp, by simp⟩
  · exact ⟨h.filter_active hn, h.unfinished, h.plain⟩

theorem released_told (vs : List DeclaredUnit) :
    (∀ e ∈ vs.map fun u => TraceEvent.released u.handle, e.finishes = false) ∧
      ∀ x, .attached x ∉ vs.map fun u => TraceEvent.released u.handle :=
  ⟨by simp [TraceEvent.finishes], by simp⟩

theorem count_released (us : List DeclaredUnit) (x : UnitHandle) :
    (us.map fun u => TraceEvent.released u.handle).count (.released x) =
      (us.map (·.handle)).count x := by
  induction us with
  | nil => rfl
  | cons u us ih => simp [List.count_cons, ih]

theorem mem_handles_iff {u : DeclaredUnit} {vs : List DeclaredUnit}
    (hn : (us.map (·.handle)).Nodup) (hvs : vs.Sublist us) (hu : u ∈ us) :
    u.handle ∈ vs.map (·.handle) ↔ u ∈ vs := by
  refine ⟨fun h => ?_, List.mem_map_of_mem⟩
  obtain ⟨v, hv, he⟩ := List.mem_map.1 h
  rwa [← List.inj_on_of_nodup_map hn (hvs.subset hv) hu he]

theorem Story.settled (h : Story s us es active report) (hn : (us.map (·.handle)).Nodup) :
    us.filter (becameActive es) = active ∧ (∀ u ∈ us, Settled s es u) ∧
      (∃ (told : List TraceEvent) (xs : List UnitHandle), es = told ++ xs.map .released ∧
        ∀ x, .released x ∉ told) ∧
      report.finalized = active.map (·.name) ∧
      report.failures.map (·.1) = (us.filter (finalizeFailed es)).map (·.name) := by
  obtain @⟨ls, ps, fs, active, report, loaded, hload, hcomp, hfin⟩ := h
  obtain ⟨hactive, hps, hplain⟩ := completed hn hcomp
  have hsub : active.Sublist us := hactive ▸ List.filter_sublist
  have hbecame : ∀ u ∈ us, becameActive (ls ++ (ps ++ (fs ++
      (us.filter fun u => .attached u.handle ∈ ls).map (.released ·.handle)))) u =
        becameActive ps u := fun u _ => by
    simp [becameActive, hload.active_not_mem, hfin.states_eq, List.mem_replicate]
  have hfilter := (List.filter_congr hbecame).trans hactive
  have hmem : ∀ u ∈ us, becameActive ps u = true ↔ u ∈ active := fun u hu => by
    rw [← hactive, List.mem_filter, and_iff_right hu]
  have hnodup : (active.map (·.handle)).Nodup := (hsub.map _).nodup hn
  have hold (x : UnitHandle) := unfinished hload.unfinished x
  have hmid (x : UnitHandle) := unfinished hps x
  obtain ⟨hgone, hlast⟩ := released_told (us.filter fun u => .attached u.handle ∈ ls)
  refine ⟨hfilter, fun u hu => ⟨?_, fun hb => ?_, fun hb => ?_, ?_, ?_⟩, ?_, hfin.names_eq, ?_⟩
  · have hcount : ((active.filter (s.exports .finalize)).map (·.handle)).count u.handle =
        if u ∈ active ∧ s.exports .finalize u = true then 1 else 0 := by
      have hsub' := (List.filter_sublist (p := s.exports .finalize)).trans hsub
      rw [((hsub'.map _).nodup hn).count]
      simp only [mem_handles_iff hn hsub' hu, List.mem_filter]
    rw [hbecame u hu]
    simp only [hmem u hu, List.count_append, List.count_eq_zero.2 (hold _).1,
      List.count_eq_zero.2 (hmid _).1, hfin.count_entered, hcount]
    simp [List.count_eq_zero]
  · rw [hbecame u hu, hmem u hu] at hb
    have hone : (active.map (·.handle)).count u.handle = 1 :=
      List.count_eq_one_of_mem hnodup (List.mem_map_of_mem hb)
    simp [hfin.states_eq, hone]
  · have hnot : u.handle ∉ active.map (·.handle) := by
      rw [mem_handles_iff hn hsub hu, ← hmem u hu, ← hbecame u hu, hb]
      simp
    simp [hfin.states_eq, List.count_eq_zero.2 hnot, (hold u.handle).2.1, (hmid u.handle).2.1]
  · have hle := hload.count_attached_le u.handle
    have hone := List.nodup_iff_count_le_one.1 hn u.handle
    simp only [List.count_append, List.count_eq_zero.2 (hplain _).1,
      List.count_eq_zero.2 (hfin.plain _).1, List.count_eq_zero.2 (hlast _)]
    omega
  · simp only [List.count_append, List.count_eq_zero.2 (hload.released_not_mem _),
      List.count_eq_zero.2 (hplain _).1, List.count_eq_zero.2 (hplain _).2,
      List.count_eq_zero.2 (hfin.plain _).1, List.count_eq_zero.2 (hfin.plain _).2,
      List.count_eq_zero.2 (hlast _)]
    simp only [Nat.zero_add, Nat.add_zero]
    have hsub' := List.filter_sublist (p := fun v => .attached v.handle ∈ ls) (l := us)
    rw [count_released, ((hsub'.map _).nodup hn).count]
    simp only [mem_handles_iff hn hsub' hu, List.mem_filter, hu, true_and, decide_eq_true_eq]
    have hle := hload.count_attached_le u.handle
    have hone := List.nodup_iff_count_le_one.1 hn u.handle
    split
    · rename_i ha
      have hpos := List.count_pos_iff.2 ha
      omega
    · rename_i ha
      exact (List.count_eq_zero.2 ha).symm
  · refine ⟨ls ++ (ps ++ fs), (us.filter fun u => .attached u.handle ∈ ls).map (·.handle), ?_,
      fun x => ?_⟩
    · simp [List.append_assoc, Function.comp_def]
    · simp [hload.released_not_mem, (hplain x).2, (hfin.plain x).2]
  · rw [hfin.failures_eq hnodup, ← hactive, List.filter_filter]
    refine congrArg (List.map _) (List.filter_congr fun u hu => ?_)
    have hfailed : finalizeFailed (ls ++ (ps ++ (fs ++
        (us.filter fun u => .attached u.handle ∈ ls).map (.released ·.handle)))) u =
          fs.any (·.finalizeFails u.handle) := by
      rw [finalizeFailed, List.any_append, List.any_append, List.any_append, (hold _).2.2,
        (hmid _).2.2, (unfinished hgone _).2.2, Bool.false_or, Bool.false_or, Bool.or_false]
    rw [hfailed]
    by_cases hb : becameActive ps u = true
    · simp [finalizeFailed, hb]
    · have hnot : u.handle ∉ active.map (·.handle) := by
        rwa [mem_handles_iff hn hsub hu, ← hmem u hu]
      simp [hb, hfin.fails_of_not_mem hnot]

end Startup

open Startup in
/-- Finalizing exactly once. However the units of a startup come to their end, each that became
active is finalized once, all others are not, and every module that was attached is released once,
after everything else; a shutdown reports the units that it finalized and those that failed then. -/
theorem finalized_exactly_once (d : Nat) :
    (∀ program (ops : List Op),
      ((ops.mapM (Op.answer (.ofDepth d))).after (.ofProgram program)).Orderly []) ∧
    ∀ (G : List UnitHandle) (m m' : Machine) (report : Option ShutdownReport), m.Orderly G →
      Life (.ofDepth d) m report m' →
      ∃ es, own (m.declares.map (·.handle)) m'.trace =
          own (m.declares.map (·.handle)) m.trace ++ es ∧
        (∀ u ∈ m.declares, Settled m.host.source es u) ∧
        (∃ (told : List TraceEvent) (xs : List UnitHandle), es = told ++ xs.map .released ∧
          ∀ x, .released x ∉ told) ∧
        ∀ r, report = some r →
          r.finalized = (m.declares.filter (becameActive es)).map (·.name) ∧
            r.failures.map (·.1) = (m.declares.filter (finalizeFailed es)).map (·.name) := by
  refine ⟨fun program ops => ?_, fun G m m' report ho hlife => ?_⟩
  · exact Op.orderly_answers d ops (Machine.orderly_ofProgram program)
  · have hn := (orderly_afterDeclares (X := []) (G := G) ho (moves_afterDeclares [] m)).1.distinct
    have hnodup := (List.nodup_append.1 (List.nodup_append.1 hn).1).1
    obtain ⟨es, active, rep, htold, hstory, hreport⟩ :=
      hlife.story (Nested.lawful_ofDepth d) ho
    obtain ⟨hactive, hsettled, hlast, hfinalized, hfailures⟩ := hstory.settled hnodup
    refine ⟨es, htold, hsettled, hlast, fun r hr => ?_⟩
    rw [hreport r hr, hactive]
    exact ⟨hfinalized, hfailures⟩

end AccelHost
