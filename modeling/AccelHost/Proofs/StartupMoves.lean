import AccelHost.Proofs.Foreign

/-!
The steps of startup and shutdown. `Does X xs es m m'` says that work which has the units `xs` in
hand, and `X` besides, does and tells `es` about them: foreign code that runs meanwhile adds nothing
to that, and a module changes only where it is told.
-/
namespace AccelHost

open Holding

def own (xs : List UnitHandle) (es : List TraceEvent) : List TraceEvent :=
  es.filter fun e => e.unit?.any (decide <| · ∈ xs)

section Own

variable {xs : List UnitHandle} {es es' : List TraceEvent} {e : TraceEvent} {x : UnitHandle}

@[simp] theorem own_append : own xs (es ++ es') = own xs es ++ own xs es' := List.filter_append ..

theorem own_singleton (he : e.unit? = some x) (hx : x ∈ xs) : own xs [e] = [e] := by
  simp [own, he, hx]

theorem own_eq_nil (h : ∀ e ∈ es, ∀ x, e.unit? = some x → x ∉ xs) : own xs es = [] := by
  refine List.filter_eq_nil_iff.2 fun e he ha => ?_
  obtain ⟨x, hx, hm⟩ : ∃ x, e.unit? = some x ∧ x ∈ xs := by simpa [Option.any_eq_true] using ha
  exact h e he x hx hm

end Own

structure Does (X : List Holding) (xs : List UnitHandle) (es : List TraceEvent)
    (m m' : Machine) : Prop where
  moves : Moves (ofUnits xs ++ X) m (ofUnits xs ++ X) m'
  told : own xs m'.trace = own xs m.trace ++ es
  kept : ∀ x ∈ xs, .attached x ∉ es → .released x ∉ es →
    m'.host.modules.get? x = m.host.modules.get? x

namespace Does

variable {X : List Holding} {xs G : List UnitHandle} {es es' : List TraceEvent}
  {m m₁ m₂ m' : Machine} {x : UnitHandle}

theorem refl (X : List Holding) (xs : List UnitHandle) (m : Machine) : Does X xs [] m m :=
  ⟨.refl _ m, by simp, fun _ _ _ _ => rfl⟩

theorem trans (h : Does X xs es m m₁) (h' : Does X xs es' m₁ m₂) :
    Does X xs (es ++ es') m m₂ where
  moves := h.moves.trans h'.moves
  told := by rw [h'.told, h.told, List.append_assoc]
  kept x hx ha hr := by
    simp only [List.mem_append, not_or] at ha hr
    rw [h'.kept x hx ha.2 hr.2, h.kept x hx ha.1 hr.1]

theorem orderly (h : Does X xs es m m') (ho : m.Orderly (xs ++ (units X ++ G))) :
    m'.Orderly (xs ++ (units X ++ G)) := by
  have hm := h.moves.orderly (G := G) (by simpa [List.append_assoc] using ho)
  simpa [List.append_assoc] using hm.1

theorem event {e : TraceEvent} (he : e.unit? = some x) (hx : x ∈ xs) :
    Does X xs [e] m { m with trace := m.trace ++ [e] } where
  moves := .event fun y hy => by
    rw [he] at hy
    cases hy
    exact List.mem_append_left X (List.mem_map_of_mem hx)
  told := by simp [own_singleton he hx]
  kept _ _ _ _ := rfl

/-- Foreign code leaves alone what it has not in hand. -/
theorem of_moves (ho : m.Orderly (xs ++ (units X ++ G)))
    (h : Moves (ofUnits xs ++ X) m (ofUnits xs ++ X) m') (hf : Moves [] m [] m') :
    Does X xs [] m m' := by
  have hframed : Framed (xs ++ (units X ++ G)) m m' := (hf.orderly ho).2
  obtain ⟨es, he, hes⟩ := hframed.trace
  refine ⟨h, ?_, fun x hx _ _ => hframed.modules x (List.mem_append_left _ hx)⟩
  rw [he, own_append, own_eq_nil fun e hm x hx hmem =>
    (hes e hm x hx).1 (List.mem_append_left _ hmem)]

end Does

namespace Startup

variable {n : Nested} {X : List Holding} {xs G : List UnitHandle} {m : Machine} {x : UnitHandle}

/-- The session of a hook call is as it began, but for the requests that it has answered. -/
theorem session_callHook {G : List UnitHandle} (hn : n.Lawful) (ho : m.Orderly G)
    (point : EntryPoint) (hook : UnitHandle → Behaviour Status) (r : Registry) :
    Session.Extends { handle := x, vmVersion := m.host.settings.vmVersion, registry := r }
      ((callHook n point hook r x).result m).session := by
  let s : Session := { handle := x, vmVersion := m.host.settings.vmVersion, registry := r }
  let m₁ : Machine := { m with trace := m.trace ++ [.entered point x] }
  have hpush : (m₁.push s).Orderly G := ho.of_same rfl { Host.Same.refl m.host with } rfl
  have hsessions : List.Forall₂ Session.Extends (s :: m.host.sessions)
      ((n.runCode (hook x)).after (m₁.push s)).host.sessions :=
    (hn.runCode (X := []) (hook x) hpush).around.sessions
  change Session.Extends s (((n.runCode (hook x)).after (m₁.push s)).host.sessions.headD s)
  generalize ((n.runCode (hook x)).after (m₁.push s)).host.sessions = sessions at hsessions ⊢
  cases hsessions with
  | cons hs _ => exact hs

/-- A hook call tells that it begins and how it ends, and only extends the registry. -/
theorem callHook_does (hn : n.Lawful) (ho : m.Orderly (xs ++ (units X ++ G))) (hx : x ∈ xs)
    (point : EntryPoint) (hook : UnitHandle → Behaviour Status) (r : Registry) :
    let e := (callHook n point hook r x).result m
    Does X xs [.entered point x, .left point x e.status e.session.failure] m
        ((callHook n point hook r x).after m) ∧
      r.Extends e.session.registry := by
  intro e
  let s : Session := { handle := x, vmVersion := m.host.settings.vmVersion, registry := r }
  let m₁ : Machine := { m with trace := m.trace ++ [.entered point x] }
  let m₂ := (n.runCode (hook x)).after (m₁.push s)
  have h₁ : Does X xs [.entered point x] m m₁ := .event rfl hx
  have ho₁ := h₁.orderly ho
  have hpush : (m₁.push s).Orderly (xs ++ (units X ++ G)) :=
    ho₁.of_same rfl { Host.Same.refl m₁.host with } rfl
  have hcode (Y : List Holding) (G' : List UnitHandle)
      (hp : (m₁.push s).Orderly (units Y ++ G')) : Moves Y m₁ Y m₂.pop :=
    .hook (hn.runCode (hook x) hp)
  have h₂ : Does X xs [] m₁ m₂.pop :=
    .of_moves ho₁ (hcode _ G (by simpa using hpush)) (hcode [] _ hpush)
  have h₃ : Does X xs [.left point x e.status e.session.failure] m₂.pop
      ((callHook n point hook r x).after m) := .event rfl hx
  exact ⟨h₁.trans (h₂.trans h₃), (session_callHook hn ho point hook r).registry⟩

theorem runCode_does (hn : n.Lawful) (ho : m.Orderly (xs ++ (units X ++ G))) {α : Type}
    (code : Behaviour α) : Does X xs [] m ((n.runCode code).after m) := by
  refine .of_moves ho (hn.runCode (G := G) code ?_) (hn.runCode (X := []) code ho)
  simpa using ho

theorem advance_does (hx : x ∈ xs) (r : Registry) (next : UnitState) :
    Does X xs [.advanced x (((r.unit? x).map (·.state)).getD next) next] m
      ((advance r x next).after m) := .event rfl hx

@[simp] theorem result_advance (r : Registry) (next : UnitState) :
    (advance r x next).result m = r.modifyUnit x fun u => { u with state := next } := rfl

theorem attach_does (hx : x ∈ xs) (r : Registry) (mod : UnitModule) :
    Does X xs [.attached x, .advanced x (((r.unit? x).map (·.state)).getD .loaded) .loaded] m
        ((attach r x mod).after m) ∧
      ((attach r x mod).after m).host.modules.get? x = some mod ∧
      (attach r x mod).result m =
        r.modifyUnit x fun u => { u with location := some mod.location, state := .loaded } := by
  let m₁ : Machine := { m with trace := m.trace ++ [.attached x] }
  let m₂ : Machine := m₁.withHost { m.host with
    modules := m.host.modules.set x mod, loaded := m.host.loaded.set x true }
  let r₁ := r.modifyUnit x fun u => { u with location := some mod.location }
  have hin : Holding.unit x ∈ ofUnits xs ++ X := List.mem_append_left X (List.mem_map_of_mem hx)
  have h₁ : Does X xs [.attached x] m m₂ := by
    refine ⟨(Does.event (e := .attached x) rfl hx).moves.trans (.attach hin), ?_, ?_⟩
    · exact (Does.event (X := X) (m := m) (e := .attached x) rfl hx).told
    · intro y _ ha _
      exact Keyed.get?_set_of_ne (by rintro rfl; simp at ha) mod _
  have h₂ : Does X xs [.advanced x (((r₁.unit? x).map (·.state)).getD .loaded) .loaded] m₂
      ((attach r x mod).after m) := .event rfl hx
  have hstate : (r₁.unit? x).map (·.state) = (r.unit? x).map (·.state) := by
    have hr₁ : r₁.unit? x = (r.unit? x).map _ := Registry.unit?_modifyUnit fun _ => rfl
    rw [hr₁]
    cases r.unit? x <;> rfl
  rw [hstate] at h₂
  refine ⟨h₁.trans h₂, Keyed.get?_set_self x mod _, ?_⟩
  simp only [attach, Work.result_bind, result_advance]
  exact Registry.modifyUnit_modifyUnit (fun _ => rfl)

theorem release_does (hx : x ∈ xs) :
    Does X xs (if (m.host.modules.get? x).isSome then [.released x] else []) m
        ((release x).after m) ∧
      ((release x).after m).host.modules.get? x = none := by
  unfold release
  simp only [Work.after_bind, Work.result_host, Work.after_host]
  by_cases hm : (m.host.modules.get? x).isSome = true
  · simp only [hm, ↓reduceIte]
    have hin : Holding.unit x ∈ ofUnits xs ++ X :=
      List.mem_append_left X (List.mem_map_of_mem hx)
    refine ⟨⟨(Does.event (e := .released x) rfl hx).moves.trans (.release hin), ?_, ?_⟩, ?_⟩
    · exact (Does.event (X := X) (m := m) (e := .released x) rfl hx).told
    · intro y _ _ hr
      exact Keyed.get?_erase_of_ne (by rintro rfl; simp at hr) _
    · exact Keyed.get?_erase_self x _
  · simp only [hm, Bool.false_eq_true, ↓reduceIte]
    exact ⟨.refl X xs m, by simpa using hm⟩

end Startup

end AccelHost
