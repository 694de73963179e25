import AccelHost.Proofs.PairedCalls

/-!
Replacements beyond their runtime. Whoever has the replacements of a runtime at hand may call
methods by them when the runtime is gone and its units are released. Both modes still come to the
same: where the unit of an entry is released, lowering the entry is refused, and so is the call of a
plan from before. What they answer to `compile` is another matter, since that is what they keep.
-/
namespace AccelHost

open Holding

/-- Replacements that a runtime publishes or has published. Nothing else is published under their
number, and the functions of their compiled calls are known. -/
structure Retained (m : Machine) (rs : Replacements) : Prop where
  serial : rs.id < m.host.serial
  published : ∀ p ∈ m.host.publications, p.id = rs.id → p = ⟨true, rs.id, rs.published⟩
  compiled : m.host.Compiles rs rs.compiled

namespace Retained

variable {m m' : Machine} {rs : Replacements}

theorem of_runtime {next : UnitHandle} {r : Runtime} (ho : m.host.Orderly next)
    (hr : m.host.runtime = some r) : Retained m r.replacements where
  serial := (ho.runtime r hr).serial
  published p hp hid := by
    have hr' : ⟨true, r.replacements.id, r.replacements.published⟩ ∈ m.host.publications := by
      simp [Host.publications, hr]
    exact ho.eq_of_id hp hr' hid
  compiled := (ho.runtime r hr).compiled

theorem later (h : Retained m rs) (ha : Around m m') : Retained m' rs where
  serial := Nat.lt_of_lt_of_le h.serial ha.serial
  published p hp hid := by
    rcases ha.published p hp with hp | hlt
    · exact h.published p hp hid
    · exact absurd h.serial (Nat.not_lt_of_le (hid ▸ hlt))
  compiled method c hc := by
    obtain ⟨e, func, he, hf, hcall⟩ := h.compiled method c hc
    exact ⟨e, func, he, Host.native?_mono ha.provided hf, hcall⟩

end Retained

namespace Dispatch

variable {n : Nested} {q : Prop} {G : List UnitHandle} {m m' : Machine} {rs rs' : Replacements}

/-- A plan with the function of its entry is called as the entry is interpreted, whether or not the
unit is still loaded. -/
theorem interpret_of_known {e : Entry} {func : CodeRef} (hf : m.host.native? e = some func)
    (args : List Value) :
    (interpret n e args).result m = (call n (.ofEntry e func) args).result m ∧
      (interpret n e args).after m = (call n (.ofEntry e func) args).after m := by
  by_cases hl : m.host.isLoaded e = true
  · obtain ⟨hr, ha⟩ := lower_of_known (n := n) hl hf
    simp only [interpret, Work.result_bind, Work.after_bind, hr, ha, and_self]
  · unfold interpret lower call
    simp [hl, CallPlan.ofEntry]

/-- A method comes to what it does where nothing is compiled, in one mode or the other, perhaps
after waiting for the compiled calls. -/
theorem invoke_uncached (h : Retained m rs) (method : Method) (mode : CallMode)
    (args : List Value) : ∃ mode' m₁, (m₁ = m ∨ m₁ = m.await (.calls rs.id)) ∧
    (invoke n rs method mode args).result m =
        (invoke n (cleared rs) method mode' args).result m₁ ∧
      (invoke n rs method mode args).after m =
        (invoke n (cleared rs) method mode' args).after m₁ := by
  cases mode with
  | interpreted => exact ⟨.interpreted, m, .inl rfl, rfl, rfl⟩
  | compiled =>
    cases hget : rs.compiled.get? method with
    | none =>
      have hcompile : compile n rs method = compile n (cleared rs) method := by
        unfold compile
        rw [hget]
        rfl
      refine ⟨.compiled, m, .inl rfl, ?_⟩
      simp only [invoke, hcompile, and_self]
    | some c =>
      obtain ⟨e, func, he, hf, rfl⟩ := h.compiled method c (Keyed.mem_of_get? hget)
      -- To compile again could be refused by now, but what is kept is called as if interpreted.
      obtain ⟨hr, ha⟩ := interpret_of_known (n := n) (m := m.await (.calls rs.id)) hf args
      refine ⟨.interpreted, m.await (.calls rs.id), .inr rfl, ?_⟩
      simp only [invoke, compile, hget, cleared, he, Work.result_bind, Work.after_bind,
        Work.after_await, Work.result_pure, Work.after_pure, hr, ha, and_self]

theorem lowersSuited_of_retained (hn : n.Lawful) (h : Retained m rs) (method : Method)
    (ho : m.Orderly G) : LowersSuited n m rs method := by
  intro e p he hp s hs hid
  obtain ⟨_, func, rfl, hf⟩ := eq_ofEntry_of_lower hp
  have hm : Moves [] m [] ((lower n e).after m) := lower_carries hn e ho
  have hpub := (h.later hm.around).published _ (Host.mem_publications hs) hid
  simp only [Publication.mk.injEq] at hpub
  exact ⟨hpub.1, e, func, by rw [hpub.2.2, he], hf, rfl⟩

/-- A method called by replacements of one runtime comes to the same in both modes, whatever was
compiled and whatever became of the runtime. -/
theorem invoke_retained_paired (hn : n.Fair q) (h : Retained m rs) (h' : Retained m' rs')
    (hsame : cleared rs' = cleared rs) (method : Method) (mode mode' : CallMode)
    (args : List Value) :
    Agree q G m m' (invoke n rs method mode args) (invoke n rs' method mode' args) := by
  intro ho t
  obtain ⟨μ, m₁, hm₁, hr, ha⟩ := invoke_uncached (n := n) h method mode args
  obtain ⟨μ', m₁', hm₁', hr', ha'⟩ := invoke_uncached (n := n) h' method mode' args
  have hfirst : m₁.Orderly G ∧ m₁.Twin q m' ∧ Retained m₁ rs := by
    rcases hm₁ with rfl | rfl
    · exact ⟨ho, t, h⟩
    · exact ⟨ho.of_same rfl (.refl _) rfl, t.await_left _, ⟨h.serial, h.published, h.compiled⟩⟩
  obtain ⟨ho₁, t₁, h₁⟩ := hfirst
  have t₁' : m₁.Twin q m₁' := by
    rcases hm₁' with rfl | rfl
    · exact t₁
    · exact t₁.await_right _
  have hsuits : LowersSuitedHeld n G m₁ rs method := by
    rintro _ (rfl | rfl) ho₂
    · exact lowersSuited_of_retained hn.lawful h₁ method ho₂
    · exact lowersSuited_of_retained hn.lawful (m := m₁.hold _)
        ⟨h₁.serial, h₁.published, h₁.compiled⟩ method ho₂
  rw [hr, ha, hr', ha', hsame]
  exact invoke_paired_of_plan hn (plan_cleared_paired hn hsuits μ μ') args ho₁ t₁'

end Dispatch

end AccelHost
