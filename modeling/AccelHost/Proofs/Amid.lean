import AccelHost.Proofs.Pinning

/-!
Machines in the course of moves. Whatever goes on within a hook, or within a program that a hook
carries out, the units that are in other hands keep their modules.
-/
namespace AccelHost

open Holding

/-- A machine that comes up in the course of moves: between two of them, within a hook, within a
program that foreign code carries out, or once the hook around all this is over. -/
inductive Amid : List Holding → Machine → Machine → Prop where
  | moves {X Y : List Holding} {m m' : Machine} : Moves X m Y m' → Amid X m m'
  | hook {X Y : List Holding} {m m₁ m' : Machine} {s : Session} :
      Moves X m Y m₁ → Amid Y (m₁.push s) m' → Amid X m m'
  | nested {X Y : List Holding} {m m₁ m' : Machine} {p : Program} :
      Moves X m Y m₁ → Amid [] (m₁.enter p) m' → Amid X m m'
  | left {X Y : List Holding} {m m₁ m' : Machine} :
      Moves X m Y m₁ → Amid Y m₁.pop m' → Amid X m m'

theorem forall_waited_trans {hs₁ hs₂ hs₃ : List Host} (h : List.Forall₂ Host.Waited hs₁ hs₂)
    (h' : List.Forall₂ Host.Waited hs₂ hs₃) : List.Forall₂ Host.Waited hs₁ hs₃ :=
  forall₂_trans (fun _ _ _ w w' => w.trans w') h h'

namespace Machine

def level (m : Machine) : Nat := m.waiting.length

def hostAt (m : Machine) (level : Nat) : Option Host := (m.host :: m.waiting).reverse[level]?

theorem hostAt_of_eq {m : Machine} {inner rest : List Host} {h : Host}
    (heq : m.host :: m.waiting = inner ++ h :: rest) : m.hostAt rest.length = some h := by
  have hlen : rest.length = rest.reverse.length := rest.length_reverse.symm
  rw [hostAt, heq, List.reverse_append, List.reverse_cons, List.append_assoc, hlen,
    List.getElem?_append_right (Nat.le_refl _), Nat.sub_self]
  rfl

variable {m : Machine} {G : List UnitHandle}

theorem Orderly.hostAt {level : Nat} {h : Host} (ho : m.Orderly G) (hh : m.hostAt level = some h) :
    ∃ next, h.Orderly next := by
  have hmem : h ∈ m.host :: m.waiting := List.mem_reverse.1 (List.mem_of_getElem? hh)
  rcases List.mem_cons.1 hmem with rfl | hmem
  · exact ⟨_, ho.host⟩
  · exact ⟨_, ho.waiting h hmem⟩

theorem Orderly.push (ho : m.Orderly G) (s : Session) : (m.push s).Orderly G :=
  ho.of_same rfl { Host.Same.refl m.host with } rfl

theorem Orderly.pop (ho : m.Orderly G) : m.pop.Orderly G :=
  ho.of_same rfl { Host.Same.refl m.host with } rfl

end Machine

namespace Amid

variable {X : List Holding} {G : List UnitHandle} {m m' : Machine}

/-- The host at work is there as long as programs within it go on, and units in other hands keep
their modules. -/
theorem exists_host (h : Amid X m m') (ho : m.Orderly (units X ++ G)) :
    ∃ inner host rest, m'.host :: m'.waiting = inner ++ host :: rest ∧
      List.Forall₂ Host.Waited m.waiting rest ∧
      ∀ x ∈ G, host.modules.get? x = m.host.modules.get? x := by
  induction h generalizing G with
  | moves hm => exact ⟨[], _, _, rfl, hm.around.waiting, (hm.orderly ho).2.modules⟩
  | hook hm _ ih =>
    obtain ⟨ho₁, hf⟩ := hm.orderly ho
    obtain ⟨inner, host, rest, heq, hrest, hmodules⟩ := ih (ho₁.push _)
    exact ⟨inner, host, rest, heq, forall_waited_trans hm.around.waiting hrest,
      fun x hx => (hmodules x hx).trans (hf.modules x hx)⟩
  | nested hm _ ih =>
    obtain ⟨ho₁, hf⟩ := hm.orderly ho
    obtain ⟨inner, host, rest, heq, hrest, -⟩ := ih (ho₁.enter _)
    -- The host at work waits for the program, below which it is found again.
    obtain ⟨host', rest', hwait, hrest', rfl⟩ := List.forall₂_cons_left_iff.1 hrest
    refine ⟨inner ++ [host], host', rest', by rw [heq]; simp,
      forall_waited_trans hm.around.waiting hrest', fun x hx => ?_⟩
    rw [hwait.modules_eq]
    exact hf.modules x hx
  | left hm _ ih =>
    obtain ⟨ho₁, hf⟩ := hm.orderly ho
    obtain ⟨inner, host, rest, heq, hrest, hmodules⟩ := ih ho₁.pop
    exact ⟨inner, host, rest, heq, forall_waited_trans hm.around.waiting hrest,
      fun x hx => (hmodules x hx).trans (hf.modules x hx)⟩

theorem orderly (h : Amid X m m') (ho : m.Orderly (units X ++ G)) : ∃ K, m'.Orderly K := by
  induction h generalizing G with
  | moves hm => exact ⟨_, (hm.orderly ho).1⟩
  | hook hm _ ih => exact ih ((hm.orderly ho).1.push _)
  | nested hm _ ih => exact ih ((hm.orderly ho).1.enter _)
  | left hm _ ih => exact ih (hm.orderly ho).1.pop

theorem hostAt (h : Amid X m m') (ho : m.Orderly (units X ++ G)) :
    ∃ host, m'.hostAt m.level = some host ∧
      ∀ x ∈ G, host.modules.get? x = m.host.modules.get? x := by
  obtain ⟨inner, host, rest, heq, hrest, hmodules⟩ := h.exists_host ho
  refine ⟨host, ?_, hmodules⟩
  rw [Machine.level, hrest.length_eq]
  exact Machine.hostAt_of_eq heq

end Amid

end AccelHost
