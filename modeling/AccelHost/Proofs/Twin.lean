import AccelHost.Proofs.Alike
import AccelHost.Proofs.Framed

/-!
Machines that run programs which differ only in modes. Their hosts have alike code and modules, and
otherwise differ only in what is compiled, and in the locks that were taken for that. Where
providers are reserved, no lock is taken when an operation begins, and nothing is stuck.
-/
namespace AccelHost

/-- Compiled calls that belong to some replacements in a host. -/
def Host.Compiles (h : Host) (s : Replacements) (compiled : Keyed Method CompiledCall) : Prop :=
  ∀ method c, (method, c) ∈ compiled → ∃ e func, s.published.find? method = some e ∧
    h.native? e = some func ∧ c = ⟨.ofEntry e func, .cached s.id method⟩

/-- Every call that replacements keep is what lowering the entry again would give: the unit is
loaded, and the function known. -/
def Host.Caches (h : Host) (s : Replacements) : Prop :=
  ∀ method c, s.compiled.get? method = some c → ∃ e func, s.published.find? method = some e ∧
    h.isLoaded e = true ∧ h.native? e = some func ∧ c = ⟨.ofEntry e func, .cached s.id method⟩

def Runtime.recompiled (compiled : Keyed Method CompiledCall) (r : Runtime) : Runtime :=
  { r with replacements := { r.replacements with compiled } }

theorem Keyed.get?_rel {κ ν : Type} [DecidableEq κ] {r : ν → ν → Prop} {t t' : Keyed κ ν}
    (h : List.Forall₂ (fun a b => a.1 = b.1 ∧ r a.2 b.2) t t') (k : κ) :
    Option.Rel r (t.get? k) (t'.get? k) := by
  induction h with
  | nil => exact .none
  | @cons a b t t' hab _ ih =>
    obtain ⟨hk, hr⟩ := hab
    by_cases ha : a.1 = k
    · simpa [get?, ha, hk ▸ ha] using Option.Rel.some hr
    · simpa [get?, ha, hk ▸ ha] using ih

theorem Keyed.set_rel {κ ν : Type} [DecidableEq κ] {r : ν → ν → Prop} {t t' : Keyed κ ν}
    (h : List.Forall₂ (fun a b => a.1 = b.1 ∧ r a.2 b.2) t t') (k : κ) {v v' : ν} (hv : r v v') :
    List.Forall₂ (fun a b => a.1 = b.1 ∧ r a.2 b.2) (t.set k v) (t'.set k v') := by
  induction h with
  | nil => exact .cons ⟨rfl, hv⟩ .nil
  | @cons a b t t' hab hrest ih =>
    obtain ⟨hk, hr⟩ := hab
    by_cases ha : a.1 = k
    · simpa [set, ha, hk ▸ ha, hv] using hrest
    · simpa [set, ha, hk ▸ ha, hk, hr] using ih

theorem Keyed.erase_rel {κ ν : Type} [DecidableEq κ] {r : ν → ν → Prop} {t t' : Keyed κ ν}
    (h : List.Forall₂ (fun a b => a.1 = b.1 ∧ r a.2 b.2) t t') (k : κ) :
    List.Forall₂ (fun a b => a.1 = b.1 ∧ r a.2 b.2) (t.erase k) (t'.erase k) := by
  induction h with
  | nil => exact .nil
  | @cons a b t t' hab _ ih =>
    obtain ⟨hk, hr⟩ := hab
    unfold erase at ih ⊢
    by_cases ha : a.1 = k
    · simpa [ha, hk ▸ ha] using ih
    · simpa [ha, hk ▸ ha, hk, hr] using ih

namespace Host

/-- A host with other code and modules, with other calls compiled and other locks taken. -/
def recast (h : Host) (source : Source)
    (native : CodeRef → Option (List NativeArg → Behaviour UInt64))
    (provider : CodeRef → Option (String → Option CodeRef → Behaviour (Option CodeRef)))
    (modules : Keyed UnitHandle UnitModule) (compiled : Keyed Method CompiledCall)
    (locks : List Lock) : Host :=
  { h with
    source, native, provider, modules, locks, runtime := h.runtime.map (·.recompiled compiled) }

/-- A host without locks whose providers ask for no operation and no program. -/
def Reserved (h : Host) : Prop :=
  h.locks = [] ∧ ∀ code, ∀ f ∈ h.provider code, ∀ name data, (f name data).OnlyAsks Action.Immediate

/-- A host that does the same but for the modes of its calls. If `q`, providers are reserved. -/
inductive Twin (q : Prop) (h : Host) : Host → Prop where
  | mk {source : Source} {native : CodeRef → Option (List NativeArg → Behaviour UInt64)}
      {provider : CodeRef → Option (String → Option CodeRef → Behaviour (Option CodeRef))}
      {modules : Keyed UnitHandle UnitModule} {compiled : Keyed Method CompiledCall}
      {locks : List Lock} :
      Source.Alike q h.source source →
      (∀ func, Option.Rel (fun f g => ∀ args, Behaviour.Alike q (f args) (g args))
        (h.native func) (native func)) →
      (∀ code, Option.Rel (fun f g => ∀ name data, Behaviour.Alike q (f name data) (g name data))
        (h.provider code) (provider code)) →
      List.Forall₂ (fun a b => a.1 = b.1 ∧ UnitModule.Alike q a.2 b.2) h.modules modules →
      (∀ r, h.runtime = some r → h.Compiles r.replacements compiled) →
      (q → h.Reserved ∧ (h.recast source native provider modules compiled locks).Reserved) →
      Twin q h (h.recast source native provider modules compiled locks)

namespace Twin

variable {q : Prop} {h h' : Host}

/-- What does not look at code, modules or compiled calls is the same. -/
theorem same {γ : Type} (t : h.Twin q h') (f : Host → γ)
    (hf : ∀ source native provider modules compiled locks,
      f (h.recast source native provider modules compiled locks) = f h) : f h' = f h := by
  cases t with | mk => exact hf _ _ _ _ _ _

theorem native (t : h.Twin q h') (func : CodeRef) :
    Option.Rel (fun f g => ∀ args, Behaviour.Alike q (f args) (g args)) (h.native func)
      (h'.native func) := by
  cases t with | mk _ hn => exact hn func

theorem provider (t : h.Twin q h') (code : CodeRef) :
    Option.Rel (fun f g => ∀ name data, Behaviour.Alike q (f name data) (g name data))
      (h.provider code) (h'.provider code) := by
  cases t with | mk _ _ hp => exact hp code

theorem source (t : h.Twin q h') : Source.Alike q h.source h'.source := by
  cases t with | mk hs => exact hs

theorem reserved (t : h.Twin q h') (hq : q) : h.Reserved ∧ h'.Reserved := by
  cases t with | mk _ _ _ _ _ hr => exact hr hq

theorem modules (t : h.Twin q h') (x : UnitHandle) :
    Option.Rel (UnitModule.Alike q) (h.modules.get? x) (h'.modules.get? x) := by
  cases t with | mk _ _ _ hm => exact Keyed.get?_rel hm x

theorem module_isSome (t : h.Twin q h') (x : UnitHandle) :
    (h'.modules.get? x).isSome = (h.modules.get? x).isSome := by
  have hm := t.modules x
  generalize h.modules.get? x = a at hm ⊢
  generalize h'.modules.get? x = b at hm ⊢
  cases hm <;> rfl

theorem isLoaded (t : h.Twin q h') (e : Entry) : h'.isLoaded e = h.isLoaded e :=
  t.same (·.isLoaded e) fun _ _ _ _ _ _ => rfl

theorem view (t : h.Twin q h') : h'.view = h.view :=
  funext fun e => congrArg (EntryView.mk e) (t.isLoaded e)

/-- Locks may be taken in one host and not in the other, unless providers are reserved. -/
theorem withLocks_left (t : h.Twin q h') (hq : ¬q) (locks : List Lock) :
    ({ h with locks } : Host).Twin q h' := by
  cases t with | mk hs hn hp hm hc _ => exact .mk hs hn hp hm hc fun h => absurd h hq

theorem withLocks_right (t : h.Twin q h') (hq : ¬q) (locks : List Lock) :
    h.Twin q { h' with locks } := by
  cases t with | mk hs hn hp hm hc _ => exact .mk hs hn hp hm hc fun h => absurd h hq

theorem replacements? {next : UnitHandle} (t : h.Twin q h') (ho : h.Orderly next) :
    Option.Rel (fun s s' => h.Caches s ∧ h'.Caches s' ∧ s' = { s with compiled := s'.compiled })
      h.replacements? h'.replacements? := by
  have hloaded := t.isLoaded
  cases t with
  | @mk _ _ _ _ compiled _ _ _ _ _ hc =>
    unfold Host.replacements?
    simp only [recast]
    cases hr : h.runtime with
    | some r =>
      have hserves := ho.runtime r hr
      refine .some ⟨fun method c hget => ?_, fun method c hget => ?_, rfl⟩
      · obtain ⟨e, func, he, hf, rfl⟩ := hserves.compiled method c (Keyed.mem_of_get? hget)
        exact ⟨e, func, he, ho.isLoaded_of_mem hr (Registry.mem_of_find? he), hf, rfl⟩
      · obtain ⟨e, func, he, hf, rfl⟩ := hc r hr method c (Keyed.mem_of_get? hget)
        refine ⟨e, func, he, ?_, hf, rfl⟩
        exact (hloaded e).trans (ho.isLoaded_of_mem hr (Registry.mem_of_find? he))
    | none =>
      cases hb : h.bareReplacements with
      | none => exact .none
      | some s =>
        have hempty := (ho.exposed s hb).compiled
        exact .some ⟨fun _ _ hget => by simp [hempty, Keyed.get?] at hget,
          fun _ _ hget => by simp [hempty, Keyed.get?] at hget, rfl⟩

end Twin

end Host

/-- A machine whose hosts all do the same but for the modes of their calls. -/
inductive Machine.Twin (q : Prop) (m : Machine) : Machine → Prop where
  | mk {host : Host} {waiting : List Host} {stuck : Bool} : m.host.Twin q host →
      List.Forall₂ (Host.Twin q) m.waiting waiting → (q → m.stuck = false ∧ stuck = false) →
      Twin q m { m with host, waiting, stuck }

namespace Machine.Twin

variable {q : Prop} {m m' : Machine}

theorem host (t : m.Twin q m') : m.host.Twin q m'.host := by
  cases t with | mk hh => exact hh

theorem waiting (t : m.Twin q m') : List.Forall₂ (Host.Twin q) m.waiting m'.waiting := by
  cases t with | mk _ hw => exact hw

theorem unstuck (t : m.Twin q m') (hq : q) : m.stuck = false ∧ m'.stuck = false := by
  cases t with | mk _ _ hs => exact hs hq

theorem journal (t : m.Twin q m') : m'.journal = m.journal := by cases t; rfl

theorem trace (t : m.Twin q m') : m'.trace = m.trace := by cases t; rfl

theorem withJournal (t : m.Twin q m') (journal : List Event) :
    ({ m with journal } : Machine).Twin q { m' with journal } := by
  cases t with | mk hh hw hs => exact .mk hh hw hs

theorem withHost (t : m.Twin q m') {h h' : Host} (hh : h.Twin q h') :
    (m.withHost h).Twin q (m'.withHost h') := by
  cases t with | mk _ hw hs => exact .mk hh hw hs

theorem withHost_left (t : m.Twin q m') {h : Host} (hh : h.Twin q m'.host) :
    (m.withHost h).Twin q m' := by
  cases t with | mk _ hw hs => exact .mk hh hw hs

theorem withHost_right (t : m.Twin q m') {h' : Host} (hh : m.host.Twin q h') :
    m.Twin q (m'.withHost h') := by
  cases t with | mk _ hw hs => exact .mk hh hw hs

/-- Waiting for a lock makes no difference: where providers are reserved, it is free. -/
theorem await_left (t : m.Twin q m') (l : Lock) : (m.await l).Twin q m' := by
  cases t with
  | mk hh hw hs =>
    refine .mk (m := m.await l) hh hw fun hq => ⟨?_, (hs hq).2⟩
    simp [await, (hh.reserved hq).1.1, (hs hq).1]

theorem await_right (t : m.Twin q m') (l : Lock) : m.Twin q (m'.await l) := by
  cases t with
  | mk hh hw hs =>
    refine .mk hh hw fun hq => ⟨(hs hq).1, ?_⟩
    simp [(hh.reserved hq).2.1, (hs hq).2]

end Machine.Twin

end AccelHost
