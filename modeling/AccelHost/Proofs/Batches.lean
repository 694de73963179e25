import AccelHost.Proofs.Carries
import AccelHost.Proofs.Coherence
import AccelHost.RegistryOps
import Mathlib.Data.List.Induction

/-!
Batches of entries. A batch is registered as a whole or not at all, and it makes no difference to
the registry where it is split: each entry is judged by the first entry of its method, be that in
the registry or earlier in the batch.
-/
namespace AccelHost

/-- Whether an entry only repeats another entry of its unit: it calls the same code in the same
way. -/
def Entry.Repeats (e first : Entry) : Prop :=
  first.unit = e.unit ∧ first.target = e.target ∧ first.convention = e.convention

instance (e first : Entry) : Decidable (e.Repeats first) := by
  unfold Entry.Repeats
  infer_instance

theorem Entry.repeats_iff {e first : Entry} {unit : String} (he : e.unit = unit) :
    e.Repeats first ↔ first.unit = unit ∧ first.sameTarget e = true := by
  simp [Repeats, sameTarget, he]

namespace Registry

variable {r r' : Registry} {unit : String} {x : UnitHandle} {u : DeclaredUnit}

/-! ### Entries that are new -/

theorem freshEntries_append (fresh xs ys : List Entry) :
    r.freshEntries unit fresh (xs ++ ys) =
      (r.freshEntries unit fresh xs).bind fun fresh' => r.freshEntries unit fresh' ys := by
  induction xs generalizing fresh with
  | nil => rfl
  | cons e es ih =>
    simp only [List.cons_append, freshEntries]
    cases r.admission unit fresh e with
    | fresh => exact ih (fresh ++ [e])
    | repeated => exact ih fresh
    | taken owner => rfl

theorem forall_mem_freshEntries {p : Entry → Prop} {fresh fresh' batch : List Entry}
    (h : r.freshEntries unit fresh batch = .ok fresh') (hfresh : ∀ e ∈ fresh, p e)
    (hbatch : ∀ e ∈ batch, p e) : ∀ e ∈ fresh', p e := by
  induction batch generalizing fresh with
  | nil =>
    cases h
    exact hfresh
  | cons e es ih =>
    obtain ⟨he, hes⟩ := List.forall_mem_cons.1 hbatch
    rw [freshEntries] at h
    cases hone : r.admission unit fresh e with
    | fresh =>
      rw [hone] at h
      apply ih h _ hes
      exact List.forall_mem_append.2 ⟨hfresh, List.forall_mem_singleton.2 he⟩
    | repeated =>
      rw [hone] at h
      exact ih h hfresh hes
    | taken owner =>
      rw [hone] at h
      cases h

/-- It makes no difference to an entry whether others of its unit are new or registered already. -/
theorem admission_of_entered {fresh : List Entry} (hunit : ∀ e ∈ fresh, e.unit = unit)
    (hr : r'.entries = r.entries ++ fresh.map (·.ownedBy x)) (more : List Entry) (e : Entry) :
    r'.admission unit more e = r.admission unit (fresh ++ more) e := by
  have hfind : r'.find? e.method =
      (r.find? e.method).or ((entryOf? e.method fresh).map (·.ownedBy x)) := by
    rw [find?, hr, entryOf?_append_eq, entryOf?_map_ownedBy]
    rfl
  unfold admission
  rw [hfind, entryOf?_append_eq]
  cases r.find? e.method with
  | some other => rfl
  | none =>
    cases hnew : entryOf? e.method fresh with
    | none => rfl
    | some other =>
      have hother : other.unit = unit := hunit other (List.mem_of_find?_eq_some hnew)
      have howned : (other.ownedBy x).sameTarget e = other.sameTarget e := rfl
      have hunit' : (other.ownedBy x).unit = unit := hother
      simp [howned, hunit']

theorem freshEntries_of_entered {fresh : List Entry} (hunit : ∀ e ∈ fresh, e.unit = unit)
    (hr : r'.entries = r.entries ++ fresh.map (·.ownedBy x)) (more batch : List Entry) :
    r.freshEntries unit (fresh ++ more) batch =
      (r'.freshEntries unit more batch).map (fresh ++ ·) := by
  induction batch generalizing more with
  | nil => rfl
  | cons e es ih =>
    simp only [freshEntries, admission_of_entered hunit hr]
    cases r.admission unit (fresh ++ more) e with
    | fresh =>
      have hassoc : fresh ++ more ++ [e] = fresh ++ (more ++ [e]) := List.append_assoc ..
      simpa only [hassoc] using ih (more ++ [e])
    | repeated => exact ih more
    | taken owner => rfl

/-! ### Batches -/

def entered (r : Registry) (x : UnitHandle) (fresh : List Entry) : Registry :=
  { r.modifyUnit x (·.listing (fresh.map (·.method))) with
    entries := r.entries ++ fresh.map (·.ownedBy x) }

theorem entered_nil (r : Registry) (x : UnitHandle) : r.entered x [] = r := by
  have hsame (u : DeclaredUnit) : u.listing [] = u := by simp [DeclaredUnit.listing]
  simp [entered, modifyUnit, hsame]

theorem entered_append (r : Registry) (x : UnitHandle) (fresh more : List Entry) :
    r.entered x (fresh ++ more) = (r.entered x fresh).entered x more := by
  simp only [entered, modifyUnit, List.map_map, mk.injEq, List.map_append, List.append_assoc,
    and_true]
  apply List.map_congr_left
  intro u _
  by_cases hu : u.handle = x <;> simp [hu, DeclaredUnit.listing]

theorem unit?_entered (hu : r.unit? x = some u) (fresh : List Entry) :
    (r.entered x fresh).unit? x = some (u.listing (fresh.map (·.method))) := by
  have hfound := unit?_modifyUnit (r := r) (x := x) (f := (·.listing (fresh.map (·.method))))
    fun _ => rfl
  rw [hu] at hfound
  exact hfound

theorem registerEntries_eq (hu : r.unit? x = some u) (batch : List Entry) :
    r.registerEntries x batch = (r.freshEntries u.name [] batch).map (r.entered x) := by
  unfold registerEntries
  rw [hu]
  dsimp only
  cases r.freshEntries u.name [] batch with
  | error err => rfl
  | ok fresh =>
    simp only [List.map_map]
    rfl

theorem registerEntries_append {xs : List Entry} (hu : r.unit? x = some u)
    (hunit : ∀ e ∈ xs, e.unit = u.name) (ys : List Entry) :
    r.registerEntries x (xs ++ ys) =
      (r.registerEntries x xs).bind fun r₁ => r₁.registerEntries x ys := by
  rw [registerEntries_eq hu, registerEntries_eq hu, freshEntries_append]
  cases hfresh : r.freshEntries u.name [] xs with
  | error err => rfl
  | ok fresh =>
    have hcarry : ∀ e ∈ fresh, e.unit = u.name :=
      forall_mem_freshEntries hfresh (List.forall_mem_nil _) hunit
    have hrest : r.freshEntries u.name (fresh ++ []) ys =
        ((r.entered x fresh).freshEntries u.name [] ys).map (fresh ++ ·) :=
      freshEntries_of_entered hcarry rfl [] ys
    rw [List.append_nil] at hrest
    have hname : (u.listing (fresh.map (·.method))).name = u.name := rfl
    show (r.freshEntries u.name fresh ys).map (r.entered x) =
      (r.entered x fresh).registerEntries x ys
    rw [hrest, registerEntries_eq (unit?_entered hu fresh), hname]
    cases (r.entered x fresh).freshEntries u.name [] ys with
    | error err => rfl
    | ok more => exact congrArg Except.ok (entered_append r x fresh more)

/-! ### One entry more -/

theorem admission_nil (r : Registry) {e : Entry} (he : e.unit = unit) :
    r.admission unit [] e =
      match r.find? e.method with
      | none => .fresh
      | some first => if e.Repeats first then .repeated else .taken first.unit := by
  unfold admission
  cases r.find? e.method with
  | none => rfl
  | some first => simp [Entry.repeats_iff he]

/-- An entry of a unit is new, or only repeats the first entry of its method, or is in conflict with
it. -/
theorem registerEntries_singleton {e : Entry} (hu : r.unit? x = some u) (he : e.unit = u.name) :
    r.registerEntries x [e] =
      match r.find? e.method with
      | none => .ok (r.entered x [e])
      | some first =>
        if e.Repeats first then .ok r else .error (.duplicateEntry e.method u.name first.unit) := by
  rw [registerEntries_eq hu, freshEntries, admission_nil r he]
  cases r.find? e.method with
  | none => rfl
  | some first =>
    by_cases hrepeats : e.Repeats first
    · simp only [if_pos hrepeats, freshEntries]
      exact congrArg Except.ok (entered_nil r x)
    · simp only [if_neg hrepeats]
      rfl

theorem find?_of_registerEntries {batch : List Entry} (hu : r.unit? x = some u)
    (hunit : ∀ e ∈ batch, e.unit = u.name) (h : r.registerEntries x batch = .ok r') (m : Method) :
    r'.find? m = (r.find? m).or ((entryOf? m batch).map (·.ownedBy x)) := by
  induction batch generalizing r u with
  | nil =>
    have hstart : r.registerEntries x [] = .ok (r.entered x []) := registerEntries_eq hu []
    rw [hstart, entered_nil] at h
    cases h
    exact Option.or_none.symm
  | cons e es ih =>
    obtain ⟨he, hes⟩ := List.forall_mem_cons.1 hunit
    have hcons : entryOf? m (e :: es) = (entryOf? m [e]).or (entryOf? m es) :=
      entryOf?_append_eq m [e] es
    have hsplit := registerEntries_append hu (List.forall_mem_singleton.2 he) es
    rw [List.singleton_append, h, registerEntries_singleton hu he] at hsplit
    cases hfound : r.find? e.method with
    | none =>
      rw [hfound] at hsplit
      have hadded : (r.entered x [e]).find? m =
          (r.find? m).or ((entryOf? m [e]).map (·.ownedBy x)) := by
        rw [← entryOf?_map_ownedBy]
        exact entryOf?_append_eq m r.entries _
      have hrest := ih (unit?_entered hu [e]) hes hsplit.symm
      rw [hrest, hadded, Option.or_assoc, hcons, Option.map_or]
    | some first =>
      rw [hfound] at hsplit
      by_cases hrepeats : e.Repeats first
      · simp only [if_pos hrepeats] at hsplit
        rw [ih hu hes hsplit.symm, hcons]
        by_cases hm : e.method = m
        · rw [← hm, hfound, Option.some_or, Option.some_or]
        · have hskip : entryOf? m [e] = none := by simp [entryOf?, hm]
          rw [hskip, Option.none_or]
      · simp only [if_neg hrepeats] at hsplit
        cases hsplit

theorem unit?_of_registerEntries {batch : List Entry} (hu : r.unit? x = some u)
    (h : r.registerEntries x batch = .ok r') : ∃ v, r'.unit? x = some v ∧ v.name = u.name := by
  rw [registerEntries_eq hu] at h
  cases hfresh : r.freshEntries u.name [] batch with
  | error err =>
    rw [hfresh] at h
    cases h
  | ok fresh =>
    rw [hfresh] at h
    cases h
    exact ⟨_, unit?_entered hu fresh, rfl⟩

/-- What one more entry comes to after a batch is settled by the first entry of its method. -/
theorem registerEntries_concat {done : List Entry} {e : Entry} (hu : r.unit? x = some u)
    (hunit : ∀ f ∈ done, f.unit = u.name) (he : e.unit = u.name)
    (h : r.registerEntries x done = .ok r') :
    r.registerEntries x (done ++ [e]) =
      match entryOf? e.method (r.entries ++ done) with
      | none => .ok (r'.entered x [e])
      | some first =>
        if e.Repeats first then .ok r'
        else .error (.duplicateEntry e.method u.name first.unit) := by
  obtain ⟨v, hv, hname⟩ := unit?_of_registerEntries hu h
  have hfind := find?_of_registerEntries hu hunit h e.method
  rw [registerEntries_append hu hunit, h]
  show r'.registerEntries x [e] = _
  rw [registerEntries_singleton hv (he.trans hname.symm), hfind, hname, entryOf?_append_eq]
  show _ = match (r.find? e.method).or (entryOf? e.method done) with
    | none => _
    | some first => _
  cases r.find? e.method with
  | some first => rfl
  | none => cases entryOf? e.method done <;> rfl

theorem exists_conflict_of_registerEntries {batch : List Entry} {err : StartupError}
    (hu : r.unit? x = some u) (hunit : ∀ e ∈ batch, e.unit = u.name)
    (h : r.registerEntries x batch = .error err) :
    ∃ done e rest first, batch = done ++ e :: rest ∧
      (∃ r₁, r.registerEntries x done = .ok r₁) ∧
      entryOf? e.method (r.entries ++ done) = some first ∧ ¬ e.Repeats first ∧
      err = .duplicateEntry e.method u.name first.unit := by
  induction batch using List.reverseRecOn with
  | nil =>
    rw [registerEntries_eq hu] at h
    cases h
  | append_singleton es e ih =>
    obtain ⟨hes, he⟩ := List.forall_mem_append.1 hunit
    cases hreg : r.registerEntries x es with
    | error err' =>
      rw [registerEntries_append hu hes, hreg] at h
      cases h
      obtain ⟨done, f, rest, first, rfl, hconflict⟩ := ih hes hreg
      exact ⟨done, f, rest ++ [e], first, by simp, hconflict⟩
    | ok r₁ =>
      rw [registerEntries_concat hu hes (he e (List.mem_singleton_self e)) hreg] at h
      cases hfirst : entryOf? e.method (r.entries ++ es) with
      | none =>
        rw [hfirst] at h
        cases h
      | some first =>
        rw [hfirst] at h
        by_cases hrepeats : e.Repeats first
        · simp only [if_pos hrepeats] at h
          cases h
        · simp only [if_neg hrepeats] at h
          cases h
          exact ⟨es, e, [], first, rfl, ⟨r₁, hreg⟩, hfirst, hrepeats, rfl⟩

end Registry

/-! ### Calls that fail -/

variable {m : Machine}

theorem Session.registry_register_of_not_ok {s : Session} {u : DeclaredUnit}
    {entry : Option RawEntry} (h : (s.register u entry).1 ≠ .status Status.ok) :
    (s.register u entry).2.registry = s.registry := by
  unfold register at h ⊢
  dsimp only at h ⊢
  split
  · rename_i registry hreg
    rw [hreg] at h
    exact absurd rfl h
  · rfl

namespace RegistryOp

theorem bare_after_batch (unit : String) (specs : List EntrySpec) :
    ((batch unit specs).after m).host.bare = m.host.bare := by
  induction specs generalizing m with
  | nil => rfl
  | cons s rest ih =>
    have hfresh : (Work.fresh.after m).host.bare = m.host.bare := rfl
    rw [batch, Work.after_bind]
    cases s.entry unit (Work.fresh.result m) with
    | error e => exact hfresh
    | ok e =>
      dsimp only
      rw [Work.after_bind]
      have hrest := (ih (m := Work.fresh.after m)).trans hfresh
      cases (batch unit rest).result (Work.fresh.after m) with
      | error e => exact hrest
      | ok es => exact hrest

theorem bare_after_registerBatch {choice : UnitChoice} {specs : List EntrySpec} {fault : Failure}
    (h : (registerBatch choice specs).result m = .error fault) :
    ((registerBatch choice specs).after m).host.bare = m.host.bare := by
  unfold registerBatch at h ⊢
  simp only [Work.result_bind, Work.after_bind, Work.result_host, Work.after_host] at h ⊢
  cases hchoice : choose m.host.bare choice with
  | error e => rfl
  | ok chosen =>
    obtain ⟨handle, name⟩ := chosen
    have hbatch := bare_after_batch (m := m) name specs
    rw [hchoice] at h
    dsimp only at h ⊢
    rw [Work.result_bind] at h
    rw [Work.after_bind]
    cases hspecs : (batch name specs).result m with
    | error e => exact hbatch
    | ok es =>
      rw [hspecs] at h
      dsimp only at h ⊢
      rw [Work.result_bind] at h
      rw [Work.after_bind]
      simp only [Work.result_host, Work.after_host] at h ⊢
      cases hreg : ((batch name specs).after m).host.bare.registerEntries handle es with
      | error e => exact hbatch
      | ok bare =>
        rw [hreg] at h
        cases h

end RegistryOp

namespace Registry

/-- Two batches of a unit registered one after the other come to what they come to as one: the same
registry, or the error of the first that is rejected. Such an error tells the first entry that is in
conflict and the unit that was first to register its method. An entry is skipped exactly if that
first entry is of the same unit, and calls the same code in the same way. What is rejected leaves
the registry as it was. -/
theorem registerEntries_batches (r : Registry) (x : UnitHandle) (xs ys : List Entry)
    (hunit : ∀ u, r.unit? x = some u → ∀ e ∈ xs ++ ys, e.unit = u.name) :
    (∀ r', r.registerEntries x (xs ++ ys) = .ok r' ↔
      ∃ r₁, r.registerEntries x xs = .ok r₁ ∧ r₁.registerEntries x ys = .ok r') ∧
    (∀ err, r.registerEntries x (xs ++ ys) = .error err ↔
      r.registerEntries x xs = .error err ∨
        ∃ r₁, r.registerEntries x xs = .ok r₁ ∧ r₁.registerEntries x ys = .error err) ∧
    (∀ err, r.registerEntries x (xs ++ ys) = .error err →
      (r.unit? x = none ∧ err = .invalidExportTable s!"#{x}" .unknownUnit) ∨
      ∃ u done e rest first, r.unit? x = some u ∧ xs ++ ys = done ++ e :: rest ∧
        (∃ r₁, r.registerEntries x done = .ok r₁) ∧
        entryOf? e.method (r.entries ++ done) = some first ∧ ¬ e.Repeats first ∧
        err = .duplicateEntry e.method u.name first.unit) ∧
    (∀ done e rest r₁, xs ++ ys = done ++ e :: rest → r.registerEntries x done = .ok r₁ →
      r.registerEntries x (done ++ [e]) =
        match entryOf? e.method (r.entries ++ done) with
        | none => .ok (r₁.entered x [e])
        | some first =>
          if e.Repeats first then .ok r₁
          else .error (.duplicateEntry e.method e.unit first.unit)) ∧
    (∀ m choice specs fault, (RegistryOp.registerBatch choice specs).result m = .error fault →
      ((RegistryOp.registerBatch choice specs).after m).host.bare = m.host.bare) ∧
    ∀ (s : Session) (u : DeclaredUnit) (entry : Option RawEntry),
      (s.register u entry).1 ≠ .status Status.ok →
        (s.register u entry).2.registry = s.registry := by
  have hsplit : r.registerEntries x (xs ++ ys) =
      (r.registerEntries x xs).bind fun r₁ => r₁.registerEntries x ys := by
    cases hu : r.unit? x with
    | none => simp [registerEntries, hu, Except.bind]
    | some u => exact registerEntries_append hu (fun e he => hunit u hu e (by simp [he])) ys
  refine ⟨?_, ?_, ?_, ?_, fun _ _ _ _ => RegistryOp.bare_after_registerBatch,
    fun _ _ _ => Session.registry_register_of_not_ok⟩
  · intro r'
    rw [hsplit]
    cases r.registerEntries x xs <;> simp [Except.bind]
  · intro err
    rw [hsplit]
    cases r.registerEntries x xs <;> simp [Except.bind]
  · intro err h
    cases hu : r.unit? x with
    | none =>
      simp only [registerEntries, hu] at h
      cases h
      exact .inl ⟨rfl, rfl⟩
    | some u =>
      obtain ⟨done, e, rest, first, hconflict⟩ :=
        exists_conflict_of_registerEntries hu (hunit u hu) h
      exact .inr ⟨u, done, e, rest, first, rfl, hconflict⟩
  · intro done e rest r₁ hbatch hreg
    cases hu : r.unit? x with
    | none =>
      simp only [registerEntries, hu] at hreg
      cases hreg
    | some u =>
      have hall := hunit u hu
      rw [hbatch, List.forall_mem_append, List.forall_mem_cons] at hall
      rw [hall.2.1]
      exact registerEntries_concat hu hall.1 hall.2.1 hreg

/-- Two units, the first of which has a method. The second registers another one, repeats that, and
then asks for the one it cannot have. -/
theorem registerEntries_batches_secondUnit :
    let unit (name : String) (handle : UnitHandle) : DeclaredUnit :=
      { handle, option := ⟨name, name, name, none, none, []⟩ }
    let entry (owner name : String) : Entry :=
      { unit := owner, method := ⟨"Sum", name, "()V"⟩, nativeName := name,
        target := .direct ⟨none, name⟩, convention := ⟨false, [], .void⟩ }
    let r : Registry :=
      { units := [unit "a" 1, unit "b" 2], entries := [(entry "a" "add").ownedBy 1] }
    let xs := [entry "b" "sub", entry "b" "sub"]
    let ys := [entry "b" "sub", entry "b" "add"]
    (∀ u, r.unit? 2 = some u → ∀ e ∈ xs ++ ys, e.unit = u.name) ∧
      (∃ r₁, r.registerEntries 2 xs = .ok r₁ ∧ r₁.registerEntries 2 (ys.take 1) = .ok r₁) ∧
      r.registerEntries 2 (xs ++ ys) = .error (.duplicateEntry ⟨"Sum", "add", "()V"⟩ "b" "a") := by
  intro unit entry r xs ys
  have hunit : ∀ u, r.unit? 2 = some u → ∀ e ∈ xs ++ ys, e.unit = u.name := by
    intro u hu
    cases hu
    decide
  refine ⟨hunit, ⟨r.entered 2 [entry "b" "sub"], by decide, by decide⟩, ?_⟩
  exact ((registerEntries_batches r 2 xs ys hunit).2.1 _).2
    (.inr ⟨r.entered 2 [entry "b" "sub"], by decide, by decide⟩)

end Registry

end AccelHost
