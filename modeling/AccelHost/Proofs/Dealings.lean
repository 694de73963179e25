import AccelHost.Proofs.Providers

/-!
What is done with entries. Each operation tells beforehand what it does with them itself: a native
function is looked for, after its provider was asked if need be, or a method is compiled. What is
done by operations of foreign code meanwhile is told as theirs.
-/
namespace AccelHost

/-- What is done with an entry, and by whom. -/
inductive Dealing where
  /-- Its provider is asked for the native function. -/
  | asked (e : Entry)
  /-- The native function is told, if there is one. -/
  | told (e : Entry) (answer : Option CodeRef)
  /-- It is lowered, with the native function if there is one. -/
  | lowered (e : Entry) (answer : Option CodeRef)
  /-- The entry of a method is lowered with success and the call kept with the replacements of a
  number, or it was kept before. -/
  | compiled (id : Nat) (method : Method)
  /-- Something is done by an operation that is begun at a machine. -/
  | step (op : Op) (m : Machine) (d : Dealing)
  /-- Something is done by a program within a hook. -/
  | within (d : Dealing)

/-- What comes of an entry when its native function is looked for. Only a loaded one is lowered. -/
def Dealing.Finds (h : Host) (e : Entry) (answer : Option CodeRef) (d : Dealing) : Prop :=
  d = .told e answer ∨ d = .lowered e answer ∧ h.isLoaded e = true

/-! ### What is done by whom -/

/-- Whether something is done by the work at hand, and not by others meanwhile. -/
def Dealing.isOwn : Dealing → Bool
  | step .. | within _ => false
  | _ => true

namespace Dealing

def own (ds : List Dealing) : List Dealing := ds.filter isOwn

variable {ds ds' : List Dealing}

@[simp] theorem own_append : own (ds ++ ds') = own ds ++ own ds' := List.filter_append ..

@[simp] theorem own_map_step (op : Op) (m : Machine) : own (ds.map (.step op m)) = [] :=
  List.filter_eq_nil_iff.2 fun d hd => by
    obtain ⟨_, _, rfl⟩ := List.mem_map.1 hd
    exact Bool.false_ne_true

@[simp] theorem own_map_within : own (ds.map .within) = [] :=
  List.filter_eq_nil_iff.2 fun d hd => by
    obtain ⟨_, _, rfl⟩ := List.mem_map.1 hd
    exact Bool.false_ne_true

theorem own_cons_of_isOwn {d : Dealing} (hd : d.isOwn = true) : own (d :: ds) = d :: own ds :=
  List.filter_cons_of_pos hd

theorem mem_own {d : Dealing} : d ∈ own ds ↔ d ∈ ds ∧ d.isOwn = true := List.mem_filter

theorem Finds.isOwn {h : Host} {e : Entry} {answer : Option CodeRef} {d : Dealing}
    (hd : d.Finds h e answer) : d.isOwn = true := by
  rcases hd with rfl | ⟨rfl, -⟩ <;> rfl

end Dealing

/-! ### What operations do -/

namespace Dispatch

variable (n : Nested)

/-- What it takes to look for the native function of an entry, and what is made of it. Without a
provider there is nothing to tell. -/
def lookDeals (e : Entry) (found : Option CodeRef → Dealing) (m : Machine) : List Dealing :=
  match e.target with
  | .direct _ => []
  | .provided .. =>
    (if m.host.provided.get? e.id = none ∧ '\x00' ∉ e.nativeName.toList then [.asked e] else []) ++
      [found ((nativeFunc n e).result m)]

def lowerDeals (e : Entry) (m : Machine) : List Dealing :=
  if m.host.isLoaded e then lookDeals n e (.lowered e) m else []

/-- A method is compiled if it was before, or if its entry is lowered with success. -/
def compileDeals (rs : Replacements) (method : Method) (m : Machine) : List Dealing :=
  match rs.compiled.get? method with
  | some _ => [.compiled rs.id method]
  | none =>
    match rs.published.find? method with
    | none => []
    | some e =>
      let held := m.hold (.calls rs.id)
      lowerDeals n e held ++
        if ((lower n e).result held).isOk then [.compiled rs.id method] else []

def invokeDeals (rs : Replacements) (method : Method) (m : Machine) : CallMode → List Dealing
  | .interpreted => (rs.published.find? method).elim [] (lowerDeals n · m)
  | .compiled => compileDeals n rs method m

end Dispatch

/-- What an operation on entries does with them itself. -/
def DispatchOp.deals (n : Nested) (m : Machine) : DispatchOp → List Dealing
  | compile method _ => m.host.replacements?.elim [] (Dispatch.compileDeals n · method m)
  | invoke method mode args _ =>
    match m.host.replacements?, m.host.arguments args with
    | some rs, .ok _ => Dispatch.invokeDeals n rs method m mode
    | _, _ => []
  | nativeFunc name =>
    (m.host.entries.get? name).elim [] fun e => Dispatch.lookDeals n e (.told e) m
  | lower name | compileEntry name _ =>
    (m.host.entries.get? name).elim [] (Dispatch.lowerDeals n · m)
  | invokeEntry name args _ =>
    match m.host.entries.get? name, m.host.arguments args with
    | some e, .ok _ => Dispatch.lowerDeals n e m
    | _, _ => []
  | entries | publishedUnits | find _ | isNative _ | resolve .. | compiledCount | entry .. |
    entryInfo _ | call .. => []

def Op.deals (n : Nested) (m : Machine) : Op → List Dealing
  | dispatch op => op.deals n m
  | _ => []

/-- At bottom something is done by an operation itself, which is begun at a machine. -/
inductive Dealing.By (op : Op) (m : Machine) (d : Dealing) : Dealing → Prop where
  | here : d.isOwn = true → By op m d (.step op m d)
  | step {op' : Op} {m' : Machine} {d' : Dealing} : By op m d d' → By op m d (.step op' m' d')
  | within {d' : Dealing} : By op m d d' → By op m d (.within d')

namespace Dispatch

variable {n : Nested} {m : Machine} {e e' : Entry} {rs : Replacements} {method method' : Method}
  {id : Nat} {found : Option CodeRef → Dealing}

/-- Whoever lowers an entry asks at most its provider, and that while the entry is loaded and no
answer is known. -/
theorem of_asked_mem_lookDeals (hfound : ∀ answer, found answer ≠ .asked e')
    (h : .asked e' ∈ lookDeals n e found m) :
    e' = e ∧ e.isProvided = true ∧ m.host.provided.get? e.id = none := by
  unfold lookDeals at h
  cases ht : e.target with
  | direct code => simp [ht] at h
  | provided provider data =>
    simp only [ht, List.mem_append, List.mem_singleton, (hfound _).symm, or_false] at h
    split at h
    · rename_i hnone
      rw [List.mem_singleton] at h
      cases h
      exact ⟨rfl, by simp [Entry.isProvided, ht], hnone.1⟩
    · cases h

theorem of_asked_mem_lowerDeals (h : .asked e' ∈ lowerDeals n e m) :
    e' = e ∧ e.isProvided = true ∧ m.host.provided.get? e.id = none ∧ m.host.isLoaded e = true := by
  unfold lowerDeals at h
  split at h
  · rename_i hl
    obtain ⟨rfl, hprovided, hnone⟩ := of_asked_mem_lookDeals (fun _ h => by cases h) h
    exact ⟨rfl, hprovided, hnone, hl⟩
  · cases h

theorem of_asked_mem_compileDeals (h : .asked e ∈ compileDeals n rs method m) :
    rs.published.find? method = some e ∧ e.isProvided = true ∧
      m.host.provided.get? e.id = none ∧ m.host.isLoaded e = true := by
  unfold compileDeals at h
  split at h
  · simp at h
  · split at h
    · cases h
    · rename_i e' he
      rcases List.mem_append.1 h with h | h
      · obtain ⟨rfl, hrest⟩ := of_asked_mem_lowerDeals h
        exact ⟨he, hrest⟩
      · split at h
        · simp at h
        · cases h

theorem compiled_not_mem_lookDeals (hfound : ∀ answer, found answer ≠ .compiled id method) :
    .compiled id method ∉ lookDeals n e found m := by
  unfold lookDeals
  cases e.target with
  | direct code => simp
  | provided provider data =>
    simp only [List.mem_append, List.mem_singleton, (hfound _).symm, or_false]
    split <;> simp

theorem compiled_not_mem_lowerDeals : .compiled id method ∉ lowerDeals n e m := by
  unfold lowerDeals
  split
  · exact compiled_not_mem_lookDeals fun _ h => by cases h
  · simp

theorem compiled_mem_compileDeals_iff : .compiled id method' ∈ compileDeals n rs method m ↔
    id = rs.id ∧ method' = method ∧ ∃ c, (compile n rs method).result m = .ok c := by
  unfold compileDeals compile
  rw [Work.result_bind]
  cases rs.compiled.get? method with
  | some c => simp
  | none =>
    cases rs.published.find? method with
    | none => simp
    | some e =>
      simp only [Work.after_await, Work.result_holding, Machine.hold_await, lowerKept,
        Work.result_bind, List.mem_append, compiled_not_mem_lowerDeals, false_or]
      cases (lower n e).result (m.hold (.calls rs.id)) with
      | error err => simp [Except.isOk, Except.toBool]
      | ok plan =>
        simp only [Except.isOk, Except.toBool, ↓reduceIte, List.mem_singleton,
          Dealing.compiled.injEq]
        exact ⟨fun h => ⟨h.1, h.2, _, rfl⟩, fun h => ⟨h.1, h.2.1⟩⟩

end Dispatch

/-- A provider is asked by an operation that lowers an entry of it, while that is loaded, or that
looks for its native function, and only where no answer is known. -/
theorem Op.of_asked_mem_deals {n : Nested} {m : Machine} {op : Op} {e : Entry}
    (h : .asked e ∈ op.deals n m) : e.isProvided = true ∧ m.host.provided.get? e.id = none ∧
      (m.host.isLoaded e = true ∨ ∃ name, op = .dispatch (.nativeFunc name)) := by
  have hlowered {e' : Entry} (h : .asked e ∈ Dispatch.lowerDeals n e' m) :
      e.isProvided = true ∧ m.host.provided.get? e.id = none ∧ m.host.isLoaded e = true := by
    obtain ⟨rfl, hrest⟩ := Dispatch.of_asked_mem_lowerDeals h
    exact hrest
  suffices hloaded : (∃ name, op = .dispatch (.nativeFunc name)) ∧ e.isProvided = true ∧
      m.host.provided.get? e.id = none ∨ e.isProvided = true ∧
        m.host.provided.get? e.id = none ∧ m.host.isLoaded e = true by
    rcases hloaded with ⟨hop, hprovided, hnone⟩ | ⟨hprovided, hnone, hl⟩
    · exact ⟨hprovided, hnone, .inr hop⟩
    · exact ⟨hprovided, hnone, .inl hl⟩
  cases op with
  | heap | registry | units | env => cases h
  | dispatch op =>
    cases op with
    | entries | publishedUnits | find | isNative | resolve | compiledCount | entry | entryInfo |
      call => cases h
    | compile method name =>
      refine .inr ?_
      cases hrs : m.host.replacements? with
      | none => simp [Op.deals, DispatchOp.deals, hrs] at h
      | some rs =>
        simp only [Op.deals, DispatchOp.deals, hrs, Option.elim_some] at h
        exact (Dispatch.of_asked_mem_compileDeals h).2
    | invoke method mode args name =>
      refine .inr ?_
      simp only [Op.deals, DispatchOp.deals] at h
      split at h
      · rename_i rs _ _ _
        cases mode with
        | compiled => exact (Dispatch.of_asked_mem_compileDeals h).2
        | interpreted =>
          unfold Dispatch.invokeDeals at h
          cases he : rs.published.find? method with
          | none => simp [he] at h
          | some e' =>
            simp only [he, Option.elim_some] at h
            exact hlowered h
      · cases h
    | nativeFunc name =>
      refine .inl ⟨⟨name, rfl⟩, ?_⟩
      cases he : m.host.entries.get? name with
      | none => simp [Op.deals, DispatchOp.deals, he] at h
      | some e' =>
        simp only [Op.deals, DispatchOp.deals, he, Option.elim_some] at h
        obtain ⟨rfl, hrest⟩ := Dispatch.of_asked_mem_lookDeals (fun _ h => by cases h) h
        exact hrest
    | lower name | compileEntry name callName =>
      refine .inr ?_
      cases he : m.host.entries.get? name with
      | none => simp [Op.deals, DispatchOp.deals, he] at h
      | some e' =>
        simp only [Op.deals, DispatchOp.deals, he, Option.elim_some] at h
        exact hlowered h
    | invokeEntry name args result =>
      refine .inr ?_
      simp only [Op.deals, DispatchOp.deals] at h
      split at h
      · exact hlowered h
      · cases h

/-- A method is compiled by the operations that compile it, or invoke it compiled, and get past the
lowering of its entry. -/
theorem Op.compiled_mem_deals_iff {n : Nested} {m : Machine} {op : Op} {id : Nat}
    {method : Method} : .compiled id method ∈ op.deals n m ↔
      ((∃ name, op = .dispatch (.compile method name)) ∨ ∃ args name vs,
        op = .dispatch (.invoke method .compiled args name) ∧ m.host.arguments args = .ok vs) ∧
      ∃ rs, m.host.replacements? = some rs ∧ id = rs.id ∧
        ∃ c, (Dispatch.compile n rs method).result m = .ok c := by
  have hlowered {e : Option Entry} :
      .compiled id method ∉ e.elim [] (Dispatch.lowerDeals n · m) := by
    cases e with
    | none => simp
    | some e => exact Dispatch.compiled_not_mem_lowerDeals
  cases op with
  | heap | registry | units | env => simp [deals]
  | dispatch op =>
    cases op with
    | entries | publishedUnits | find | isNative | resolve | compiledCount | entry | entryInfo |
      call => simp [deals, DispatchOp.deals]
    | lower | compileEntry => simpa [deals, DispatchOp.deals] using hlowered
    | nativeFunc name =>
      cases he : m.host.entries.get? name with
      | none => simp [deals, DispatchOp.deals, he]
      | some e =>
        simpa [deals, DispatchOp.deals, he] using
          Dispatch.compiled_not_mem_lookDeals fun _ h => by cases h
    | invokeEntry name args result =>
      simp only [deals, DispatchOp.deals]
      split
      · rename_i e _ _ _
        have hnot := hlowered (e := some e)
        simpa using hnot
      · simp
    | compile method' name =>
      cases hrs : m.host.replacements? with
      | none => simp [deals, DispatchOp.deals, hrs]
      | some rs =>
        simp only [deals, DispatchOp.deals, hrs, Option.elim_some,
          Dispatch.compiled_mem_compileDeals_iff]
        constructor
        · rintro ⟨rfl, rfl, hc⟩
          exact ⟨.inl ⟨name, rfl⟩, rs, rfl, rfl, hc⟩
        · rintro ⟨⟨name, hop⟩ | ⟨args, name, vs, hop, -⟩, rs', hrs', rfl, hc⟩
          · cases hop
            cases hrs'
            exact ⟨rfl, rfl, hc⟩
          · cases hop
    | invoke method' mode args name =>
      simp only [deals, DispatchOp.deals]
      cases hrs : m.host.replacements? with
      | none => simp
      | some rs =>
        cases hargs : m.host.arguments args with
        | error err =>
          simp only [List.not_mem_nil, false_iff]
          rintro ⟨⟨name, hop⟩ | ⟨args, name, vs, hop, hvs⟩, -⟩
          · cases hop
          · cases hop
            cases hargs.symm.trans hvs
        | ok vs =>
          cases mode with
          | interpreted => simpa [Dispatch.invokeDeals] using hlowered
          | compiled =>
            simp only [Dispatch.invokeDeals, Dispatch.compiled_mem_compileDeals_iff]
            constructor
            · rintro ⟨rfl, rfl, hc⟩
              exact ⟨.inr ⟨args, name, vs, rfl, hargs⟩, rs, rfl, rfl, hc⟩
            · rintro ⟨⟨name, hop⟩ | ⟨args, name, vs, hop, -⟩, rs', hrs', rfl, hc⟩
              · cases hop
              · cases hop
                cases hrs'
                exact ⟨rfl, rfl, hc⟩

end AccelHost
