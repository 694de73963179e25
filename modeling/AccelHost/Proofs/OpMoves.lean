import AccelHost.Proofs.CallMoves

/-!
Operations on entries and on the bare registry as moves.
-/
namespace AccelHost

open Holding

variable {n : Nested} {G : List UnitHandle} {X : List Holding} {m : Machine}

namespace Host

theorem quiet_nameEntry (h : Host) (e : Entry) (name : Option Label) :
    h.Quiet (h.nameEntry e name).2 := by
  cases name <;> exact ⟨rfl, Nat.le_refl _, Nat.le_refl _⟩

theorem quiet_nameCall (h : Host) (c : CompiledCall) (name : Option Label) :
    h.Quiet (h.nameCall c name).2 := by
  cases name <;> exact ⟨rfl, Nat.le_refl _, Nat.le_refl _⟩

end Host

namespace DispatchOp

theorem withReplacements_carries {f : Replacements → Work Reply}
    (hf : ∀ s, m.host.replacements? = some s → Carries G X m (f s) fun _ => X) :
    Carries G X m (withReplacements f) fun _ => X := by
  refine .host ?_
  split
  · rename_i s hs
    exact hf s hs
  · exact .pure

theorem withEntry_carries {name : Label} {f : Entry → Work Reply}
    (hf : ∀ e, Carries G X m (f e) fun _ => X) :
    Carries G X m (withEntry name f) fun _ => X := by
  refine .host ?_
  split
  · exact hf _
  · exact .pure

theorem calling_carries {args : List Argument} {name : Option Label}
    {f : List Value → Work (Except DispatchError (Option Value))}
    (hf : ∀ vs, Carries G X m (f vs) fun _ => X) :
    Carries G X m (calling args name f) fun _ => X := by
  refine .host ?_
  split
  · exact .pure
  · refine .bind (hf _) fun _ _ => ?_
    split
    · exact .pure
    · dsimp only
      split
      · exact .modifyHost (.quietly ⟨rfl, Nat.le_refl _, Nat.le_refl _⟩) .pure
      · exact .pure_bind .pure

theorem keepCall_carries (name : Option Label) (c : Except DispatchError CompiledCall) :
    Carries G X m (keepCall name c) fun _ => X := by
  unfold keepCall
  split
  · exact .pure
  · exact .host (.modifyHost (.quietly (Host.quiet_nameCall _ _ _)) .pure)

theorem perform_carries (hn : n.Lawful) (op : DispatchOp) :
    Carries G X m (op.perform n) fun _ => X := by
  cases op with
  | entries => exact withReplacements_carries fun s _ => .host .pure
  | publishedUnits => exact withReplacements_carries fun s _ => .pure
  | find method => exact withReplacements_carries fun s _ => .host .pure
  | isNative name => exact withReplacements_carries fun s _ => .pure
  | resolve method isStatic name =>
    refine withReplacements_carries fun s _ => ?_
    split
    · exact .pure
    · exact .host (.modifyHost (.quietly (Host.quiet_nameEntry _ _ _)) .pure)
  | compile method name =>
    exact withReplacements_carries fun s hs =>
      .bind (Dispatch.compile_carries hn method hs) fun _ _ => keepCall_carries name _
  | compiledCount =>
    exact withReplacements_carries fun s _ =>
      .bind (Dispatch.compiledCount_carries s) fun _ _ => .pure
  | invoke method mode args name =>
    exact withReplacements_carries fun s hs =>
      calling_carries fun vs => Dispatch.invoke_carries hn method mode vs hs
  | entry spec name =>
    refine .bind .fresh fun _ _ => ?_
    split
    · exact .pure
    · exact .modifyHost (.quietly ⟨rfl, Nat.le_refl _, Nat.le_refl _⟩) (.host .pure)
  | entryInfo name => exact withEntry_carries fun e => .host .pure
  | nativeFunc name =>
    exact withEntry_carries fun e => .bind (Dispatch.nativeFunc_carries hn e) fun _ _ => .pure
  | lower name =>
    refine withEntry_carries fun e => .bind (Dispatch.lower_carries hn e) fun _ _ => ?_
    split <;> exact .pure
  | compileEntry name callName =>
    exact withEntry_carries fun e =>
      .bind (Dispatch.compileEntry_carries hn e) fun _ _ => keepCall_carries callName _
  | invokeEntry name args result =>
    exact withEntry_carries fun e =>
      calling_carries fun vs => Dispatch.interpret_carries hn e vs
  | call name args result =>
    refine .host ?_
    split
    · exact calling_carries fun vs => Dispatch.call_carries hn _ vs
    · exact .pure

end DispatchOp

namespace RegistryOp

theorem declare_carries (text : String) : Carries G X m (declare text) fun _ => X := by
  unfold declare
  split
  · exact .pure
  · refine .get (.host ?_)
    split
    · exact .pure
    · rename_i bare hb
      refine .of_orderly fun ho => ?_
      have hnone : m.host.modules.get? m.nextHandle = none :=
        ho.host.modules _ (Nat.le_refl _)
      refine .declare (.modifyHost (.bareUnit hnone hb) ?_)
      split <;> exact .pure

theorem batch_carries (unit : String) (specs : List EntrySpec) :
    Carries G X m (batch unit specs) fun _ => X := by
  induction specs generalizing m with
  | nil => exact .pure
  | cons s rest ih =>
    refine .bind .fresh fun _ _ => ?_
    split
    · exact .pure
    · refine .bind ih fun _ _ => ?_
      split <;> exact .pure

theorem registerBatch_carries (choice : UnitChoice) (specs : List EntrySpec) :
    Carries G X m (registerBatch choice specs) fun _ => X := by
  refine .host ?_
  split
  · exact .pure
  · refine .bind (batch_carries _ specs) fun _ _ => ?_
    split
    · exact .pure
    · refine .host ?_
      split
      · exact .pure
      · rename_i bare hb
        exact .modifyHost (.bareEntries (Registry.extends_of_registerEntries hb)) .pure

theorem perform_carries (op : RegistryOp) : Carries G X m op.perform fun _ => X := by
  cases op with
  | register option => exact declare_carries option
  | registerEntries choice specs => exact registerBatch_carries choice specs
  | units => exact .host .pure
  | find method => exact .host .pure
  | snapshot empty =>
    intro ho
    cases empty with
    | false => exact .expose (.inr rfl)
    | true => exact .expose (.inl rfl)

end RegistryOp

end AccelHost
