import AccelHost.Proofs.ParameterText
import AccelHost.Session

/-!
Flags told by what was done with them. A record has the definitions of the host and the requests of
units with their answers, in order. Flags can be read off a record: their names are those that the
host defined, and each has the value that was written last.
-/
namespace AccelHost

open Text (Buffer ForeignText)

/-- The host defines a flag, or a unit asks for something and is answered. -/
inductive FlagStep where
  | define (name value : String)
  | asked (c : Callback) (reply : CallbackReply)

namespace FlagStep

def defined? : FlagStep → Option String
  | define name _ => some name
  | asked .. => none

/-- The flag and the value that are written: by a definition, or by a request to set a flag that
succeeds. -/
def write? : FlagStep → Option (String × String)
  | define name value => some (name, value)
  | asked (.setFlag name value) (.status s) =>
    if s = Status.ok then name.read.bind fun n => value.read.map fun v => (n, v) else none
  | asked .. => none

end FlagStep

namespace Flags

variable {f : Flags} {step : FlagStep} {steps before behind : List FlagStep} {n v : String}

def latest? (steps : List FlagStep) (name : String) : Option String :=
  (steps.filterMap FlagStep.write?).reverse.lookup name

/-- The flags once all is written that some steps write. -/
def after (f : Flags) (steps : List FlagStep) : Flags :=
  (steps.filterMap FlagStep.write?).foldl (fun f w => f.define w.1 w.2) f

/-- A request is answered as a session answers it with these flags. -/
def Answers (f : Flags) : FlagStep → Prop
  | .define .. => True
  | .asked c reply => ∃ s : Session, (s.answer f c).1 = reply

/-- A record that may come about: each request is answered with the flags of its time. -/
def Replays (f : Flags) : List FlagStep → Prop
  | [] => True
  | step :: rest => f.Answers step ∧ (f.after [step]).Replays rest

@[simp] theorem after_nil (f : Flags) : f.after [] = f := rfl

theorem after_append (f : Flags) (before behind : List FlagStep) :
    f.after (before ++ behind) = (f.after before).after behind := by
  rw [after, List.filterMap_append, List.foldl_append]
  rfl

theorem after_cons (f : Flags) (step : FlagStep) (rest : List FlagStep) :
    f.after (step :: rest) = (f.after [step]).after rest := f.after_append [step] rest

theorem replays_append :
    f.Replays (before ++ behind) ↔ f.Replays before ∧ (f.after before).Replays behind := by
  induction before generalizing f with
  | nil => simp [Replays]
  | cons step rest ih => rw [List.cons_append, Replays, Replays, ih, ← after_cons, and_assoc]

/-- The flags after a request can be told from the request and its answer. -/
theorem after_asked (s : Session) (f : Flags) (c : Callback) :
    f.after [.asked c (s.answer f c).1] = (s.answer f c).2.2 := by
  cases c with
  | setFlag name value =>
    rcases s.setFlag_cases f name value with ⟨n, v, hname, hvalue, -, h⟩ | ⟨-, h⟩
    · simp [h, after, FlagStep.write?, hname, hvalue]
    · simp [h, after, FlagStep.write?, Status.ok, Status.error]
  | _ => rfl

/-! ### Names -/

def addName (names : List String) (n : String) : List String :=
  if n ∈ names then names else names ++ [n]

theorem foldl_addName (ns : List String) : ns.foldl addName [] = ns.eraseDups := by
  induction ns using List.reverseRecOn with
  | nil => rfl
  | append_singleton ns n ih =>
    rw [List.foldl_append, ih, eraseDups_concat, List.foldl_cons, List.foldl_nil, addName]
    simp only [List.mem_eraseDups]

theorem mem_names_of_write? {c : Callback} {reply : CallbackReply}
    (h : f.Answers (.asked c reply)) (hw : (FlagStep.asked c reply).write? = some (n, v)) :
    n ∈ f.names := by
  obtain ⟨s, rfl⟩ := h
  cases c with
  | setFlag name value =>
    rcases s.setFlag_cases f name value with ⟨n', v', hname, hvalue, hmem, h⟩ | ⟨-, h⟩
    · simp only [h, FlagStep.write?, ↓reduceIte, hname, hvalue] at hw
      cases hw
      exact hmem
    · simp [h, FlagStep.write?, Status.ok, Status.error] at hw
  | _ => cases hw

theorem names_after_singleton (h : f.Answers step) :
    (f.after [step]).names = step.defined?.toList.foldl addName f.names := by
  cases step with
  | define name value => exact f.names_define name value
  | asked c reply =>
    cases hw : (FlagStep.asked c reply).write? with
    | none => simp [after, hw, FlagStep.defined?]
    | some w =>
      have hmem := mem_names_of_write? h hw
      simp [after, hw, FlagStep.defined?, names_define, hmem]

theorem names_after (h : f.Replays steps) :
    (f.after steps).names = (steps.filterMap FlagStep.defined?).foldl addName f.names := by
  induction steps generalizing f with
  | nil => rfl
  | cons step rest ih =>
    obtain ⟨hstep, hrest⟩ := h
    rw [after_cons, ih hrest, names_after_singleton hstep]
    cases hd : step.defined? <;> simp [hd]

/-- The names of the flags are those that the host defined, each once, in the order of their first
definition. -/
theorem names_of_replays (h : Replays {} steps) :
    (after {} steps).names = (steps.filterMap FlagStep.defined?).eraseDups := by
  rw [names_after h, ← foldl_addName]
  rfl

/-! ### Values -/

theorem table_foldl_define (ws : List (String × String)) (f : Flags) :
    (ws.foldl (fun f w => f.define w.1 w.2) f).table =
      ws.foldl (fun t w => Keyed.set w.1 w.2 t) f.table := by
  induction ws generalizing f with
  | nil => rfl
  | cons w ws ih => exact ih (f.define w.1 w.2)

theorem get?_after_of_ne (h : ∀ w ∈ steps.filterMap FlagStep.write?, w.1 ≠ n) (f : Flags) :
    (f.after steps).get? n = f.get? n := by
  rw [get?, after, table_foldl_define, UnitOption.get?_foldl_set_of_ne h, get?]

theorem get?_after (steps : List FlagStep) (n : String) :
    (after {} steps).get? n = latest? steps n := by
  rw [get?, after, table_foldl_define]
  exact UnitOption.get?_table _ n

theorem nodup_names_after (steps : List FlagStep) : (after {} steps).names.Nodup := by
  rw [names, after, table_foldl_define]
  exact UnitOption.nodup_keys_table _

/-! ### Answers in a record -/

theorem Replays.answers (h : f.Replays (before ++ step :: behind)) :
    (f.after before).Answers step :=
  (replays_append.1 h).2.1

theorem Replays.flag {name : ForeignText} {b : Buffer} {reply : CallbackReply}
    (h : Replays {} (before ++ .asked (.flag name b) reply :: behind)) :
    reply = fillOne (name.read.bind (latest? before)) b := by
  obtain ⟨s, rfl⟩ := h.answers
  have hlatest : get? (after {} before) = latest? before := funext (get?_after before)
  rw [← hlatest]
  rfl

/-- A unit sets a flag with success exactly if the host has defined it and both texts can be
read. -/
theorem Replays.setFlag {name value : ForeignText} {reply : CallbackReply}
    (h : Replays {} (before ++ .asked (.setFlag name value) reply :: behind)) :
    (reply = .status Status.ok ↔ ∃ n v, name.read = some n ∧ value.read = some v ∧
      n ∈ before.filterMap FlagStep.defined?) ∧
    (reply = .status Status.ok ∨ reply = .status Status.error) := by
  have hnames := names_of_replays (replays_append.1 h).1
  obtain ⟨s, rfl⟩ := h.answers
  simp only [← List.mem_eraseDups (l := before.filterMap _), ← hnames]
  rcases s.setFlag_cases (after {} before) name value with ⟨n, v, hread⟩ | ⟨hno, h⟩
  · obtain ⟨hname, hvalue, hmem, h⟩ := hread
    exact ⟨⟨fun _ => ⟨n, v, hname, hvalue, hmem⟩, fun _ => by rw [h]⟩, .inl (by rw [h])⟩
  · refine ⟨⟨fun hok => ?_, fun hyes => absurd hyes hno⟩, .inr (by rw [h])⟩
    rw [h] at hok
    cases hok

/-- Definitions and requests, one of them refused. A flag that is defined again keeps its place. -/
example :
    let steps : List FlagStep := [.define "a" "1", .define "b" "2",
      .asked (.setFlag (.ofString "b") (.ofString "3")) (.status Status.ok),
      .asked (.setFlag (.ofString "c") (.ofString "4")) (.status Status.error), .define "a" "5"]
    (after {} steps).table = [("a", "5"), ("b", "3")] := by
  decide +kernel

end Flags

end AccelHost
