import AccelHost.Run
import Mathlib.Data.List.TakeWhile

/-!
Lists of unit options as one text. Blanks around a line, blank lines and both ways to end a line
make no difference, so a text declares the units that its options would declare one by one.
-/
namespace AccelHost

namespace Text

/-- What is left of a text without the blanks at its ends. -/
structure Trimmed (s t : List Char) : Prop where
  around : ∃ before after, s = before ++ t ++ after ∧ (∀ c ∈ before, isBlank c = true) ∧
    ∀ c ∈ after, isBlank c = true
  head : ∀ c, t.head? = some c → isBlank c = false
  last : ∀ c, t.getLast? = some c → isBlank c = false

theorem trimStart_spec (s : List Char) :
    (∃ blanks, s = blanks ++ trimStart s ∧ ∀ c ∈ blanks, isBlank c = true) ∧
      ∀ c, (trimStart s).head? = some c → isBlank c = false := by
  refine ⟨⟨s.takeWhile isBlank, List.takeWhile_append_dropWhile.symm, fun c hc => ?_⟩, ?_⟩
  · exact List.all_eq_true.1 List.all_takeWhile c hc
  · intro c hc
    have hhead := List.head?_dropWhile_not isBlank s
    rw [trimStart] at hc
    rwa [hc] at hhead

theorem trimStart_append {blanks rest : List Char} (h : ∀ c ∈ blanks, isBlank c = true) :
    trimStart (blanks ++ rest) = trimStart rest :=
  List.dropWhile_append_of_pos h

theorem trim_append {before t after : List Char} (hb : ∀ c ∈ before, isBlank c = true)
    (ha : ∀ c ∈ after, isBlank c = true) : trim (before ++ t ++ after) = trim t := by
  have hrev : ∀ c ∈ after.reverse, isBlank c = true := by simpa using ha
  have hnil : trimStart after = [] := List.dropWhile_eq_nil_iff.2 ha
  have hstart : trimStart (t ++ after) = trimStart t ++ after ∨
      trimStart (t ++ after) = [] ∧ trimStart t = [] := by
    rw [trimStart, List.dropWhile_append]
    split
    · rename_i ht
      exact .inr ⟨hnil, List.isEmpty_iff.1 ht⟩
    · exact .inl rfl
  rw [trim, trim, List.append_assoc, trimStart_append hb]
  rcases hstart with h | ⟨h, ht⟩
  · rw [h, List.reverse_append, trimStart_append hrev]
  · rw [h, ht]

theorem trim_eq_iff {s t : List Char} : trim s = t ↔ Trimmed s t := by
  constructor
  · rintro rfl
    obtain ⟨⟨before, hbefore, hb⟩, hhead⟩ := trimStart_spec s
    obtain ⟨⟨after, hafter, ha⟩, hlast⟩ := trimStart_spec (trimStart s).reverse
    have hsplit : trimStart s = trim s ++ after.reverse := by
      rw [trim, ← List.reverse_append, ← hafter, List.reverse_reverse]
    refine ⟨⟨before, after.reverse, ?_, hb, by simpa using ha⟩, fun c hc => ?_, fun c hc => ?_⟩
    · rw [List.append_assoc, ← hsplit, ← hbefore]
    · refine hhead c ?_
      rw [hsplit, List.head?_append, hc, Option.some_or]
    · exact hlast c (by simpa [trim] using hc)
  · rintro ⟨⟨before, after, rfl, hb, ha⟩, hhead, hlast⟩
    rw [trim_append hb ha, trim_eq_self hhead hlast]

theorem nonBlankLines_of_not_mem {s : List Char} (h : '\n' ∉ s) :
    nonBlankLines s = if trim s = [] then [] else [trim s] := by
  rw [nonBlankLines, split_of_not_mem h, List.map_singleton]
  split <;> simp_all

end Text

namespace UnitOption

open Text

variable {items rest : List String} {line text : String}

def trimmed (s : String) : String := String.ofList (trim s.toList)

/-- What is read of a list of strings: the trimmed form of those that are not blank. -/
def kept (items : List String) : List String := (items.map trimmed).filter (· ≠ "")

/-- A line with an item on it, or a line of blanks. -/
inductive Line : List String → String → Prop where
  | item {s : String} (h : '\n' ∉ s.toList) : Line [s] s
  | blank {s : String} (h : '\n' ∉ s.toList) (hb : ∀ c ∈ s.toList, isBlank c = true) : Line [] s

/-- A text that lists items, one a line. Each line but the last has an end, of one character or of
two. A text with an end behind its last item has a blank line as the last one. -/
inductive Listed : List String → String → Prop where
  | last {items : List String} {line : String} (h : Line items line) : Listed items line
  | line {items rest : List String} {line ending text : String} (h : Line items line)
    (he : ending = "\n" ∨ ending = "\r\n") (ht : Listed rest text) :
    Listed (items ++ rest) (line ++ ending ++ text)

theorem kept_append (a b : List String) : kept (a ++ b) = kept a ++ kept b := by
  simp [kept]

/-! ### Reading a list -/

theorem splitList_append (a b : String) :
    splitList (a ++ "\n" ++ b) = splitList a ++ splitList b := by
  have hlist : (a ++ "\n" ++ b).toList = a.toList ++ '\n' :: b.toList := by simp
  rw [splitList, hlist, nonBlankLines_append, List.map_append]
  rfl

theorem Line.splitList (h : Line items line) : splitList line = kept items := by
  cases h with
  | item h =>
    rw [UnitOption.splitList, nonBlankLines_of_not_mem h]
    by_cases hblank : trim line.toList = [] <;> simp [kept, trimmed, hblank]
  | blank h hb =>
    have htrim : trim line.toList = [] := trim_eq_iff.2 ⟨⟨line.toList, [], by simpa using hb⟩,
      by simp, by simp⟩
    rw [UnitOption.splitList, nonBlankLines_of_not_mem h, if_pos htrim]
    rfl

/-- A carriage return at the end of a line is one of the blanks behind it. -/
theorem Line.splitList_return (h : Line items line) :
    UnitOption.splitList (line ++ "\r") = kept items := by
  have hline : '\n' ∉ line.toList := by cases h <;> assumption
  have hblank : ∀ c ∈ ['\r'], isBlank c = true := List.forall_mem_singleton.2 (by decide)
  have htrim : trim (line.toList ++ ['\r']) = trim line.toList :=
    @trim_append [] line.toList ['\r'] (by simp) hblank
  have hreturn : (line ++ "\r").toList = line.toList ++ ['\r'] := by simp
  rw [← h.splitList, UnitOption.splitList, UnitOption.splitList, hreturn,
    nonBlankLines_of_not_mem (by simpa using hline), nonBlankLines_of_not_mem hline, htrim]

theorem Listed.splitList (h : Listed items text) : splitList text = kept items := by
  induction h with
  | last h => exact h.splitList
  | @line items rest line ending text h he _ ih =>
    rw [kept_append, ← ih]
    rcases he with rfl | rfl
    · rw [splitList_append, h.splitList]
    · have hreturn : line ++ "\r\n" ++ text = line ++ "\r" ++ "\n" ++ text := by
        rw [← String.toList_inj]
        simp
      rw [hreturn, splitList_append, h.splitList_return]

theorem listed_intercalate {ending : String} (he : ending = "\n" ∨ ending = "\r\n")
    (h : ∀ s ∈ items, '\n' ∉ s.toList) : Listed items (ending.intercalate items) := by
  induction items with
  | nil => exact .last (.blank (by simp) (by simp))
  | cons s items ih =>
    have hline : Line [s] s := .item (h s List.mem_cons_self)
    have hitems : Listed items (ending.intercalate items) :=
      ih fun x hx => h x (List.mem_cons_of_mem s hx)
    cases items with
    | nil =>
      rw [String.intercalate_singleton]
      exact .last hline
    | cons s' items =>
      rw [String.intercalate_cons_cons]
      exact .line hline he hitems

/-! ### Settings -/

/-- An option that a list gives back as it is. -/
structure Listable (option : String) : Prop where
  nonempty : option ≠ ""
  oneLine : '\n' ∉ option.toList
  head : ∀ c, option.toList.head? = some c → isBlank c = false
  last : ∀ c, option.toList.getLast? = some c → isBlank c = false

theorem kept_of_listable (h : ∀ option ∈ items, Listable option) : kept items = items := by
  have htrimmed : ∀ option ∈ items, trimmed option = option := fun option ho => by
    rw [trimmed, trim_eq_self (h option ho).head (h option ho).last, String.ofList_toList]
  rw [kept, List.map_congr_left htrimmed, List.map_id', List.filter_eq_self]
  intro option ho
  simpa using (h option ho).nonempty

end UnitOption

namespace Settings

open UnitOption

variable {options : List String} {text : String}

theorem ofList_append (a b : List Setting) : ofList (a ++ b) = b.foldl apply (ofList a) :=
  List.foldl_append

theorem foldl_unit (c : Settings) (options : List String) :
    (options.map Setting.unit).foldl apply c = c.apply (.units options) := by
  induction options generalizing c with
  | nil => simp [apply]
  | cons option options ih => simp [ih, apply]

theorem ofList_unitList (h : ∀ option ∈ options, Listable option) (ht : Listed options text)
    (before after : List Setting) :
    ofList (before ++ .unitList text :: after) = ofList (before ++ .units options :: after) := by
  have happly : ∀ c : Settings, c.apply (.unitList text) = c.apply (.units options) := fun c => by
    rw [apply, apply, ht.splitList, kept_of_listable h]
  rw [ofList_append, ofList_append, List.foldl_cons, List.foldl_cons, happly]

/-- A text that lists strings, whatever blank lines and line ends it has, is read as those that are
not blank, trimmed. Two lists with a line end between them are read one after the other. So options
without blanks around them can be given as one text: the settings are those of the same options
given separately, and so are the startup and its outcome. -/
theorem unit_list_as_separate_options :
    (∀ s, Text.Trimmed s.toList (trimmed s).toList) ∧
    (∀ items text, Listed items text → splitList text = kept items) ∧
    (∀ items ending, ending = "\n" ∨ ending = "\r\n" → (∀ s ∈ items, '\n' ∉ s.toList) →
      Listed items (ending.intercalate items)) ∧
    (∀ a b, splitList (a ++ "\n" ++ b) = splitList a ++ splitList b) ∧
    ∀ options text, (∀ option ∈ options, Listable option) → Listed options text →
      ∀ before after,
        ofList (before ++ .unitList text :: after) = ofList (before ++ .units options :: after) ∧
        ofList (before ++ .units options :: after) =
          ofList (before ++ options.map .unit ++ after) ∧
        ∀ (n : Nested) (p : Program),
          (Startup.start n).run
              (.ofProgram { p with settings := ofList (before ++ .unitList text :: after) }) =
            (Startup.start n).run
              (.ofProgram { p with settings := ofList (before ++ .units options :: after) }) := by
  refine ⟨fun s => ?_, fun _ _ h => h.splitList, fun _ _ he h => listed_intercalate he h,
    splitList_append, fun options text h ht before after => ?_⟩
  · rw [trimmed, String.toList_ofList]
    exact Text.trim_eq_iff.1 rfl
  · refine ⟨ofList_unitList h ht before after, ?_, fun n p => by rw [ofList_unitList h ht]⟩
    rw [ofList_append, ofList_append, ofList_append, List.foldl_cons, foldl_unit]

/-- Blanks, blank lines and line ends in one text. -/
example : splitList " a?x=1 \r\n\n\t\n b_2" = ["a?x=1", "b_2"] := by decide +kernel

end Settings

end AccelHost
