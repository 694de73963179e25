import AccelHost.Text.Blank

/-!
Texts cut at separators. A text has one piece more than it has separators, and joining the pieces
gives the text back.
-/
namespace AccelHost.Text

/-- The first piece of a text and the pieces after it. -/
def pieces (sep : Char) : List Char → List Char × List (List Char)
  | [] => ([], [])
  | c :: r =>
    let (p, ps) := pieces sep r
    if c = sep then ([], p :: ps) else (c :: p, ps)

def split (sep : Char) (s : List Char) : List (List Char) :=
  (pieces sep s).1 :: (pieces sep s).2

def join (sep : Char) : List Char → List (List Char) → List Char
  | p, [] => p
  | p, q :: qs => p ++ sep :: join sep q qs

@[simp] theorem split_nil (sep : Char) : split sep [] = [[]] := rfl

theorem split_sep (sep : Char) (s : List Char) : split sep (sep :: s) = [] :: split sep s := by
  simp [split, pieces]

theorem join_cons (sep c : Char) (p : List Char) (qs : List (List Char)) :
    join sep (c :: p) qs = c :: join sep p qs := by
  cases qs <;> rfl

theorem join_pieces (sep : Char) (s : List Char) :
    join sep (pieces sep s).1 (pieces sep s).2 = s := by
  induction s with
  | nil => rfl
  | cons c r ih =>
    by_cases h : c = sep
    · simp [pieces, h, join, ih]
    · simp [pieces, h, join_cons, ih]

theorem not_mem_split {sep : Char} {s p : List Char} (h : p ∈ split sep s) : sep ∉ p := by
  induction s generalizing p with
  | nil => simp_all
  | cons c r ih =>
    by_cases hc : c = sep
    · subst hc
      rw [split_sep] at h
      rcases List.mem_cons.1 h with rfl | h
      · simp
      · exact ih h
    · simp only [split, pieces, hc, ↓reduceIte, List.mem_cons] at h
      rcases h with rfl | h
      · have := ih (p := (pieces sep r).1) (by simp [split])
        simp [this, Ne.symm hc]
      · exact ih (by simp [split, h])

theorem split_append (sep : Char) (a b : List Char) :
    split sep (a ++ sep :: b) = split sep a ++ split sep b := by
  induction a with
  | nil => simp [split_sep]
  | cons c r ih =>
    by_cases h : c = sep
    · subst h; rw [List.cons_append, split_sep, split_sep, ih, List.cons_append]
    · simp only [split, List.cons_append, List.cons.injEq] at ih
      simp [split, pieces, h, ih.1, ih.2]

theorem split_of_not_mem {sep : Char} {s : List Char} (h : sep ∉ s) : split sep s = [s] := by
  induction s with
  | nil => rfl
  | cons c r ih =>
    obtain ⟨hc, hr⟩ := not_or.1 (mt List.mem_cons.2 h)
    have hrest := ih hr
    simp only [split, List.cons.injEq] at hrest
    simp [split, pieces, Ne.symm hc, hrest.1, hrest.2]

/-- The pieces of a text are the texts without a separator that join to it. -/
theorem split_eq_iff {sep : Char} {s p : List Char} {ps : List (List Char)} :
    split sep s = p :: ps ↔ join sep p ps = s ∧ ∀ q ∈ p :: ps, sep ∉ q := by
  constructor
  · intro h
    have hjoin := join_pieces sep s
    rw [split, List.cons.injEq] at h
    rw [h.1, h.2] at hjoin
    refine ⟨hjoin, fun q hq => not_mem_split (s := s) ?_⟩
    rw [split, h.1, h.2]
    exact hq
  · rintro ⟨rfl, hfree⟩
    induction ps generalizing p with
    | nil => exact split_of_not_mem (hfree p List.mem_cons_self)
    | cons q qs ih =>
      have hp := hfree p List.mem_cons_self
      have hrest := ih (p := q) fun x hx => hfree x (List.mem_cons_of_mem p hx)
      rw [join, split_append, split_of_not_mem hp, hrest, List.singleton_append]

/-- The text before and the text after the first separator. -/
def cut (sep : Char) : List Char → Option (List Char × List Char)
  | [] => none
  | c :: r => if c = sep then some ([], r) else (cut sep r).map fun (a, b) => (c :: a, b)

/-- The text before and the text after the last separator. -/
def cutLast (sep : Char) : List Char → Option (List Char × List Char)
  | [] => none
  | c :: r =>
    match cutLast sep r with
    | some (a, b) => some (c :: a, b)
    | none => if c = sep then some ([], r) else none

theorem cut_eq_none_iff {sep : Char} {s : List Char} : cut sep s = none ↔ sep ∉ s := by
  induction s with
  | nil => simp [cut]
  | cons c r ih =>
    by_cases h : c = sep
    · simp [cut, h]
    · simp [cut, h, ih, show sep ≠ c from fun e => h e.symm]

theorem cut_eq_some_iff {sep : Char} {s a b : List Char} :
    cut sep s = some (a, b) ↔ s = a ++ sep :: b ∧ sep ∉ a := by
  induction s generalizing a with
  | nil => simp [cut]
  | cons c r ih =>
    by_cases h : c = sep
    · subst h
      cases a with
      | nil => simp [cut, eq_comm]
      | cons d a => simp only [cut, ↓reduceIte]; grind
    · cases a with
      | nil => simp [cut, h]
      | cons d a =>
        simp only [cut, h, ↓reduceIte, Option.map_eq_some_iff, Prod.mk.injEq, List.cons.injEq,
          Prod.exists]
        grind

theorem cutLast_eq_none_iff {sep : Char} {s : List Char} : cutLast sep s = none ↔ sep ∉ s := by
  induction s with
  | nil => simp [cutLast]
  | cons c r ih =>
    cases h : cutLast sep r with
    | none => by_cases hc : c = sep <;> grind [cutLast]
    | some p => grind [cutLast]

theorem cutLast_eq_some_iff {sep : Char} {s a b : List Char} :
    cutLast sep s = some (a, b) ↔ s = a ++ sep :: b ∧ sep ∉ b := by
  induction s generalizing a with
  | nil => simp [cutLast]
  | cons c r ih =>
    cases h : cutLast sep r with
    | none =>
      have := cutLast_eq_none_iff.1 h
      cases a <;> by_cases hc : c = sep <;> grind [cutLast]
    | some p =>
      have hr : sep ∈ r := by
        have := @cutLast_eq_none_iff sep r
        grind
      cases a with
      | nil =>
        simp only [cutLast, h, List.nil_append, List.cons.injEq]
        grind
      | cons d a =>
        simp only [cutLast, h, List.cons_append, List.cons.injEq]
        grind

/-- The part of a text after the last character of a kind. -/
def afterLast (stop : Char → Bool) (s : List Char) : List Char :=
  (s.reverse.takeWhile fun c => !stop c).reverse

/-- The part after the last character of a kind is the ending without one, before which the text
starts or such a character stands. -/
theorem afterLast_eq_iff {stop : Char → Bool} {s name : List Char} :
    afterLast stop s = name ↔
      (∀ c ∈ name, stop c = false) ∧
        ∃ before, s = before ++ name ∧ ∀ c, before.getLast? = some c → stop c = true := by
  constructor
  · rintro rfl
    refine ⟨fun c hc => ?_, (s.reverse.dropWhile fun c => !stop c).reverse, ?_, fun c hc => ?_⟩
    · have hkept := List.all_takeWhile (p := fun c => !stop c) (l := s.reverse)
      rw [List.all_eq_true] at hkept
      simpa using hkept c (List.mem_reverse.1 hc)
    · rw [afterLast, ← List.reverse_append, List.takeWhile_append_dropWhile, List.reverse_reverse]
    · rw [List.getLast?_reverse] at hc
      have hstop := List.head?_dropWhile_not (fun c => !stop c) s.reverse
      rw [hc] at hstop
      simpa using hstop
  · rintro ⟨hname, before, rfl, hbefore⟩
    have hall : ∀ c ∈ name.reverse, (!stop c) = true := fun c hc => by
      simp [hname c (List.mem_reverse.1 hc)]
    have hstop : before.reverse.takeWhile (fun c => !stop c) = [] := by
      cases h : before.reverse with
      | nil => rfl
      | cons c r =>
        have hc := hbefore c (by rw [← List.head?_reverse, h, List.head?_cons])
        simp [hc]
    rw [afterLast, List.reverse_append, List.takeWhile_append_of_pos hall, hstop, List.append_nil,
      List.reverse_reverse]

def stripEnding? (ending s : List Char) : Option (List Char) :=
  if ending.isSuffixOf s then some (s.take (s.length - ending.length)) else none

theorem stripEnding?_eq_some_iff {ending s t : List Char} :
    stripEnding? ending s = some t ↔ s = t ++ ending := by
  constructor
  · intro h
    simp only [stripEnding?] at h
    split at h
    · rename_i hs
      obtain ⟨u, rfl⟩ := List.isSuffixOf_iff_suffix.1 hs
      simp_all
    · cases h
  · rintro rfl
    simp [stripEnding?, List.isSuffixOf_iff_suffix]

def byteLength : List Char → Nat
  | [] => 0
  | c :: r => c.utf8Size + byteLength r

@[simp] theorem byteLength_nil : byteLength [] = 0 := rfl

@[simp] theorem byteLength_append (a b : List Char) :
    byteLength (a ++ b) = byteLength a + byteLength b := by
  induction a with
  | nil => simp
  | cons c r ih => simp [byteLength, ih, Nat.add_assoc]

theorem byteLength_pos_iff {s : List Char} : 1 ≤ byteLength s ↔ s ≠ [] := by
  cases s with
  | nil => simp
  | cons c r =>
    have hc := c.utf8Size_pos
    simp only [byteLength, ne_eq, reduceCtorEq, not_false_eq_true, iff_true]
    omega

/-- The first characters of a text, as many as so many bytes hold. -/
def takeBytes (n : Nat) : List Char → List Char
  | [] => []
  | c :: r => if c.utf8Size ≤ n then c :: takeBytes (n - c.utf8Size) r else []

/-- A text without its first characters, up to so many bytes. -/
def dropBytes (n : Nat) : List Char → List Char
  | [] => []
  | c :: r => if n = 0 then c :: r else dropBytes (n - c.utf8Size) r

def slice (start length : Nat) (s : List Char) : List Char := takeBytes length (dropBytes start s)

theorem takeBytes_zero (s : List Char) : takeBytes 0 s = [] := by
  cases s with
  | nil => rfl
  | cons c r => simp [takeBytes, Nat.ne_of_gt c.utf8Size_pos]

theorem dropBytes_zero (s : List Char) : dropBytes 0 s = s := by
  cases s <;> simp [dropBytes]

/-- The non-blank lines of a text, without the blanks around them. -/
def nonBlankLines (s : List Char) : List (List Char) :=
  ((split '\n' s).map trim).filter fun l => !l.isEmpty

theorem nonBlankLines_append (a b : List Char) :
    nonBlankLines (a ++ '\n' :: b) = nonBlankLines a ++ nonBlankLines b := by
  simp [nonBlankLines, split_append]

end AccelHost.Text
