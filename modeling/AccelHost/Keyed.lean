/-!
Tables that keep the order in which their keys first came. Setting a key again changes its value
and not its place.
-/
namespace AccelHost

/-- A table of values by key, in the order of the keys' first setting. -/
abbrev Keyed (κ ν : Type) := List (κ × ν)

namespace Keyed

variable {κ ν : Type} [DecidableEq κ]

def set (k : κ) (v : ν) : Keyed κ ν → Keyed κ ν
  | [] => [(k, v)]
  | (k', v') :: rest => if k' = k then (k, v) :: rest else (k', v') :: set k v rest

def get? (k : κ) : Keyed κ ν → Option ν
  | [] => none
  | (k', v) :: rest => if k' = k then some v else get? k rest

def erase (k : κ) (t : Keyed κ ν) : Keyed κ ν := t.filter fun e => decide (e.1 ≠ k)

def keys (t : Keyed κ ν) : List κ := t.map (·.1)

theorem get?_set_self (k : κ) (v : ν) (t : Keyed κ ν) : get? k (set k v t) = some v := by
  induction t with
  | nil => simp [set, get?]
  | cons e rest ih => by_cases h : e.1 = k <;> simp [set, get?, h, ih]

theorem get?_set_of_ne {k k' : κ} (h : k ≠ k') (v : ν) (t : Keyed κ ν) :
    get? k' (set k v t) = get? k' t := by
  induction t with
  | nil => simp [set, get?, h]
  | cons e rest ih =>
    obtain ⟨a, w⟩ := e
    by_cases ha : a = k
    · simp [set, get?, ha, h]
    · simp only [set, ha, ↓reduceIte, get?, ih]

theorem get?_erase_self (k : κ) (t : Keyed κ ν) : get? k (erase k t) = none := by
  induction t with
  | nil => rfl
  | cons e rest ih =>
    by_cases h : e.1 = k
    · simpa [erase, h] using ih
    · simpa [erase, h, get?] using ih

theorem get?_erase_of_ne {k k' : κ} (h : k ≠ k') (t : Keyed κ ν) :
    get? k' (erase k t) = get? k' t := by
  induction t with
  | nil => rfl
  | cons e rest ih =>
    obtain ⟨a, w⟩ := e
    by_cases ha : a = k
    · simpa [erase, ha, get?, h] using ih
    · by_cases ha' : a = k'
      · subst ha'
        simp [erase, ha, get?]
      · simpa [erase, ha, get?, ha'] using ih

theorem mem_of_get? {k : κ} {v : ν} {t : Keyed κ ν} (h : get? k t = some v) : (k, v) ∈ t := by
  induction t with
  | nil => cases h
  | cons e rest ih =>
    obtain ⟨a, w⟩ := e
    by_cases ha : a = k
    · simp only [get?, ha, ↓reduceIte, Option.some.injEq] at h
      simp [ha, h]
    · simp only [get?, ha, ↓reduceIte] at h
      exact List.mem_cons_of_mem _ (ih h)

theorem mem_set {k k' : κ} {v v' : ν} {t : Keyed κ ν} (h : (k', v') ∈ set k v t) :
    k' = k ∧ v' = v ∨ (k', v') ∈ t := by
  induction t with
  | nil => simpa [set] using h
  | cons e rest ih =>
    obtain ⟨a, w⟩ := e
    by_cases ha : a = k
    · simp only [set, ha, ↓reduceIte, List.mem_cons, Prod.mk.injEq] at h ⊢
      exact h.imp id .inr
    · simp only [set, ha, ↓reduceIte, List.mem_cons] at h ⊢
      exact h.elim (fun h => .inr (.inl h)) fun h => (ih h).imp id .inr

theorem keys_set (k : κ) (v : ν) (t : Keyed κ ν) :
    keys (set k v t) = if k ∈ keys t then keys t else keys t ++ [k] := by
  induction t with
  | nil => simp [set, keys]
  | cons e rest ih =>
    by_cases h : e.1 = k
    · simp [set, keys, h]
    · simp only [keys] at ih
      by_cases hk : k ∈ rest.map (·.1)
      · simp_all [set, keys]
      · simp_all [set, keys, eq_comm]

theorem get?_eq_none_iff {k : κ} {t : Keyed κ ν} : get? k t = none ↔ k ∉ keys t := by
  induction t with
  | nil => simp [get?, keys]
  | cons e rest ih =>
    by_cases h : e.1 = k
    · simp [get?, keys, h]
    · simp_all [get?, keys, eq_comm]

theorem set_of_not_mem_keys {k : κ} {v : ν} {t : Keyed κ ν} (hk : k ∉ keys t) :
    set k v t = t ++ [(k, v)] := by
  induction t with
  | nil => rfl
  | cons e rest ih =>
    obtain ⟨a, w⟩ := e
    simp only [keys, List.map_cons, List.mem_cons, not_or] at hk
    have hne : ¬a = k := fun he => hk.1 he.symm
    simp [set, hne, ih hk.2]

theorem mem_set_of_not_mem_keys {k k' : κ} {v v' : ν} {t : Keyed κ ν} (hk : k ∉ keys t) :
    (k', v') ∈ set k v t ↔ k' = k ∧ v' = v ∨ (k', v') ∈ t := by
  rw [set_of_not_mem_keys hk]
  simp [or_comm]

theorem mem_erase {k k' : κ} {v' : ν} {t : Keyed κ ν} :
    (k', v') ∈ erase k t ↔ k' ≠ k ∧ (k', v') ∈ t := by
  simp [erase, and_comm]

theorem nodup_keys_set {k : κ} {v : ν} {t : Keyed κ ν} (hn : t.keys.Nodup) :
    (t.set k v).keys.Nodup := by
  rw [keys_set]
  split
  · exact hn
  · rename_i hk
    refine List.nodup_append.2 ⟨hn, by simp, fun a ha b hb he => hk ?_⟩
    rw [← List.mem_singleton.1 hb, ← he]
    exact ha

theorem nodup_keys_erase {k : κ} {t : Keyed κ ν} (hn : t.keys.Nodup) :
    (t.erase k).keys.Nodup :=
  hn.sublist (List.filter_sublist.map _)

/-- Where keys are told once, a table has what is found in it. -/
theorem get?_eq_some_iff_mem {k : κ} {v : ν} {t : Keyed κ ν} (hn : (keys t).Nodup) :
    get? k t = some v ↔ (k, v) ∈ t := by
  refine ⟨mem_of_get?, fun hmem => ?_⟩
  induction t with
  | nil => cases hmem
  | cons e rest ih =>
    obtain ⟨a, w⟩ := e
    obtain ⟨ha, hrest⟩ := List.nodup_cons.1 hn
    rcases List.mem_cons.1 hmem with he | hmem
    · cases he
      simp [get?]
    · have hne : ¬a = k := by
        rintro rfl
        exact ha (List.mem_map.2 ⟨_, hmem, rfl⟩)
      simp only [get?, hne, ↓reduceIte]
      exact ih hrest hmem

end Keyed

end AccelHost
