import AccelHost.Proofs.OptionParts
import Mathlib.Data.List.Induction

/-!
Parameters as they are written. Keys and values have one written form. What is read from it is each
key once, at the place of its first group and with the value of its last; and whatever is read as
parameters is the written form of one list of keys and values.
-/
namespace AccelHost

/-- Without repetitions, one more item goes to the end, unless it was there before. -/
theorem eraseDups_concat {α : Type} [DecidableEq α] (as : List α) (a : α) :
    (as ++ [a]).eraseDups = if a ∈ as then as.eraseDups else as.eraseDups ++ [a] := by
  have hone : [a].eraseDups = [a] := rfl
  rw [List.eraseDups_append]
  by_cases ha : a ∈ as <;> simp [ha, List.removeAll, hone]

namespace Text

theorem intercalate_eq_join (sep : Char) (p : List Char) (ps : List (List Char)) :
    [sep].intercalate (p :: ps) = join sep p ps := by
  induction ps generalizing p with
  | nil => simp [List.intercalate, join]
  | cons q qs ih => rw [List.intercalate_cons_cons, ih, join, List.append_assoc,
      List.singleton_append]

end Text

namespace UnitOption

open Text

/-! ### The written form -/

/-- Keys and values as they are written, `key=value:key=value`. -/
def renderParams (kvs : List (String × String)) : String :=
  ":".intercalate (kvs.map fun kv => kv.1 ++ "=" ++ kv.2)

def render (identifier : String) (kvs : List (String × String)) : String :=
  identifier ++ "?" ++ renderParams kvs

def Identifier (text : String) : Prop := ∃ feature version, Names text.toList feature version

/-- Keys and values that have a written form. The two characters that hold it together may not be
among theirs. -/
structure Renderable (kvs : List (String × String)) : Prop where
  nonempty : kvs ≠ []
  keys : ∀ kv ∈ kvs, kv.1 ≠ ""
  plain : ∀ kv ∈ kvs, ∀ c ∈ kv.1.toList ++ kv.2.toList, c ≠ ':' ∧ c ≠ '='
  short : byteLength (renderParams kvs).toList ≤ 1024

def renderGroup (kv : String × String) : List Char := kv.1.toList ++ '=' :: kv.2.toList

variable {identifier text raw : String} {o : UnitOption} {kv : String × String}
  {kvs kvs' : List (String × String)}

theorem toList_renderParams (kv : String × String) (kvs : List (String × String)) :
    (renderParams (kv :: kvs)).toList = join ':' (renderGroup kv) (kvs.map renderGroup) := by
  have hgroup : (fun kv : String × String => (kv.1 ++ "=" ++ kv.2).toList) = renderGroup := by
    funext kv
    simp [renderGroup]
  rw [renderParams, String.toList_intercalate, List.map_map, List.map_cons, ← intercalate_eq_join]
  exact congrArg (fun f => [':'].intercalate (f kv :: kvs.map f)) hgroup

theorem toList_render : (render identifier kvs).toList =
    identifier.toList ++ '?' :: (renderParams kvs).toList := by
  simp [render]

/-! ### Lists of parameters -/

/-- No character of a key or a value is a separator exactly if the group is one that is read as
them, and is not cut itself. -/
theorem plain_iff : (∀ c ∈ kv.1.toList ++ kv.2.toList, c ≠ ':' ∧ c ≠ '=') ↔
    ':' ∉ renderGroup kv ∧ '=' ∉ kv.1.toList ∧ '=' ∉ kv.2.toList := by
  have hcolon : ':' ∈ renderGroup kv ↔ ':' ∈ kv.1.toList ++ kv.2.toList := by simp [renderGroup]
  rw [hcolon, ← not_or, ← List.mem_append]
  constructor
  · exact fun h => ⟨fun hmem => (h _ hmem).1 rfl, fun hmem => (h _ hmem).2 rfl⟩
  · rintro ⟨hnot, hnot'⟩ c hc
    exact ⟨fun heq => hnot (heq ▸ hc), fun heq => hnot' (heq ▸ hc)⟩

theorem forall₂_group_iff {groups : List (List Char)} : List.Forall₂ Group groups kvs ↔
    groups = kvs.map renderGroup ∧ ∀ kv ∈ kvs, Group (renderGroup kv) kv := by
  constructor
  · intro h
    induction h with
    | nil => exact ⟨rfl, List.forall_mem_nil _⟩
    | @cons group kv groups kvs hfirst _ ih =>
      obtain ⟨rfl, hrest⟩ := ih
      obtain rfl : group = renderGroup kv := hfirst.written
      exact ⟨rfl, List.forall_mem_cons.2 ⟨hfirst, hrest⟩⟩
  · rintro ⟨rfl, h⟩
    rw [List.forall₂_map_left_iff, List.forall₂_same]
    exact h

theorem Renderable.params (h : Renderable kvs) : Params (renderParams kvs).toList kvs := by
  obtain ⟨kv, rest, rfl⟩ := List.exists_cons_of_ne_nil h.nonempty
  have hjoin := toList_renderParams kv rest
  refine ⟨⟨byteLength_pos_iff.2 fun hnil => ?_, h.short⟩, renderGroup kv, rest.map renderGroup,
    hjoin.symm, ?_, forall₂_group_iff.2 ⟨rfl, fun kv' hkv' => ?_⟩⟩
  · have hequals : '=' ∈ join ':' (renderGroup kv) (rest.map renderGroup) :=
      (infix_join List.mem_cons_self).subset (by simp [renderGroup])
    rw [← hjoin, hnil] at hequals
    cases hequals
  · rw [← List.map_cons]
    exact List.forall_mem_map.2 fun kv' hkv' => (plain_iff.1 (h.plain kv' hkv')).1
  · exact ⟨rfl, h.keys kv' hkv', (plain_iff.1 (h.plain kv' hkv')).2⟩

theorem params_iff : Params raw.toList kvs ↔ Renderable kvs ∧ renderParams kvs = raw := by
  constructor
  · rintro ⟨hlength, g, gs, hjoin, hfree, hgroups⟩
    obtain ⟨hmap, hread⟩ := forall₂_group_iff.1 hgroups
    cases kvs with
    | nil => cases hmap
    | cons kv rest =>
      obtain ⟨rfl, rfl⟩ := List.cons.inj hmap
      have hraw : renderParams (kv :: rest) = raw := by
        rw [← String.toList_inj, toList_renderParams, hjoin]
      refine ⟨⟨List.cons_ne_nil _ _, fun kv' h => (hread kv' h).key, fun kv' h => ?_, ?_⟩, hraw⟩
      · exact plain_iff.2 ⟨hfree _ (List.mem_map_of_mem h), (hread kv' h).single⟩
      · rw [hraw]
        exact hlength.2
  · rintro ⟨h, rfl⟩
    exact h.params

theorem Params.unique {raw : List Char} (h : Params raw kvs) (h' : Params raw kvs') :
    kvs = kvs' := by
  have hread {kvs : List (String × String)} (h : Params raw kvs) :
      parseGroups (split ':' raw) = .ok kvs := by
    obtain ⟨g, gs, hjoin, hfree, hgroups⟩ := h.groups
    rw [split_eq_iff.2 ⟨hjoin, hfree⟩]
    exact parseGroups_eq_ok_iff.2 hgroups
  exact Except.ok.inj ((hread h).symm.trans (hread h'))

/-! ### The table of some groups -/

theorem table_concat (kvs : List (String × String)) (kv : String × String) :
    table (kvs ++ [kv]) = Keyed.set kv.1 kv.2 (table kvs) := by
  rw [table, List.foldl_append]
  rfl

/-- Each key stands once in the table, where its first group was. -/
theorem keys_table (kvs : List (String × String)) :
    Keyed.keys (table kvs) = (kvs.map (·.1)).eraseDups := by
  induction kvs using List.reverseRecOn with
  | nil => rfl
  | append_singleton kvs kv ih =>
    rw [table_concat, Keyed.keys_set, ih, List.map_append, List.map_singleton, eraseDups_concat]
    simp only [List.mem_eraseDups]

theorem nodup_keys_table (kvs : List (String × String)) : (Keyed.keys (table kvs)).Nodup := by
  induction kvs using List.reverseRecOn with
  | nil => exact List.nodup_nil
  | append_singleton kvs kv ih =>
    rw [table_concat]
    exact Keyed.nodup_keys_set ih

theorem get?_table (kvs : List (String × String)) (key : String) :
    (table kvs).get? key = kvs.reverse.lookup key := by
  by_cases hkey : ∃ kv ∈ kvs, kv.1 = key
  · obtain ⟨before, value, behind, rfl, hbehind⟩ := exists_last_group hkey
    have hnone : behind.reverse.lookup key = none :=
      List.lookup_eq_none_iff.2 fun kv hkv => bne_iff_ne.2
        (hbehind kv (List.mem_reverse.1 hkv)).symm
    rw [get?_table_of_last hbehind, List.reverse_append, List.reverse_cons, List.append_assoc,
      List.lookup_append, hnone, List.singleton_append, List.lookup_cons_self, Option.none_or]
  · have hne : ∀ kv ∈ kvs, kv.1 ≠ key := fun kv hkv heq => hkey ⟨kv, hkv, heq⟩
    rw [get?_table_of_ne hne, eq_comm]
    exact List.lookup_eq_none_iff.2 fun kv hkv => bne_iff_ne.2
      (hne kv (List.mem_reverse.1 hkv)).symm

/-- A key that comes again has its last value at its first place. -/
example : table [("a", "1"), ("b", "2"), ("a", "3")] = [("a", "3"), ("b", "2")] := by decide

/-! ### Whole options -/

theorem Names.query_not_mem {identifier feature : List Char} {version : Option (List Char)}
    (h : Names identifier feature version) : '?' ∉ identifier :=
  h.not_mem (fun hplain => hplain.2.2 (by decide)) (by decide) (by decide)

theorem Sections.eq_append {option identifier raw : List Char}
    (h : Sections option identifier (some raw)) : option = identifier ++ '?' :: raw := by
  cases h
  rfl

theorem sections_render (h : Identifier identifier) (kvs : List (String × String)) :
    Sections (render identifier kvs).toList identifier.toList
      (some (renderParams kvs).toList) := by
  obtain ⟨feature, version, hnames⟩ := h
  rw [toList_render]
  exact .params hnames.query_not_mem

theorem parse_render (hidentifier : Identifier identifier) (hkvs : Renderable kvs) :
    ∃ o, parse (render identifier kvs) = .ok o ∧ o.identifier = identifier ∧
      o.rawParams = some (renderParams kvs) ∧ o.params = table kvs := by
  have hsections := sections_render hidentifier kvs
  obtain ⟨feature, version, hnames⟩ := hidentifier
  let o : UnitOption :=
    { text := render identifier kvs, identifier, feature := String.ofList feature
      version := version.map String.ofList, rawParams := some (renderParams kvs)
      params := table kvs }
  refine ⟨o, parse_eq_ok_iff.2 ⟨rfl, hsections, ?_, kvs, hkvs.params, rfl⟩, rfl, rfl, rfl⟩
  simpa [o, Function.comp_def] using hnames

/-- An option with parameters is written from one identifier and one list of keys and values. -/
theorem existsUnique_render (h : parse text = .ok o) (hraw : o.rawParams = some raw) :
    ∃! p : String × List (String × String),
      Identifier p.1 ∧ Renderable p.2 ∧ render p.1 p.2 = text := by
  obtain ⟨-, hsections, hnames, htable⟩ := parse_eq_ok_iff.1 h
  rw [hraw] at hsections htable
  obtain ⟨kvs, hparams, -⟩ := htable
  obtain ⟨hkvs, rfl⟩ := params_iff.1 hparams
  have hidentifier : Identifier o.identifier := ⟨_, _, hnames⟩
  refine ⟨(o.identifier, kvs), ⟨hidentifier, hkvs, ?_⟩, ?_⟩
  · rw [← String.toList_inj, toList_render, hsections.eq_append]
  · rintro ⟨identifier', kvs'⟩ ⟨hidentifier', hkvs', hrender⟩
    -- The text is cut at its first `?` in one way, and what stands behind it in one way.
    have hsections' := sections_render hidentifier' kvs'
    rw [hrender, ← splitOption_eq_iff, splitOption_eq_iff.2 hsections] at hsections'
    obtain ⟨hsame, hsame'⟩ := Prod.mk.inj hsections'
    rw [Option.map_some, Option.some.injEq, String.toList_inj] at hsame'
    have hparams' := params_iff.2 ⟨hkvs', hsame'.symm⟩
    exact Prod.ext (String.toList_inj.1 hsame).symm (hparams'.unique hparams)

/-- What is written as parameters is what they are read as: the list itself, a table with each key
once, in the order in which the keys first came, and for every key the value that was written for it
last, for any other key none. And each option with parameters is written in this way, from just one
list of keys and values. -/
theorem params_written_and_read :
    (∀ identifier kvs, Identifier identifier → Renderable kvs →
      ∃ o, parse (render identifier kvs) = .ok o ∧ o.identifier = identifier ∧
        o.rawParams = some (renderParams kvs) ∧
        Keyed.keys o.params = (kvs.map (·.1)).eraseDups ∧
        (∀ key value, (key, value) ∈ o.params ↔ kvs.reverse.lookup key = some value) ∧
        (∀ key, o.param? key = kvs.reverse.lookup key) ∧
        ∀ key, o.param? key = none ↔ ∀ kv ∈ kvs, kv.1 ≠ key) ∧
    ∀ text o, parse text = .ok o → o.rawParams.isSome →
      ∃! p : String × List (String × String),
        Identifier p.1 ∧ Renderable p.2 ∧ render p.1 p.2 = text := by
  refine ⟨fun identifier kvs hidentifier hkvs => ?_, fun text o h hsome => ?_⟩
  · obtain ⟨o, hparse, hsame, hraw, htable⟩ := parse_render hidentifier hkvs
    refine ⟨o, hparse, hsame, hraw, ?_, fun key value => ?_, fun key => ?_, fun key => ?_⟩
    · rw [htable, keys_table]
    · rw [htable, ← get?_table, Keyed.get?_eq_some_iff_mem (nodup_keys_table kvs)]
    · rw [param?, htable, get?_table]
    · rw [param?, htable, get?_table_eq_none_iff]
  · obtain ⟨raw, hraw⟩ := Option.isSome_iff_exists.1 hsome
    exact existsUnique_render h hraw

end UnitOption

end AccelHost
