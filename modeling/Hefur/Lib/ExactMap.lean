import Mathlib.Data.List.AList

/-!
# Exact maps

A finite map from keys to values, as an association list without duplicate
keys.  On top of the operations of `AList` it has

* `insertNew`, which refuses a key that is already present;
* `mapValues` and `modify`, which change values in place.

Each operation is described by what `lookup` returns afterwards.
-/

universe u v

/-- A finite map from `κ` to `α`. -/
abbrev ExactMap (κ : Type u) (α : Type v) :=
  AList (fun _ : κ => α)

namespace ExactMap

variable {κ : Type u} {α : Type v} [DecidableEq κ]

/-- Insert unless the key is present. -/
def insertNew (k : κ) (a : α) (m : ExactMap κ α) : ExactMap κ α :=
  if k ∈ m then m else m.insert k a

/-- Apply `f` to every value. -/
def mapValues (f : κ → α → α) (m : ExactMap κ α) : ExactMap κ α where
  entries := m.entries.map (fun s => ⟨s.1, f s.1 s.2⟩)
  nodupKeys := by
    have hkeys :
        (m.entries.map (fun s => (⟨s.1, f s.1 s.2⟩ : Sigma fun _ : κ => α))).keys =
          m.entries.keys := by
      simp [List.keys]
    unfold List.NodupKeys
    rw [hkeys]
    exact m.nodupKeys

/-- Apply `f` to the value under `k`. -/
def modify (k : κ) (f : α → α) (m : ExactMap κ α) : ExactMap κ α :=
  mapValues (fun k' a => if k' = k then f a else a) m

/-- The values, in the order of iteration. -/
def values (m : ExactMap κ α) : List α :=
  m.entries.map (fun s => s.2)

theorem mem_values_iff {m : ExactMap κ α} {a : α} :
    a ∈ values m ↔ ∃ k, m.lookup k = some a := by
  constructor
  · intro ha
    obtain ⟨s, hs, rfl⟩ := List.mem_map.mp ha
    exact ⟨s.1, AList.mem_lookup_iff.mpr hs⟩
  · rintro ⟨k, hk⟩
    exact List.mem_map.mpr ⟨⟨k, a⟩, AList.mem_lookup_iff.mp hk, rfl⟩

/-- The values, looked up key by key. -/
theorem values_eq (m : ExactMap κ α) :
    values m = m.keys.filterMap fun k => m.lookup k := by
  rw [AList.keys, List.keys, List.filterMap_map, values,
    ← List.filterMap_eq_map]
  apply List.filterMap_congr
  rintro ⟨k, a⟩ hmem
  exact (AList.mem_lookup_iff.mpr hmem).symm

/-- Values that know their keys give all keys. -/
theorem map_values {f : α → κ} {m : ExactMap κ α}
    (h : ∀ k a, m.lookup k = some a → f a = k) :
    (values m).map f = m.keys := by
  rw [AList.keys, List.keys, values, List.map_map]
  apply List.map_congr_left
  rintro ⟨k, a⟩ hmem
  exact h k a (AList.mem_lookup_iff.mpr hmem)

theorem eq_empty_of_lookup {m : ExactMap κ α}
    (hm : ∀ k, m.lookup k = none) : m = ∅ := by
  apply AList.ext
  rw [AList.empty_entries, List.eq_nil_iff_forall_not_mem]
  rintro ⟨k, a⟩ ha
  rw [← AList.mem_lookup_iff, hm k] at ha
  cases ha

theorem lookup_insertNew_self
    {k : κ} {a : α} {m : ExactMap κ α} (hk : m.lookup k = none) :
    (insertNew k a m).lookup k = some a := by
  have hmem : k ∉ m := AList.lookup_eq_none.mp hk
  simp [insertNew, hmem]

theorem insertNew_of_some
    {k : κ} {a b : α} {m : ExactMap κ α} (hk : m.lookup k = some b) :
    insertNew k a m = m := by
  have hmem : k ∈ m := by
    rw [← AList.lookup_isSome, hk]
    rfl
  simp [insertNew, hmem]

theorem lookup_insertNew_of_ne
    {k k' : κ} {a : α} {m : ExactMap κ α} (hne : k' ≠ k) :
    (insertNew k a m).lookup k' = m.lookup k' := by
  unfold insertNew
  split
  · rfl
  · exact AList.lookup_insert_ne hne

/-- The values of a map after an insertion that may have been refused. -/
theorem lookup_insertNew
    {k k' : κ} {a : α} {m : ExactMap κ α} :
    (insertNew k a m).lookup k' =
      if k' = k ∧ m.lookup k = none then some a else m.lookup k' := by
  by_cases hk : k' = k
  · subst hk
    cases hm : m.lookup k' with
    | none =>
        simp [lookup_insertNew_self hm]
    | some b =>
        simp [insertNew_of_some hm, hm]
  · simp [lookup_insertNew_of_ne hk, hk]

theorem lookup_insert
    {k k' : κ} {a : α} {m : ExactMap κ α} :
    (m.insert k a).lookup k' = if k' = k then some a else m.lookup k' := by
  by_cases hk : k' = k
  · subst hk
    simp
  · simp [AList.lookup_insert_ne hk, hk]

theorem lookup_erase
    {k k' : κ} {m : ExactMap κ α} :
    (m.erase k).lookup k' = if k' = k then none else m.lookup k' := by
  by_cases hk : k' = k
  · subst hk
    simp
  · simp [AList.lookup_erase_ne hk, hk]

/-- A key that is not present is not erased. -/
theorem erase_of_none {k : κ} {m : ExactMap κ α} (hk : m.lookup k = none) :
    m.erase k = m := by
  apply AList.ext
  exact List.kerase_of_notMem_keys (AList.lookup_eq_none.mp hk)

theorem lookup_mapValues
    (f : κ → α → α) (m : ExactMap κ α) (k : κ) :
    (mapValues f m).lookup k = (m.lookup k).map (f k) := by
  cases hm : m.lookup k with
  | none =>
      rw [Option.map_none, AList.lookup_eq_none]
      rw [AList.lookup_eq_none] at hm
      intro hk
      apply hm
      rw [AList.mem_keys] at hk ⊢
      simpa [AList.keys, mapValues, List.keys] using hk
  | some a =>
      rw [Option.map_some]
      apply AList.mem_lookup_iff.mpr
      exact List.mem_map.mpr ⟨⟨k, a⟩, AList.mem_lookup_iff.mp hm, rfl⟩

theorem lookup_modify
    (k k' : κ) (f : α → α) (m : ExactMap κ α) :
    (modify k f m).lookup k' =
      if k' = k then (m.lookup k').map f else m.lookup k' := by
  rw [modify, lookup_mapValues]
  by_cases hk : k' = k
  · simp [hk]
  · simp [hk]

section Changes

omit [DecidableEq κ] in
theorem mapValues_mapValues (f g : κ → α → α) (m : ExactMap κ α) :
    mapValues f (mapValues g m) = mapValues (fun k a => f k (g k a)) m := by
  apply AList.ext
  simp [mapValues, Function.comp_def]

omit [DecidableEq κ] in
theorem keys_mapValues (f : κ → α → α) (m : ExactMap κ α) :
    (mapValues f m).keys = m.keys := by
  simp [AList.keys, mapValues, List.keys, Function.comp_def]

theorem mapValues_congr {f g : κ → α → α} {m : ExactMap κ α}
    (hfg : ∀ k a, m.lookup k = some a → f k a = g k a) :
    mapValues f m = mapValues g m := by
  apply AList.ext
  apply List.map_congr_left
  rintro ⟨k, a⟩ hmem
  rw [hfg k a (AList.mem_lookup_iff.mpr hmem)]

omit [DecidableEq κ] in
theorem mapValues_id (m : ExactMap κ α) :
    mapValues (fun _ a => a) m = m := by
  apply AList.ext
  simp [mapValues]

theorem keys_modify (k : κ) (f : α → α) (m : ExactMap κ α) :
    (modify k f m).keys = m.keys :=
  keys_mapValues _ m

theorem lookup_modify_self {k : κ} {f : α → α} {m : ExactMap κ α} {a : α}
    (hk : m.lookup k = some a) : (modify k f m).lookup k = some (f a) := by
  rw [lookup_modify, if_pos rfl, hk]
  rfl

/-- Only what is there is changed. -/
theorem modify_congr {k : κ} {f g : α → α} {m : ExactMap κ α}
    (hfg : ∀ a, m.lookup k = some a → f a = g a) :
    modify k f m = modify k g m := by
  apply mapValues_congr
  intro k' a hk'
  by_cases hsame : k' = k
  · subst hsame
    rw [if_pos rfl, if_pos rfl, hfg a hk']
  · rw [if_neg hsame, if_neg hsame]

theorem modify_eq_self {k : κ} {f : α → α} {m : ExactMap κ α}
    (hf : ∀ a, m.lookup k = some a → f a = a) : modify k f m = m := by
  rw [modify_congr (g := fun a => a) hf, modify]
  simp only [ite_self]
  exact mapValues_id m

theorem modify_modify (k : κ) (f g : α → α) (m : ExactMap κ α) :
    modify k f (modify k g m) = modify k (fun a => f (g a)) m := by
  rw [modify, modify, mapValues_mapValues]
  apply mapValues_congr
  intro k' a _
  by_cases hsame : k' = k
  · simp [hsame]
  · simp [hsame]

/-- Changing the values one key after the other changes them all. -/
theorem foldl_modify (f : κ → α → α) {keys : List κ} (hkeys : keys.Nodup)
    (m : ExactMap κ α) :
    keys.foldl (fun m k => modify k (f k) m) m =
      mapValues (fun k a => if k ∈ keys then f k a else a) m := by
  induction keys generalizing m with
  | nil =>
      simpa using (mapValues_id m).symm
  | cons k keys ih =>
      obtain ⟨hk, hkeys⟩ := List.nodup_cons.mp hkeys
      rw [List.foldl_cons, ih hkeys, modify, mapValues_mapValues]
      apply mapValues_congr
      intro k' a _
      by_cases hsame : k' = k
      · subst hsame
        simp [hk]
      · simp [hsame]

theorem foldl_modify_keys (f : κ → α → α) (m : ExactMap κ α) :
    m.keys.foldl (fun m k => modify k (f k) m) m = mapValues f m := by
  rw [foldl_modify f m.keys_nodup]
  apply mapValues_congr
  intro k a hk
  rw [if_pos]
  rw [← AList.mem_keys, ← AList.lookup_isSome, hk]
  rfl

end Changes

end ExactMap
