import Mathlib.Data.List.Nodup
import RoleMining.Ledger

/-!
# Entries and values of a ledger

Since keys are distinct, an entry of a ledger and the value found under its key are the same thing.
A ledger is told by its keys, in their order, and the value under each; so entering one ledger after
another is an associative operation, and the empty ledger changes nothing.
-/
namespace RoleMining

variable {α β : Type} [DecidableEq α]

theorem mem_of_valueAt {key : α} {value : β} {entries : List (α × β)}
    (h : valueAt key entries = some value) : (key, value) ∈ entries := by
  induction entries with
  | nil => cases h
  | cons entry rest ih =>
    obtain ⟨k, v⟩ := entry
    rw [valueAt] at h
    split_ifs at h with hk
    · cases h
      exact hk ▸ List.mem_cons_self
    · exact List.mem_cons_of_mem _ (ih h)

theorem valueAt_of_mem {key : α} {value : β} {entries : List (α × β)}
    (hnodup : (entries.map Prod.fst).Nodup) (h : (key, value) ∈ entries) :
    valueAt key entries = some value := by
  induction entries with
  | nil => cases h
  | cons entry rest ih =>
    obtain ⟨k, v⟩ := entry
    rw [List.map_cons, List.nodup_cons] at hnodup
    rw [valueAt]
    rcases List.mem_cons.1 h with he | hrest
    · cases he
      exact if_pos rfl
    · have hkey : key ∈ rest.map Prod.fst := List.mem_map_of_mem (f := Prod.fst) hrest
      rw [if_neg fun he : k = key => hnodup.1 (he ▸ hkey), ih hnodup.2 hrest]

namespace Ledger

variable {l l' : Ledger α β} {key : α} {value : β}

theorem mem_entries_iff : (key, value) ∈ l.entries ↔ l.find? key = some value :=
  ⟨valueAt_of_mem l.nodup, mem_of_valueAt⟩

theorem mem_keys_iff : key ∈ l.keys ↔ ∃ value, l.find? key = some value := by
  rw [← contains_iff, contains, Option.isSome_iff_exists]

theorem find?_eq_none_iff : l.find? key = none ↔ key ∉ l.keys := by
  rw [← contains_iff, contains, Bool.not_eq_true, Option.isSome_eq_false_iff,
    Option.isNone_iff_eq_none]

theorem values_eq_map {f : α → β} (h : ∀ key value, l.find? key = some value → value = f key) :
    l.values = l.keys.map f := by
  rw [values, keys, List.map_map]
  refine List.map_congr_left fun entry hentry => ?_
  exact h entry.1 entry.2 (mem_entries_iff.1 hentry)

theorem find?_foldl_record (entries : List (α × β)) (l : Ledger α β) (key : α) :
    (entries.foldl (fun l entry => l.record entry.1 entry.2) l).find? key =
      (valueAt key entries.reverse).or (l.find? key) := by
  induction entries generalizing l with
  | nil => simp [valueAt]
  | cons entry entries ih =>
    obtain ⟨k, v⟩ := entry
    rw [List.foldl_cons, ih, find?_record, List.reverse_cons, valueAt_append, Option.or_assoc]
    congr 1
    by_cases hk : k = key
    · simp [valueAt, hk]
    · simp [valueAt, hk, Ne.symm hk]

/-- Entries that are only entered when they are new leave the first value of each key. -/
theorem find?_foldl_recordNew (entries : List (α × β)) (l : Ledger α β) (key : α) :
    (entries.foldl (fun l entry => l.recordNew entry.1 entry.2) l).find? key =
      (l.find? key).or (valueAt key entries) := by
  induction entries generalizing l with
  | nil => simp [valueAt]
  | cons entry entries ih =>
    obtain ⟨k, v⟩ := entry
    rw [List.foldl_cons, ih, find?_recordNew, valueAt]
    by_cases hk : key = k
    · subst hk
      cases h : l.find? key <;> simp
    · simp [hk, Ne.symm hk]

theorem find?_ofList (entries : List (α × β)) (key : α) :
    (ofList entries).find? key = valueAt key entries.reverse := by
  rw [ofList, find?_foldl_record, find?_empty, Option.or_none]

/-- When no key is entered twice, the entries are found as they are. -/
theorem find?_ofList_eq_some_iff {entries : List (α × β)} (hkeys : (entries.map Prod.fst).Nodup)
    {key : α} {value : β} : (ofList entries).find? key = some value ↔ (key, value) ∈ entries := by
  have hnodup : (entries.reverse.map Prod.fst).Nodup := by
    rwa [List.map_reverse, List.nodup_reverse]
  rw [find?_ofList, ← List.mem_reverse]
  exact ⟨mem_of_valueAt, valueAt_of_mem hnodup⟩

/-- Then the order in which they are entered does not matter either. -/
theorem find?_ofList_of_perm {entries entries' : List (α × β)}
    (hkeys : (entries.map Prod.fst).Nodup) (h : entries.Perm entries') :
    (ofList entries).find? = (ofList entries').find? := by
  funext key
  refine Option.ext fun value => ?_
  rw [find?_ofList_eq_some_iff hkeys, find?_ofList_eq_some_iff ((h.map _).nodup_iff.1 hkeys),
    h.mem_iff]

theorem find?_ofList_map {f : α → β} {keys : List α} {key : α} (h : key ∈ keys) :
    (ofList (keys.map fun k => (k, f k))).find? key = some (f key) := by
  rw [find?_ofList]
  cases hfind : valueAt key (keys.map fun k => (k, f k)).reverse with
  | none =>
    rw [valueAt_eq_none_iff] at hfind
    exact absurd h (by simpa using hfind)
  | some value =>
    have hmem := List.mem_reverse.1 (mem_of_valueAt hfind)
    obtain ⟨k, -, he⟩ := List.mem_map.1 hmem
    obtain ⟨rfl, rfl⟩ := Prod.mk.inj he
    rfl

theorem find?_update (l other : Ledger α β) (key : α) :
    (l.update other).find? key = (other.find? key).or (l.find? key) := by
  rw [update, find?_foldl_record]
  congr 1
  have hnodup : (other.entries.reverse.map Prod.fst).Nodup := by
    rw [List.map_reverse, List.nodup_reverse]
    exact other.nodup
  refine Option.ext fun value => ?_
  rw [← mem_entries_iff, ← List.mem_reverse]
  exact ⟨mem_of_valueAt, valueAt_of_mem hnodup⟩

theorem find?_filter (keep : α → β → Bool) (l : Ledger α β) (key : α) :
    (l.filter keep).find? key = (l.find? key).filter (keep key) := by
  refine Option.ext fun value => ?_
  rw [← mem_entries_iff, filter, List.mem_filter, mem_entries_iff, Option.filter_eq_some_iff]

theorem find?_foldl_update_of_absent {maps : List (Ledger α β)} (l : Ledger α β) {key : α}
    (h : ∀ m ∈ maps, key ∉ m.keys) : (maps.foldl update l).find? key = l.find? key := by
  induction maps generalizing l with
  | nil => rfl
  | cons m maps ih =>
    rw [List.foldl_cons, ih _ fun m' hm' => h m' (List.mem_cons_of_mem _ hm'), find?_update,
      find?_eq_none_iff.2 (h m List.mem_cons_self), Option.none_or]

/-- Ledgers that agree wherever they know a key add up to all that they know. -/
theorem find?_foldl_update {f : α → β} {maps : List (Ledger α β)} (l : Ledger α β) {key : α}
    (hagree : ∀ m ∈ maps, ∀ value, m.find? key = some value → value = f key)
    (hknown : ∃ m ∈ maps, key ∈ m.keys) : (maps.foldl update l).find? key = some (f key) := by
  induction maps generalizing l with
  | nil => simp at hknown
  | cons m maps ih =>
    rw [List.foldl_cons]
    by_cases hlater : ∃ m' ∈ maps, key ∈ m'.keys
    · exact ih _ (fun m' hm' => hagree m' (List.mem_cons_of_mem _ hm')) hlater
    · have habsent : ∀ m' ∈ maps, key ∉ m'.keys := fun m' hm' hkey => hlater ⟨m', hm', hkey⟩
      obtain ⟨m', hm', hkey⟩ := hknown
      rcases List.mem_cons.1 hm' with rfl | hm'
      · obtain ⟨value, hvalue⟩ := mem_keys_iff.1 hkey
        rw [find?_foldl_update_of_absent _ habsent, find?_update, hvalue, Option.some_or,
          hagree m' List.mem_cons_self value hvalue]
      · exact absurd hkey (habsent m' hm')

/-! ### Keys in their order -/

theorem keys_record (l : Ledger α β) (key : α) (value : β) :
    (l.record key value).keys = if key ∈ l.keys then l.keys else l.keys ++ [key] := by
  unfold record
  split
  next known =>
    rw [if_pos (contains_iff.1 known)]
    exact keys_replaceAt key value l.entries
  next unknown =>
    rw [if_neg (mt contains_iff.2 unknown)]
    exact List.map_append

/-- Keys that are new come behind the others, in their order. -/
theorem keys_update (l other : Ledger α β) :
    (l.update other).keys = l.keys ++ other.keys.filter (· ∉ l.keys) := by
  have hfold (entries : List (α × β)) (hnodup : (entries.map Prod.fst).Nodup) (l : Ledger α β) :
      (entries.foldl (fun l entry => l.record entry.1 entry.2) l).keys =
        l.keys ++ (entries.map Prod.fst).filter (· ∉ l.keys) := by
    induction entries generalizing l with
    | nil => simp
    | cons entry entries ih =>
      rw [List.map_cons, List.nodup_cons] at hnodup
      rw [List.foldl_cons, ih hnodup.2, keys_record, List.map_cons]
      split_ifs with hknown
      · rw [List.filter_cons_of_neg (by simpa using hknown)]
      · rw [List.filter_cons_of_pos (by simpa using hknown), List.append_assoc,
          List.singleton_append]
        congr 2
        refine List.filter_congr fun key hkey => ?_
        have hne : key ≠ entry.1 := fun he => hnodup.1 (he ▸ hkey)
        simp [hne]
  exact hfold other.entries other.nodup l

omit [DecidableEq α] in
theorem eq_of_entries (h : l.entries = l'.entries) : l = l' := by
  cases l
  cases l'
  cases h
  rfl

/-- A ledger is told by its keys and the value of each. -/
theorem eq_of_keys_of_find? (hkeys : l.keys = l'.keys) (hfind : l.find? = l'.find?) : l = l' := by
  have hentries (l : Ledger α β) :
      l.entries.map some = l.keys.map fun key => (l.find? key).map (Prod.mk key) := by
    rw [keys, List.map_map]
    refine List.map_congr_left fun entry hentry => ?_
    have hvalue : l.find? entry.1 = some entry.2 := mem_entries_iff.1 hentry
    simp [hvalue]
  have hsome : l.entries.map some = l'.entries.map some := by
    rw [hentries, hentries, hkeys, hfind]
  exact eq_of_entries (List.map_injective_iff.2 (fun _ _ => Option.some.inj) hsome)

theorem empty_update (l : Ledger α β) : empty.update l = l := by
  refine eq_of_keys_of_find? ?_ (funext fun key => ?_)
  · rw [keys_update]
    simp [keys, empty]
  · rw [find?_update, find?_empty, Option.or_none]

theorem ofList_entries (l : Ledger α β) : ofList l.entries = l := empty_update l

theorem entries_ofList {entries : List (α × β)} (h : (entries.map Prod.fst).Nodup) :
    (ofList entries).entries = entries :=
  congrArg Ledger.entries (ofList_entries ⟨entries, h⟩)

/-- A ledger that knows the same keys in the same order takes the place of another. -/
theorem update_of_keys {l other : Ledger α β} (h : l.keys = other.keys) :
    l.update other = other := by
  refine eq_of_keys_of_find? ?_ (funext fun key => ?_)
  · rw [keys_update, h, List.filter_eq_nil_iff.2, List.append_nil]
    simp
  · rw [find?_update]
    cases hother : other.find? key with
    | some value => rfl
    | none => rw [Option.none_or, find?_eq_none_iff, h, ← find?_eq_none_iff, hother]

theorem update_assoc (l l' l'' : Ledger α β) :
    (l.update l').update l'' = l.update (l'.update l'') := by
  refine eq_of_keys_of_find? ?_ (funext fun key => ?_)
  · simp only [keys_update, List.filter_append, List.filter_filter, List.append_assoc]
    congr 2
    refine List.filter_congr fun key _ => ?_
    by_cases hkey : key ∈ l.keys <;> simp [hkey]
  · simp only [find?_update, Option.or_assoc]

end Ledger
end RoleMining
