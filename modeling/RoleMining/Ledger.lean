/-!
# Ledgers

A ledger is a finite map that remembers the order in which its keys were first entered. Entering a
key again replaces its value and keeps its place.
-/
namespace RoleMining

variable {α β : Type} [DecidableEq α]

/-- The value of the first entry with a key. -/
def valueAt (key : α) : List (α × β) → Option β
  | [] => none
  | (k, v) :: rest => if k = key then some v else valueAt key rest

/-- The entries with the value at a key replaced. -/
def replaceAt (key : α) (value : β) : List (α × β) → List (α × β)
  | [] => []
  | (k, v) :: rest => (k, if k = key then value else v) :: replaceAt key value rest

theorem valueAt_eq_none_iff {key : α} {entries : List (α × β)} :
    valueAt key entries = none ↔ key ∉ entries.map Prod.fst := by
  induction entries with
  | nil => simp [valueAt]
  | cons entry rest ih =>
    obtain ⟨k, v⟩ := entry
    by_cases h : k = key
    · simp [valueAt, h]
    · simp [valueAt, h, ih, Ne.symm h]

theorem valueAt_append (key : α) (xs ys : List (α × β)) :
    valueAt key (xs ++ ys) = (valueAt key xs).or (valueAt key ys) := by
  induction xs with
  | nil => simp [valueAt]
  | cons entry rest ih =>
    by_cases h : entry.1 = key <;> simp [valueAt, h, ih]

@[simp] theorem keys_replaceAt (key : α) (value : β) (entries : List (α × β)) :
    (replaceAt key value entries).map Prod.fst = entries.map Prod.fst := by
  induction entries with
  | nil => rfl
  | cons entry rest ih => simp [replaceAt, ih]

theorem valueAt_replaceAt (key other : α) (value : β) (entries : List (α × β)) :
    valueAt other (replaceAt key value entries) =
      if other = key then (valueAt other entries).map fun _ => value
      else valueAt other entries := by
  induction entries with
  | nil => simp [replaceAt, valueAt]
  | cons entry rest ih =>
    obtain ⟨k, v⟩ := entry
    by_cases h : k = other
    · subst h
      by_cases hk : k = key <;> simp [replaceAt, valueAt, hk]
    · simp [replaceAt, valueAt, h, ih]

structure Ledger (α β : Type) where
  entries : List (α × β)
  nodup : (entries.map Prod.fst).Nodup

namespace Ledger

def empty : Ledger α β := ⟨[], List.nodup_nil⟩

instance : Inhabited (Ledger α β) := ⟨empty⟩

def keys (l : Ledger α β) : List α := l.entries.map Prod.fst

def values (l : Ledger α β) : List β := l.entries.map Prod.snd

def size (l : Ledger α β) : Nat := l.entries.length

def find? (l : Ledger α β) (key : α) : Option β := valueAt key l.entries

def contains (l : Ledger α β) (key : α) : Bool := (l.find? key).isSome

theorem contains_iff {l : Ledger α β} {key : α} : l.contains key = true ↔ key ∈ l.keys := by
  have absent : valueAt key l.entries = none ↔ key ∉ l.entries.map Prod.fst :=
    valueAt_eq_none_iff
  simp only [contains, find?, keys, Option.isSome_iff_ne_none, ne_eq, absent, Decidable.not_not]

omit [DecidableEq α] in
theorem nodup_push {keys : List α} {key : α} (nodup : keys.Nodup) (fresh : key ∉ keys) :
    (keys ++ [key]).Nodup := by
  rw [List.nodup_append]
  refine ⟨nodup, by simp, ?_⟩
  rintro a ha b hb rfl
  exact fresh (List.mem_singleton.1 hb ▸ ha)

/-- Enter a value under a key; a key that is there keeps its place. -/
def record (l : Ledger α β) (key : α) (value : β) : Ledger α β :=
  if known : l.contains key = true then
    ⟨replaceAt key value l.entries, by rw [keys_replaceAt]; exact l.nodup⟩
  else
    ⟨l.entries ++ [(key, value)], by
      rw [List.map_append]
      exact nodup_push l.nodup fun member => known (contains_iff.2 member)⟩

/-- Enter a value under a key that is not there yet; otherwise nothing changes. -/
def recordNew (l : Ledger α β) (key : α) (value : β) : Ledger α β :=
  if l.contains key then l else l.record key value

@[simp] theorem find?_empty (key : α) : (empty : Ledger α β).find? key = none := rfl

theorem find?_record (l : Ledger α β) (key other : α) (value : β) :
    (l.record key value).find? other = if other = key then some value else l.find? other := by
  unfold record
  split
  next known =>
    obtain ⟨v, hv⟩ := Option.isSome_iff_exists.1 known
    have hv : valueAt key l.entries = some v := hv
    by_cases same : other = key <;> simp [find?, valueAt_replaceAt, same, hv]
  next unknown =>
    have absent : valueAt key l.entries = none := by
      simpa [contains, find?] using unknown
    by_cases same : other = key
    · simp [find?, valueAt_append, same, absent, valueAt]
    · simp [find?, valueAt_append, same, valueAt, Ne.symm same]

theorem find?_recordNew (l : Ledger α β) (key other : α) (value : β) :
    (l.recordNew key value).find? other =
      if other = key then some ((l.find? key).getD value) else l.find? other := by
  unfold recordNew
  split
  next known =>
    obtain ⟨v, hv⟩ := Option.isSome_iff_exists.1 known
    by_cases same : other = key <;> simp [same, hv]
  next unknown =>
    have absent : l.find? key = none := by simpa [contains] using unknown
    by_cases same : other = key <;> simp [find?_record, same, absent]

/-- Later values win, first places stay. -/
def ofList (entries : List (α × β)) : Ledger α β :=
  entries.foldl (fun l entry => l.record entry.1 entry.2) empty

/-- The first ledger with every entry of the second recorded on it. -/
def update (l other : Ledger α β) : Ledger α β :=
  other.entries.foldl (fun l entry => l.record entry.1 entry.2) l

/-- Entries whose key and value pass a test. -/
def filter (keep : α → β → Bool) (l : Ledger α β) : Ledger α β :=
  ⟨l.entries.filter fun entry => keep entry.1 entry.2,
    (List.filter_sublist.map Prod.fst).nodup l.nodup⟩

def erase (l : Ledger α β) (key : α) : Ledger α β :=
  l.filter fun other _ => other != key

end Ledger
end RoleMining
