/-!
# Tables that keep the order of insertion

Fields, parameters, fragments, hooks and every registry are tables from names to values whose
order is the order in which the names first came up.  Inserting a name again keeps its place and
replaces its value.

* `Table` — a list of entries with distinct keys.
* `Table.insert`, `Table.ofList` — one entry, and many in order.
* `Table.get?`, `Table.keys`, `Table.contains`, `Table.map` — views and the pointwise image.

The laws describe `insert` through the two views: `get?_insert` and `keys_insert`.
-/

namespace SchemaAccess

universe u v

variable {α : Type u} {β : Type v}

/-! ## Entries -/

namespace Entries

/-- The keys of a list of entries, in order. -/
def keys (entries : List (String × α)) : List String := entries.map Prod.fst

/-- The value of the first entry with a key. -/
def get? (key : String) : List (String × α) → Option α
  | [] => none
  | (k, a) :: rest => if k = key then some a else get? key rest

/-- Replaces the value of the first entry with a key, or adds an entry at the end. -/
def insert (key : String) (a : α) : List (String × α) → List (String × α)
  | [] => [(key, a)]
  | (k, b) :: rest => if k = key then (key, a) :: rest else (k, b) :: insert key a rest

theorem keys_insert (key : String) (a : α) : ∀ entries : List (String × α),
    keys (insert key a entries) =
      if key ∈ keys entries then keys entries else keys entries ++ [key]
  | [] => by simp [insert, keys]
  | (k, b) :: rest => by
      have ih := keys_insert key a rest
      simp only [keys] at ih ⊢
      by_cases h : k = key
      · simp [insert, h]
      · by_cases hm : key ∈ rest.map Prod.fst <;>
          simp [insert, h, ih, hm, Ne.symm h]

theorem get?_insert (key other : String) (a : α) : ∀ entries : List (String × α),
    get? other (insert key a entries) = if key = other then some a else get? other entries
  | [] => by simp [insert, get?]
  | (k, b) :: rest => by
      have ih := get?_insert key other a rest
      by_cases h : k = key
      · subst h; by_cases ho : k = other <;> simp [insert, get?, ho]
      · by_cases ho : k = other
        · subst ho; simp [insert, get?, h, Ne.symm h]
        · simp [insert, get?, h, ho, ih]

theorem get?_eq_none_iff (key : String) : ∀ entries : List (String × α),
    get? key entries = none ↔ key ∉ keys entries
  | [] => by simp [get?, keys]
  | (k, b) :: rest => by
      have ih := get?_eq_none_iff key rest
      simp only [keys] at ih ⊢
      by_cases h : k = key <;> simp [get?, h, ih, eq_comm]
      exact fun _ => Ne.symm h

end Entries

/-! ## Tables -/

/-- Entries with distinct keys, in the order in which the keys were first inserted. -/
structure Table (α : Type u) where
  /-- The entries, in order. -/
  entries : List (String × α)
  /-- No key occurs twice. -/
  nodup_keys : (Entries.keys entries).Nodup

namespace Table

/-- The table without entries. -/
def empty : Table α := ⟨[], List.nodup_nil⟩

instance : Inhabited (Table α) := ⟨empty⟩

/-- The keys, in order. -/
def keys (t : Table α) : List String := Entries.keys t.entries

/-- The values, in the order of their keys. -/
def values (t : Table α) : List α := t.entries.map Prod.snd

/-- The value of a key. -/
def get? (t : Table α) (key : String) : Option α := Entries.get? key t.entries

/-- True if the key has a value. -/
def contains (t : Table α) (key : String) : Bool := t.keys.contains key

/-- Gives a key a value: in place if the key is there, else at the end. -/
def insert (t : Table α) (key : String) (a : α) : Table α where
  entries := Entries.insert key a t.entries
  nodup_keys := by
    rw [Entries.keys_insert]
    split
    · exact t.nodup_keys
    · next h =>
      exact List.nodup_append.2 ⟨t.nodup_keys, by simp,
        fun a ha b hb => by rw [List.mem_singleton.1 hb]; rintro rfl; exact h ha⟩

/-- Inserts entries from left to right. -/
def insertAll (t : Table α) (entries : List (String × α)) : Table α :=
  entries.foldl (fun t entry => t.insert entry.1 entry.2) t

/-- The table of a list of entries: a repeated key keeps its first place and its last value. -/
def ofList (entries : List (String × α)) : Table α := empty.insertAll entries

/-- Gives a key a value unless it has one. -/
def insertNew (t : Table α) (key : String) (a : α) : Table α :=
  if t.contains key then t else t.insert key a

/-- Applies a function to every value. -/
def map (f : α → β) (t : Table α) : Table β where
  entries := t.entries.map fun entry => (entry.1, f entry.2)
  nodup_keys := by simpa [Entries.keys, List.map_map, Function.comp_def] using t.nodup_keys

/-! ## Laws -/

@[ext]
theorem ext {s t : Table α} (h : s.entries = t.entries) : s = t := by
  cases s; cases t; simp_all

@[simp]
theorem keys_empty : (empty : Table α).keys = [] := rfl

@[simp]
theorem get?_empty (key : String) : (empty : Table α).get? key = none := rfl

theorem keys_insert (t : Table α) (key : String) (a : α) :
    (t.insert key a).keys = if key ∈ t.keys then t.keys else t.keys ++ [key] :=
  Entries.keys_insert key a t.entries

theorem get?_insert (t : Table α) (key other : String) (a : α) :
    (t.insert key a).get? other = if key = other then some a else t.get? other :=
  Entries.get?_insert key other a t.entries

theorem get?_eq_none_iff (t : Table α) (key : String) : t.get? key = none ↔ key ∉ t.keys :=
  Entries.get?_eq_none_iff key t.entries

theorem contains_iff (t : Table α) (key : String) : t.contains key = true ↔ key ∈ t.keys := by
  simp [contains]

@[simp]
theorem keys_map (f : α → β) (t : Table α) : (t.map f).keys = t.keys := by
  simp [keys, map, Entries.keys, List.map_map, Function.comp_def]

end Table

end SchemaAccess
