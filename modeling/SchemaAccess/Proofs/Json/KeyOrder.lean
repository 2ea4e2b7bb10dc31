import Mathlib.Tactic.Common
import SchemaAccess.Json.Basic
import SchemaAccess.Proofs.Table.Entries

/-!
# Values with sorted keys

Sorting the keys of a value changes the order of entries and nothing else: each place in the value
is a place in the sorted one, with the same keys in ascending order.

* `Json.Step`, `Json.at?`, `Json.keysAt?` — places in a value, and the keys of the object there.
* `inKeyOrder_filter_key` — sorting keeps the entries of one key in order, so that the first of them
  stays the first.
* `at?_sortKeys`, `keysAt?_sortKeys` — what is at a place when keys are sorted.
* `sortKeys_sortKeys` — keys are sorted once.
-/

namespace SchemaAccess.Json

/-! ## Places

To say that sorting changes nothing but an order, a value is looked at from outside: by the steps
that lead to a place in it, and by the keys of the object that stands there. -/

/-- A step into a value. -/
inductive Step where
  | key (name : String)
  | index (place : Nat)

/-- The value behind a step; of several entries with one key the first counts. -/
def step? : Step → Json → Option Json
  | .key name, .object entries => Entries.get? name entries
  | .index place, .array items => items[place]?
  | _, _ => none

/-- The value behind some steps. -/
def at? : List Step → Json → Option Json
  | [], value => some value
  | step :: path, value => (value.step? step).bind (at? path)

/-- The keys of an object, in order. -/
def keys? : Json → Option (List String)
  | .object entries => some (Entries.keys entries)
  | _ => none

/-- The keys of the object behind some steps, in order. -/
def keysAt? (path : List Step) (value : Json) : Option (List String) :=
  (value.at? path).bind keys?

theorem keysAt?_cons (step : Step) (path : List Step) (value : Json) :
    value.keysAt? (step :: path) = (value.step? step).bind (keysAt? path) := by
  rw [keysAt?, at?, Option.bind_assoc]
  rfl

/-! ## Sorting entries

The sort is stable and compares keys only.  So it is told by two facts: the keys come in ascending
order, and the entries of one key keep theirs. -/

/-- Keys in ascending order, by code points. -/
def ascending (keys : List String) : List String := keys.mergeSort fun a b => decide (a ≤ b)

theorem decide_le_trans (a b c : String) (hab : decide (a ≤ b) = true)
    (hbc : decide (b ≤ c) = true) : decide (a ≤ c) = true :=
  decide_eq_true (String.le_trans (of_decide_eq_true hab) (of_decide_eq_true hbc))

theorem decide_le_total (a b : String) : (decide (a ≤ b) || decide (b ≤ a)) = true := by
  simpa using String.le_total a b

/-- Keys are in ascending order if they were so before, and only then are left as they are. -/
theorem ascending_eq_self_iff {keys : List String} :
    ascending keys = keys ↔ keys.Pairwise (· ≤ ·) := by
  constructor
  · intro h
    have hsorted := List.pairwise_mergeSort decide_le_trans decide_le_total keys
    rw [← ascending, h] at hsorted
    exact hsorted.imp fun hab => of_decide_eq_true hab
  · exact fun h => List.mergeSort_of_pairwise (h.imp fun hab => decide_eq_true hab)

section Sorting

variable {α : Type} (entries : List (String × α))

/-- The keys of sorted entries are the keys, sorted. -/
theorem keys_inKeyOrder : Entries.keys (inKeyOrder entries) = ascending (Entries.keys entries) :=
  List.map_mergeSort fun _ _ _ _ => rfl

/-- Sorting by keys does not look at the values. -/
theorem inKeyOrder_map {β : Type} (f : α → β) :
    inKeyOrder (entries.map fun entry => (entry.1, f entry.2)) =
      (inKeyOrder entries).map fun entry => (entry.1, f entry.2) :=
  (List.map_mergeSort (f := fun entry : String × α => (entry.1, f entry.2))
    fun _ _ _ _ => rfl).symm

/-- Sorted entries stay as they are. -/
theorem inKeyOrder_inKeyOrder : inKeyOrder (inKeyOrder entries) = inKeyOrder entries :=
  List.mergeSort_of_pairwise (List.pairwise_mergeSort (fun a b c => decide_le_trans a.1 b.1 c.1)
    (fun a b => decide_le_total a.1 b.1) entries)

/-- The entries of one key keep their order, since the sort is stable. -/
theorem inKeyOrder_filter_key (key : String) :
    (inKeyOrder entries).filter (fun entry => entry.1 = key) =
      entries.filter fun entry => entry.1 = key := by
  have hsame : (entries.filter fun entry => entry.1 = key).Pairwise
      fun a b => decide (a.1 ≤ b.1) = true := by
    refine List.pairwise_of_forall_mem_list fun a ha b hb => decide_eq_true ?_
    have ha : a.1 = key := of_decide_eq_true (List.mem_filter.1 ha).2
    have hb : b.1 = key := of_decide_eq_true (List.mem_filter.1 hb).2
    simp only [ha, hb, String.le_refl]
  have hstable : (entries.filter fun entry => entry.1 = key).Sublist (inKeyOrder entries) :=
    List.sublist_mergeSort (fun a b c => decide_le_trans a.1 b.1 c.1)
      (fun a b => decide_le_total a.1 b.1) hsame List.filter_sublist
  have hfilter := hstable.filter fun entry => decide (entry.1 = key)
  rw [List.filter_filter] at hfilter
  simp only [Bool.and_self] at hfilter
  exact (hfilter.eq_of_length
    ((List.mergeSort_perm entries _).filter _).length_eq.symm).symm

/-- A key is looked up in the first of its entries. -/
theorem get?_eq_head?_filter (key : String) :
    ∀ entries : List (String × α), Entries.get? key entries =
      (entries.filter fun entry => entry.1 = key).head?.map Prod.snd
  | [] => rfl
  | (k, a) :: rest => by
      rw [Entries.get?, List.filter_cons]
      by_cases hkey : k = key
      · rw [if_pos hkey, if_pos (decide_eq_true hkey)]
        rfl
      · rw [if_neg hkey, if_neg (by simpa using hkey), get?_eq_head?_filter key rest]

/-- **Looking up in sorted entries finds what was found before**, also when a key comes more than
once, by `inKeyOrder_filter_key`. -/
theorem get?_inKeyOrder (key : String) :
    Entries.get? key (inKeyOrder entries) = Entries.get? key entries := by
  rw [get?_eq_head?_filter, get?_eq_head?_filter, inKeyOrder_filter_key]

end Sorting

/-! ## Sorting a value

A value is sorted on every level.  For each step into it the laws say what is behind the step, and
by induction on the steps what is at any place. -/

theorem sortKeysItems_eq_map (items : List Json) : sortKeysItems items = items.map sortKeys := by
  induction items with
  | nil => rw [sortKeysItems, List.map_nil]
  | cons item items ih => rw [sortKeysItems, List.map_cons, ih]

theorem sortKeysEntries_eq_map (entries : List (String × Json)) :
    sortKeysEntries entries = entries.map fun entry => (entry.1, sortKeys entry.2) := by
  induction entries with
  | nil => rw [sortKeysEntries, List.map_nil]
  | cons entry entries ih => rw [sortKeysEntries, List.map_cons, ih]

/-- One step leads to the same value with sorted keys.  An index leads to the same place, as the
items of an array keep their order. -/
theorem step?_sortKeys (step : Step) (value : Json) :
    (sortKeys value).step? step = (value.step? step).map sortKeys := by
  cases value with
  | object entries =>
    cases step with
    | key name =>
      rw [sortKeys, step?, step?, get?_inKeyOrder, sortKeysEntries_eq_map, Entries.get?_map]
    | index place => rw [sortKeys]; rfl
  | array items =>
    cases step with
    | key name => rw [sortKeys]; rfl
    | index place => rw [sortKeys, step?, step?, sortKeysItems_eq_map, List.getElem?_map]
  | _ => cases step <;> rfl

/-- **Behind the same steps stands the same value with sorted keys**, so that nothing is lost and
nothing moves from one object to another. -/
theorem at?_sortKeys (path : List Step) (value : Json) :
    (sortKeys value).at? path = (value.at? path).map sortKeys := by
  induction path generalizing value with
  | nil => rfl
  | cons step path ih =>
    rw [at?, at?, step?_sortKeys]
    cases value.step? step with
    | none => rfl
    | some inner => exact ih inner

/-- The keys of a sorted object are its keys in ascending order. -/
theorem keys?_sortKeys (value : Json) : (sortKeys value).keys? = value.keys?.map ascending := by
  cases value with
  | object entries =>
    rw [sortKeys, keys?, keys?, keys_inKeyOrder, sortKeysEntries_eq_map, Entries.keys,
      List.map_map]
    rfl
  | array items => rw [sortKeys]; rfl
  | _ => rfl

/-- Behind the same steps stand the same keys in ascending order. -/
theorem keysAt?_sortKeys (path : List Step) (value : Json) :
    (sortKeys value).keysAt? path = (value.keysAt? path).map ascending := by
  rw [keysAt?, keysAt?, at?_sortKeys]
  cases value.at? path with
  | none => rfl
  | some inner => exact keys?_sortKeys inner

mutual

/-- Sorting the keys of a value with sorted keys changes nothing.  The induction goes through the
value, its items and its entries together. -/
theorem sortKeys_sortKeys : ∀ value : Json, sortKeys (sortKeys value) = sortKeys value
  | .null | .bool _ | .number _ | .string _ => rfl
  | .array items => by
      rw [sortKeys, sortKeys, sortKeysItems_sortKeysItems items]
  | .object entries => by
      have hentries := sortKeysEntries_sortKeysEntries entries
      rw [sortKeysEntries_eq_map (sortKeysEntries entries)] at hentries
      rw [sortKeys, sortKeys, sortKeysEntries_eq_map (inKeyOrder _), ← inKeyOrder_map, hentries,
        inKeyOrder_inKeyOrder]

theorem sortKeysItems_sortKeysItems :
    ∀ items : List Json, sortKeysItems (sortKeysItems items) = sortKeysItems items
  | [] => rfl
  | item :: items => by
      rw [sortKeysItems, sortKeysItems, sortKeys_sortKeys item, sortKeysItems_sortKeysItems items]

theorem sortKeysEntries_sortKeysEntries :
    ∀ entries : List (String × Json),
      sortKeysEntries (sortKeysEntries entries) = sortKeysEntries entries
  | [] => rfl
  | (key, value) :: entries => by
      rw [sortKeysEntries, sortKeysEntries, sortKeys_sortKeys value,
        sortKeysEntries_sortKeysEntries entries]

end

end SchemaAccess.Json
