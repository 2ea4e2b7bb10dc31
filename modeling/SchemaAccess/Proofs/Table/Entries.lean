import Mathlib.Data.List.Nodup
import Mathlib.Data.List.Perm.Basic
import SchemaAccess.Table.Basic

/-!
# Entries and tables

What is found among entries, and what many insertions make of a table.

* `Entries.get?_append`, `Entries.get?_filter`, `Entries.get?_of_perm` — looking up in entries that
  are joined, in a part of them, and in another order of them.
* `Table.get?_map` — looking up in a pointwise image.
* `Table.keys_insertAll`, `Table.get?_insertAll` — keys take the places of their first entries and
  the values of their last.
* `Table.entries_insertAll` — entries with distinct new keys come behind those that are there.
* `Table.Inserts`, `Table.inserts_iff` — what many insertions make of a table, said by its keys and
  by what is looked up in it.
-/

namespace SchemaAccess

/-! ## Looking up

A key is looked up in the first of its entries.  With distinct keys there is no other, so it does
not matter where the entry stands. -/

namespace Entries

variable {α : Type}

/-- Joined entries are searched one list after the other. -/
theorem get?_append (key : String) (others : List (String × α)) :
    ∀ entries : List (String × α),
      get? key (entries ++ others) = (get? key entries).or (get? key others)
  | [] => rfl
  | (k, a) :: rest => by
      rw [List.cons_append, get?, get?]
      split
      · rfl
      · exact get?_append key others rest

/-- Among entries with distinct keys, each entry is found. -/
theorem get?_of_mem {key : String} {a : α} :
    ∀ {entries : List (String × α)}, (keys entries).Nodup → (key, a) ∈ entries →
      get? key entries = some a
  | (k, b) :: rest, hnodup, hmem => by
      obtain ⟨hk, hrest⟩ := List.nodup_cons.1 hnodup
      rcases List.mem_cons.1 hmem with heq | hmem
      · obtain ⟨rfl, rfl⟩ := Prod.mk.inj heq
        rw [get?, if_pos rfl]
      · have hkey : key ∈ keys rest := List.mem_map_of_mem (f := Prod.fst) hmem
        have hne : k ≠ key := fun heq => hk (heq ▸ hkey)
        rw [get?, if_neg hne, get?_of_mem hrest hmem]

/-- What is found is there, with its key. -/
theorem mem_of_get? {key : String} {a : α} :
    ∀ {entries : List (String × α)}, get? key entries = some a → (key, a) ∈ entries
  | (k, b) :: rest, h => by
      rw [get?] at h
      split at h
      · next hk =>
        rw [hk, Option.some.inj h]
        exact List.mem_cons_self
      · exact List.mem_cons_of_mem _ (mem_of_get? h)

/-- **Entries with distinct keys tell the same in any order**, since what is found is there, and
what is there is found. -/
theorem get?_of_perm {entries others : List (String × α)} (h : entries.Perm others)
    (hnodup : (keys entries).Nodup) (key : String) : get? key entries = get? key others := by
  have hothers : (keys others).Nodup := (h.map Prod.fst).nodup_iff.1 hnodup
  refine Option.ext fun a => ⟨fun ha => ?_, fun ha => ?_⟩
  · exact get?_of_mem hothers (h.mem_iff.1 (mem_of_get? ha))
  · exact get?_of_mem hnodup (h.mem_iff.2 (mem_of_get? ha))

/-- In a part of entries with distinct keys that is chosen by the values, a key has its value or
none. -/
theorem get?_filter (p : α → Bool) (key : String) :
    ∀ {entries : List (String × α)}, (keys entries).Nodup →
      get? key (entries.filter fun entry => p entry.2) = (get? key entries).filter p
  | [], _ => rfl
  | (k, a) :: rest, h => by
      obtain ⟨hk, hrest⟩ := List.nodup_cons.1 h
      have ih := get?_filter p key hrest
      cases ha : p a with
      | true =>
        simp only [List.filter_cons, ha, if_true, get?, ih]
        split
        · rw [Option.filter_some, if_pos ha]
        · rfl
      | false =>
        simp only [List.filter_cons, ha, Bool.false_eq_true, if_false, get?, ih]
        split
        · next hkey =>
          rw [← hkey, (get?_eq_none_iff k rest).2 hk, Option.filter_some, ha]
          rfl
        · rfl

/-- The value of a key in a pointwise image. -/
theorem get?_map {β : Type} (f : α → β) (key : String) : ∀ entries : List (String × α),
    get? key (entries.map fun entry => (entry.1, f entry.2)) = (get? key entries).map f
  | [] => rfl
  | (k, a) :: rest => by
      rw [List.map_cons, get?, get?]
      split
      · rfl
      · exact get?_map f key rest

/-- The value of a key among entries whose values depend on their keys. -/
theorem get?_map_key (f : String → α) (key : String) : ∀ names : List String,
    get? key (names.map fun name => (name, f name)) = if key ∈ names then some (f key) else none
  | [] => rfl
  | name :: names => by
      rw [List.map_cons, get?, get?_map_key f key names]
      by_cases h : name = key
      · simp [h]
      · simp [h, Ne.symm h]

theorem get?_eq_map_find? (key : String) : ∀ entries : List (String × α),
    get? key entries = (entries.find? fun entry => entry.1 = key).map Prod.snd
  | [] => rfl
  | (k, a) :: rest => by
      rw [get?, get?_eq_map_find? key rest]
      by_cases h : k = key <;> simp [h]

/-- **Entries with distinct keys are told by their keys and by what is looked up in them.**  The
keys fix how many entries there are and in which order, and looking up each key then finds its
value. -/
theorem ext_get? : ∀ {entries others : List (String × α)}, keys entries = keys others →
    (keys entries).Nodup → (∀ key, get? key entries = get? key others) → entries = others
  | [], [], _, _, _ => rfl
  | [], (_, _) :: _, hkeys, _, _ => by cases hkeys
  | (_, _) :: _, [], hkeys, _, _ => by cases hkeys
  | (k, a) :: entries, (k', b) :: others, hkeys, hnodup, hget => by
      obtain ⟨hsame, hrest⟩ : k = k' ∧ keys entries = keys others := List.cons.inj hkeys
      obtain ⟨hk, hnodup⟩ : k ∉ keys entries ∧ (keys entries).Nodup := List.nodup_cons.1 hnodup
      subst hsame
      have hvalue : some a = some b := by
        have hfirst := hget k
        rwa [get?, get?, if_pos rfl, if_pos rfl] at hfirst
      -- The first key is looked up nowhere behind the first entry.
      have hbehind : ∀ key, get? key entries = get? key others := by
        intro key
        by_cases hkey : k = key
        · subst hkey
          rw [(get?_eq_none_iff k entries).2 hk, (get?_eq_none_iff k others).2 (hrest ▸ hk)]
        · have hlater := hget key
          rwa [get?, get?, if_neg hkey, if_neg hkey] at hlater
      rw [Option.some.inj hvalue, ext_get? hrest hnodup hbehind]

/-! ## Inserting

An insertion replaces the value of a key that is there, and puts any other key at the end. -/

theorem mem_insert {key : String} {a : α} {entry : String × α} :
    ∀ {entries : List (String × α)}, entry ∈ insert key a entries →
      entry = (key, a) ∨ entry ∈ entries
  | [], h => by
      rw [insert, List.mem_singleton] at h
      exact Or.inl h
  | (k, b) :: rest, h => by
      rw [insert] at h
      split at h
      · exact (List.mem_cons.1 h).imp_right (List.mem_cons_of_mem _)
      · rcases List.mem_cons.1 h with rfl | h
        · exact Or.inr List.mem_cons_self
        · exact (mem_insert h).imp_right (List.mem_cons_of_mem _)

/-- A new key comes behind those that are there. -/
theorem insert_of_not_mem {key : String} (a : α) : ∀ {entries : List (String × α)},
    key ∉ Entries.keys entries → Entries.insert key a entries = entries ++ [(key, a)]
  | [], _ => rfl
  | (other, b) :: entries, h => by
      rw [Entries.keys, List.map_cons, List.mem_cons, not_or] at h
      rw [Entries.insert, if_neg (Ne.symm h.1), Entries.insert_of_not_mem a h.2, List.cons_append]

end Entries

/-! ## Pointwise images -/

namespace Table

variable {α : Type}

theorem get?_map {β : Type} (f : α → β) (table : Table α) (key : String) :
    (table.map f).get? key = (table.get? key).map f :=
  Entries.get?_map f key table.entries

theorem map_map {β γ : Type} (f : α → β) (g : β → γ) (table : Table α) :
    (table.map f).map g = table.map fun a => g (f a) :=
  Table.ext (List.map_map (l := table.entries))

/-! ## Many insertions

Insertions one after the other are told by the two things that can be asked of a table: its keys, in
order, and the value of each. -/

theorem eraseDups_eq_self {l : List String} (h : l.Nodup) : l.eraseDups = l := by
  induction l with
  | nil => rfl
  | cons a l ih =>
    obtain ⟨ha, hl⟩ := List.nodup_cons.1 h
    have hfilter : (l.filter fun b => !b == a) = l :=
      List.filter_eq_self.2 fun b hb => by
        simp only [Bool.not_eq_true', beq_eq_false_iff_ne]
        rintro rfl
        exact ha hb
    rw [List.eraseDups_cons, hfilter, ih hl]

/-- A second occurrence is erased, wherever it stands. -/
theorem eraseDups_append_cons_of_mem {seen rest : List String} {a : String} (h : a ∈ seen) :
    (seen ++ a :: rest).eraseDups = (seen ++ rest).eraseDups := by
  have hremove : (a :: rest).removeAll seen = rest.removeAll seen := by
    simp [List.removeAll, h]
  rw [List.eraseDups_append, List.eraseDups_append, hremove]

theorem insertAll_cons (t : Table α) (key : String) (a : α) (entries : List (String × α)) :
    t.insertAll ((key, a) :: entries) = (t.insert key a).insertAll entries := rfl

/-- **Keys take the places of their first entries, behind those that are there.**  By induction on
the entries: a key that is there already keeps its place, and erasing a second occurrence says the
same. -/
theorem keys_insertAll : ∀ (entries : List (String × α)) (t : Table α),
    (t.insertAll entries).keys = (t.keys ++ Entries.keys entries).eraseDups
  | [], t => by
      have hkeys : t.keys.eraseDups = t.keys := eraseDups_eq_self t.nodup_keys
      rw [Entries.keys, List.map_nil, List.append_nil, hkeys]
      rfl
  | (key, a) :: entries, t => by
      rw [insertAll_cons, keys_insertAll entries, keys_insert, Entries.keys, Entries.keys,
        List.map_cons]
      split
      · next h => rw [eraseDups_append_cons_of_mem h]
      · rw [List.append_assoc, List.singleton_append]

/-- **Keys have the values of their last entries, or those that they had.**  So the entries are
looked up from behind. -/
theorem get?_insertAll (key : String) : ∀ (entries : List (String × α)) (t : Table α),
    (t.insertAll entries).get? key = (Entries.get? key entries.reverse).or (t.get? key)
  | [], _ => rfl
  | (k, a) :: entries, t => by
      have hlast : Entries.get? key [(k, a)] = if k = key then some a else none := rfl
      rw [insertAll_cons, get?_insertAll key entries, get?_insert, List.reverse_cons,
        Entries.get?_append, hlast, Option.or_assoc]
      split <;> rfl

/-- **What inserting entries makes of a table**, where the entries have distinct keys.  Neither the
order of the insertions nor how one of them is done has a part in this: it is said by the keys of
the two tables and by what is looked up in them. -/
structure Inserts (entries : List (String × α)) (before after : Table α) : Prop where
  /-- Keys that are there keep their places, and new ones come behind them, in order. -/
  keys : after.keys = before.keys ++ (Entries.keys entries).filter (· ∉ before.keys)
  /-- An inserted key has the value that is inserted, any other key the value that it had. -/
  get? : ∀ key, after.get? key = (Entries.get? key entries).or (before.get? key)

/-- Entries that are inserted one after the other are inserted as the relation says. -/
theorem inserts_insertAll {entries : List (String × α)} (h : (Entries.keys entries).Nodup)
    (table : Table α) : Inserts entries table (table.insertAll entries) where
  keys := by
    have hnew : (Entries.keys entries).removeAll table.keys =
        (Entries.keys entries).filter (· ∉ table.keys) :=
      List.filter_congr fun key _ => by simp
    have hkeys : table.keys.eraseDups = table.keys := eraseDups_eq_self table.nodup_keys
    rw [keys_insertAll, List.eraseDups_append, hkeys, hnew, eraseDups_eq_self (h.filter _)]
  get? key := by
    have hreverse : (Entries.keys entries.reverse).Nodup := by
      rw [Entries.keys, List.map_reverse]
      exact List.nodup_reverse.2 h
    rw [get?_insertAll, Entries.get?_of_perm (List.reverse_perm entries) hreverse]

/-- **The relation leaves no choice.**  A table is told by its keys and by what is looked up in it,
`Entries.ext_get?`, so there is one table that has the entries put in, and `insertAll` makes it. -/
theorem inserts_iff {entries : List (String × α)} (h : (Entries.keys entries).Nodup)
    {before after : Table α} : Inserts entries before after ↔ after = before.insertAll entries := by
  have hinserts := inserts_insertAll h before
  constructor
  · intro hafter
    refine Table.ext (Entries.ext_get? (hafter.keys.trans hinserts.keys.symm) after.nodup_keys ?_)
    exact fun key => (hafter.get? key).trans (hinserts.get? key).symm
  · rintro rfl
    exact hinserts

theorem keys_ofList (entries : List (String × α)) :
    (Table.ofList entries).keys = (Entries.keys entries).eraseDups :=
  keys_insertAll entries empty

/-- A key has the value of its last entry. -/
theorem get?_ofList (entries : List (String × α)) (key : String) :
    (Table.ofList entries).get? key = Entries.get? key entries.reverse := by
  rw [ofList, get?_insertAll, get?_empty, Option.or_none]

/-- Entries with distinct new keys come behind those that are there: no place is taken and no value
is replaced. -/
theorem entries_insertAll : ∀ {entries : List (String × α)} (table : Table α),
    (table.keys ++ Entries.keys entries).Nodup →
      (table.insertAll entries).entries = table.entries ++ entries
  | [], table, _ => (List.append_nil _).symm
  | (key, a) :: entries, table, h => by
      have hnew : key ∉ table.keys := fun hkey =>
        (List.nodup_append.1 h).2.2 key hkey key List.mem_cons_self rfl
      have hkeys : (table.insert key a).keys = table.keys ++ [key] := by
        rw [Table.keys_insert, if_neg hnew]
      rw [insertAll_cons, entries_insertAll]
      · show Entries.insert key a table.entries ++ entries = _
        rw [Entries.insert_of_not_mem a hnew, List.append_assoc, List.singleton_append]
      · rw [hkeys, List.append_assoc]
        exact h

/-- The table of entries with distinct keys has these entries. -/
theorem entries_ofList {entries : List (String × α)} (h : (Entries.keys entries).Nodup) :
    (Table.ofList entries).entries = entries :=
  entries_insertAll Table.empty h

/-- Entries with distinct keys in another order make up a table in another order. -/
theorem entries_ofList_perm {entries others : List (String × α)} (h : entries.Perm others)
    (hnodup : (Entries.keys entries).Nodup) :
    (Table.ofList entries).entries.Perm (Table.ofList others).entries := by
  rwa [entries_ofList hnodup, entries_ofList ((h.map Prod.fst).nodup_iff.1 hnodup)]

end Table

end SchemaAccess
