import SchemaAccess.Proofs.Json.Reading
import SchemaAccess.Proofs.Table.Entries
import SchemaAccess.Selection.Json

/-!
# Selections in override documents

A selection is written as an array of strings and objects, and it is the shape of each value alone
that says whether it is a field or a nested entry.  This file says that a selection is read back
from its document with its keys in order, and that the two forms are told apart by the first
character.

* `Json.nesting` — how many brackets of a value are open at a time.
* `ofJson?_toJson` — an entry is the one that its JSON value stands for.
* `listReader_print` — a selection is read back under every layout.
* `head?_of_reader` — the first character of an entry tells its form.
* `read_document` — both, for the documents that are written.
-/

namespace SchemaAccess

/-! ## Nesting -/

namespace Json

mutual

/-- How many brackets are open at a time in the text of a value. -/
def nesting : Json → Nat
  | array items => itemsNesting items + 1
  | object entries => entriesNesting entries + 1
  | _ => 0

/-- How many brackets are open at a time in one of the items. -/
def itemsNesting : List Json → Nat
  | [] => 0
  | item :: items => max (nesting item) (itemsNesting items)

/-- How many brackets are open at a time in the value of one of the entries. -/
def entriesNesting : List (String × Json) → Nat
  | [] => 0
  | (_, value) :: entries => max (nesting value) (entriesNesting entries)

end

end Json

namespace Selection

open Json (Fits Reader)
open Json.Reader

/-! ## Values of selections

A selection is turned into a value and back.  The lemmas go through the three types that make up a
selection, and each has one for nesting and one for the way back. -/

variable {layout : Json.Layout} {depth indent : Nat}

mutual

/-- The value of an entry fits into as many brackets as it nests. -/
theorem fits_toJson {depth : Nat} :
    ∀ entry : Selection, entry.toJson.nesting ≤ depth → Fits depth entry.toJson
  | field name, _ => by
      rw [toJson]
      exact .string name
  | nested branches, h => by
      rw [toJson, Json.nesting] at h
      cases depth with
      | zero => omega
      | succ depth =>
        rw [toJson]
        exact .object (fits_branchesToJson branches (by omega))

theorem fits_listToJson {depth : Nat} :
    ∀ entries : List Selection, Json.itemsNesting (listToJson entries) ≤ depth →
      ∀ item ∈ listToJson entries, Fits depth item
  | [], _, item, hitem => by
      rw [listToJson] at hitem
      cases hitem
  | entry :: entries, h, item, hitem => by
      rw [listToJson, Json.itemsNesting] at h
      rw [listToJson] at hitem
      rcases List.mem_cons.1 hitem with rfl | hitem
      · exact fits_toJson entry (by omega)
      · exact fits_listToJson entries (by omega) item hitem

theorem fits_branchesToJson {depth : Nat} :
    ∀ branches : List (String × List Selection),
      Json.entriesNesting (branchesToJson branches) ≤ depth →
        ∀ entry ∈ branchesToJson branches, Fits depth entry.2
  | [], _, entry, hentry => by
      rw [branchesToJson] at hentry
      cases hentry
  | (name, below) :: branches, h, entry, hentry => by
      rw [branchesToJson, Json.entriesNesting, Json.nesting] at h
      rw [branchesToJson] at hentry
      rcases List.mem_cons.1 hentry with rfl | hentry
      · cases depth with
        | zero => omega
        | succ depth => exact .array (fits_listToJson below (by omega))
      · exact fits_branchesToJson branches (by omega) entry hentry

end

mutual

/-- **An entry is the one that its value stands for**, if no key comes twice in a mapping of it.  By
induction on the entry, with its branches. -/
theorem ofJson?_toJson : ∀ entry : Selection, entry.HasDistinctKeys →
    ofJson? entry.toJson = some entry
  | field name, _ => by rw [toJson, ofJson?]
  | nested branches, h => by
      rw [HasDistinctKeys] at h
      rw [toJson, ofJson?, branchesOfJson?_branchesToJson branches [] h.1 h.2]
      rfl

theorem listOfJson?_listToJson : ∀ entries : List Selection, listHasDistinctKeys entries →
    listOfJson? (listToJson entries) = some entries
  | [], _ => by rw [listToJson, listOfJson?]
  | entry :: entries, h => by
      rw [listHasDistinctKeys] at h
      rw [listToJson, listOfJson?, ofJson?_toJson entry h.1, listOfJson?_listToJson entries h.2]

/-- Branches with new keys come behind those that are there, in order; a key that was there already
would lose its place to the later one. -/
theorem branchesOfJson?_branchesToJson : ∀ branches before : List (String × List Selection),
    (Entries.keys (before ++ branches)).Nodup → branchesHaveDistinctKeys branches →
      branchesOfJson? before (branchesToJson branches) = some (before ++ branches)
  | [], before, _, _ => by rw [branchesToJson, branchesOfJson?, List.append_nil]
  | (name, below) :: branches, before, hkeys, h => by
      rw [branchesHaveDistinctKeys] at h
      have hnew : name ∉ Entries.keys before := by
        rw [Entries.keys, List.map_append, List.nodup_append] at hkeys
        exact fun hmem => hkeys.2.2 name hmem name List.mem_cons_self rfl
      have hsplit : before ++ (name, below) :: branches = (before ++ [(name, below)]) ++ branches :=
        by simp
      rw [hsplit] at hkeys ⊢
      rw [branchesToJson, branchesOfJson?, listOfJson?_listToJson below h.1]
      simp only
      rw [Entries.insert_of_not_mem below hnew]
      exact branchesOfJson?_branchesToJson branches _ hkeys h.2

end

/-! ## Reading selections back

Reading is done on text.  It is the reader for values followed by the way back from values, so the
two round trips make one. -/

theorem listToJson_eq_map (entries : List Selection) : listToJson entries = entries.map toJson := by
  induction entries with
  | nil => rw [listToJson, List.map_nil]
  | cons entry entries ih => rw [listToJson, List.map_cons, ih]

theorem listHasDistinctKeys_iff {entries : List Selection} :
    listHasDistinctKeys entries ↔ ∀ entry ∈ entries, entry.HasDistinctKeys := by
  induction entries with
  | nil => simp [listHasDistinctKeys]
  | cons entry entries ih => simp [listHasDistinctKeys, ih]

/-- An entry is read back from its text, and what stands behind is left. -/
theorem reader_print (hlayout : layout.IsSpaced) {entry : Selection}
    (hkeys : entry.HasDistinctKeys) (h : Fits depth entry.toJson) (rest : List Char) :
    reader depth (Json.print layout indent entry.toJson ++ rest) = .ok (entry, rest) := by
  rw [reader, Json.value_print hlayout h]
  simp only
  rw [ofJson?_toJson entry hkeys]

/-- **A selection is read back from its text under every layout**, if it nests no deeper than the
reader allows. -/
theorem listReader_print (hlayout : layout.IsSpaced) {entries : List Selection}
    (hkeys : listHasDistinctKeys entries) (h : (arrayOf entries).nesting ≤ depth)
    (rest : List Char) :
    listReader depth (Json.print layout indent (arrayOf entries) ++ rest) =
      .ok (entries, rest) := by
  rw [arrayOf, Json.nesting] at h
  cases depth with
  | zero => omega
  | succ depth =>
    have hfits : ∀ item ∈ listToJson entries, Fits depth item :=
      fits_listToJson entries (by omega)
    rw [listToJson_eq_map, List.forall_mem_map] at hfits
    rw [listHasDistinctKeys_iff] at hkeys
    have hread : ∀ entry ∈ entries, StepReads
        (fun entries s => (reader depth s).map fun read => (entries ++ [read.1], read.2))
        (fun entries entry => entries ++ [entry])
        (fun entry => Json.print layout (indent + 1) entry.toJson) entry := by
      refine fun entry hentry => ⟨(hfits entry hentry).opens_print _, fun before rest => ?_⟩
      exact congrArg (Except.map _)
        (reader_print hlayout (hkeys entry hentry) (hfits entry hentry) rest)
    have hloop := foldItems_itemsText (hlayout.lineStart (indent + 1)) (hlayout.lineStart indent)
      (.inl rfl) hread [] rest
    rw [Json.foldl_snoc] at hloop
    rw [arrayOf, listToJson_eq_map, Json.print_array, itemsText_map, List.cons_append, listReader,
      listOf, skipSpace_cons (by decide)]
    exact hloop

theorem read_print (hlayout : layout.IsSpaced) {entries : List Selection}
    (hkeys : listHasDistinctKeys entries) (h : (arrayOf entries).nesting ≤ maxDepth) :
    read (String.ofList (Json.print layout 0 (arrayOf entries))) = .ok entries := by
  have hlist : listReader maxDepth (Json.print layout 0 (arrayOf entries) ++ []) =
      .ok (entries, []) := listReader_print hlayout hkeys h []
  rw [List.append_nil] at hlist
  rw [read, whole, String.toList_ofList, hlist]
  rfl

/-! ## The form of an entry

An entry is a name or a mapping, and nothing in the document says which, apart from the value
itself.  Its first character is enough. -/

/-- The character that the text of an entry begins with. -/
def opening : Selection → Char
  | field _ => '"'
  | nested _ => '\x7b'

/-- **An entry that is read from any text is a field if the text begins with a quote, and nested if
it begins with a brace.**  This is the converse of reading back: it starts from what was read and
not from what was written. -/
theorem head?_of_reader {s rest : List Char} {entry : Selection}
    (h : reader depth s = .ok (entry, rest)) : (skipSpace s).head? = some entry.opening := by
  rw [reader] at h
  split at h
  · cases h
  · next value more hvalue =>
    obtain ⟨hstring, hobject⟩ := beginsAs_of_value hvalue
    split at h
    · next found hfound =>
      cases h
      cases value with
      | string name =>
        rw [ofJson?] at hfound
        cases hfound
        exact hstring.2 ⟨name, rfl⟩
      | object entries =>
        rw [ofJson?] at hfound
        obtain ⟨branches, -, rfl⟩ := Option.map_eq_some_iff.1 hfound
        exact hobject.2 ⟨entries, rfl⟩
      | _ => simp [ofJson?] at hfound
    · cases h

/-- A selection survives its document, compact or not, with its keys in order, and what an entry is
read from tells its form. -/
theorem read_document :
    (∀ entries : List Selection, listHasDistinctKeys entries → (arrayOf entries).nesting ≤ 127 →
      read (arrayOf entries).compact = .ok entries ∧
        read (arrayOf entries).pretty = .ok entries) ∧
    ∀ (depth : Nat) (s rest : List Char) (entry : Selection),
      reader depth s = .ok (entry, rest) → (skipSpace s).head? = some entry.opening :=
  ⟨fun _ hkeys h => ⟨read_print Json.Layout.isSpaced_compact hkeys h,
    read_print Json.Layout.isSpaced_pretty hkeys h⟩, fun _ _ _ _ => head?_of_reader⟩

/-- Names that need escapes, keys that are not sorted, and nothing below some of them. -/
def oddSelection : List Selection :=
  [.field "say \"hi\"\n", .nested [("posts", [.field "é\u0001", .nested []]), ("author", [])],
    .field "\x7b\x7d"]

theorem read_document_odd :
    listHasDistinctKeys oddSelection ∧ (arrayOf oddSelection).nesting ≤ 127 ∧
      read (arrayOf oddSelection).compact = .ok oddSelection ∧
      reader 126 (Json.print .compact 0 (field "say \"hi\"").toJson) =
        .ok (field "say \"hi\"", []) ∧
      (skipSpace (Json.print .compact 0 (field "say \"hi\"").toJson)).head? = some '"' := by
  have hkeys : listHasDistinctKeys oddSelection := by
    simp [oddSelection, listHasDistinctKeys, HasDistinctKeys, branchesHaveDistinctKeys,
      Entries.keys]
  have hnesting : (arrayOf oddSelection).nesting ≤ 127 := by
    decide
  have hdistinct : (field "say \"hi\"").HasDistinctKeys := trivial
  have hfield : reader 126 (Json.print .compact 0 (field "say \"hi\"").toJson ++ []) =
      .ok (field "say \"hi\"", []) :=
    reader_print Json.Layout.isSpaced_compact hdistinct (by rw [toJson]; exact .string _) []
  rw [List.append_nil] at hfield
  exact ⟨hkeys, hnesting, (read_document.1 oddSelection hkeys hnesting).1, hfield,
    read_document.2 126 _ [] _ hfield⟩

end Selection

end SchemaAccess
