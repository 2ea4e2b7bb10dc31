import SchemaAccess.Json.Reader
import SchemaAccess.Table.Basic

/-!
# Tables as JSON

A table is an object with the entries in table order.

* `Table.toJson` — the object of a table; `Table.textsToJson` and `Table.tablesToJson` for texts
  and for tables of texts.
* `Table.ofJson?` — the table of an object, whose repeated keys count as repeated insertions.
* `Table.reader` — reads an object as a table.
-/

namespace SchemaAccess.Table

/-- A table as an object. -/
def toJson {α : Type} (value : α → Json) (table : Table α) : Json :=
  .object (table.entries.map fun entry => (entry.1, value entry.2))

/-- A table of texts as an object. -/
def textsToJson (table : Table String) : Json := table.toJson .string

/-- Tables of texts as an object of objects. -/
def tablesToJson (table : Table (Table String)) : Json := table.toJson textsToJson

/-- The table that an object stands for, if its values stand for something. -/
def ofJson? {α : Type} (value : Json → Option α) : Json → Option (Table α)
  | .object entries =>
    entries.foldlM (fun table entry => (value entry.2).map (table.insert entry.1)) empty
  | _ => none

/-- Reads a table whose values are told how many more brackets may be opened. -/
def reader {α : Type} (item : Nat → Json.Reader α) (depth : Nat) : Json.Reader (Table α) :=
  Json.Reader.foldEntries (fun depth key table s =>
    (item depth s).map fun read => (table.insert key read.1, read.2)) empty depth

end SchemaAccess.Table
