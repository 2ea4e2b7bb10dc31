import SchemaAccess.Table.Basic

/-!
# Selections

A fragment selects fields of a model: by name, or by name with a selection of the model that the
field leads to.  One entry may hold several nested selections.

* `Selection` — one entry; a selection as a whole is a list of entries.
* `Selection.HasDistinctKeys` — no entry nests the same field twice, at any level.
* `ModelTable` — overrides: for each model, a table.
-/

namespace SchemaAccess

/-- One entry of a selection. -/
inductive Selection where
  /-- A field without anything below it. -/
  | field (name : String)
  /-- Fields with what is selected below each. -/
  | nested (branches : List (String × List Selection))

namespace Selection

mutual

/-- No entry below, this one included, nests a field twice. -/
def HasDistinctKeys : Selection → Prop
  | field _ => True
  | nested branches => (Entries.keys branches).Nodup ∧ branchesHaveDistinctKeys branches

/-- No entry of a list nests a field twice. -/
def listHasDistinctKeys : List Selection → Prop
  | [] => True
  | entry :: entries => entry.HasDistinctKeys ∧ listHasDistinctKeys entries

/-- No entry below a list of branches nests a field twice. -/
def branchesHaveDistinctKeys : List (String × List Selection) → Prop
  | [] => True
  | (_, below) :: branches => listHasDistinctKeys below ∧ branchesHaveDistinctKeys branches

end

end Selection

/-- A table for each model. -/
abbrev ModelTable (α : Type) := Table (Table α)

/-- Fragments by model and key. -/
abbrev FragmentOverrides := ModelTable (List Selection)

/-- Hooks by model and name: each is bound to a reference. -/
abbrev HookOverrides := ModelTable String

end SchemaAccess
