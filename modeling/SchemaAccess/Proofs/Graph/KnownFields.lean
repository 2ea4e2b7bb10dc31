import Mathlib.Tactic.Common
import SchemaAccess.Model.Graph

/-!
# Selections whose names exist

A fragment may be attached to a model if every name in its selection is a field of the model of
its level.  `ModelGraph.unknownFields` lists the names that are not; here the property itself is
said on the tree, and shown to depend on nothing but the names and fields of the built models.

* `ModelGraph.Knows` — every name in a selection is a field of the model of its level.
* `unknownFields_eq_nil_iff` — a selection has no unknown names exactly if the graph knows it.
* `addFragment_eq_ok_iff` — a fragment is added exactly if the graph knows its selection.
* `Model.bare` — a model without what was attached to it after it was built.
* `Knows.mono`, `Knows.of_bare_eq` — what is known depends on the fields of the levels alone.
-/

namespace SchemaAccess

namespace ModelGraph

/-! ## The property

The property follows the three types of which a selection is made.  At a key it changes the model
and goes on below, as far as the models are built. -/

mutual

/-- Every name in a selection of a model is a field of the model of its level.  The level below a
field is that of the built model that the type of the field names; where that model is not built,
nothing is asked. -/
def Knows (g : ModelGraph) (model : Model) : List Selection → Prop
  | [] => True
  | entry :: entries => KnowsEntry g model entry ∧ Knows g model entries

/-- Every name in one entry is a field of the model of its level. -/
def KnowsEntry (g : ModelGraph) (model : Model) : Selection → Prop
  | .field name => model.fields.contains name = true
  | .nested branches => KnowsBranches g model branches

/-- Every name in branches is a field of the model of its level. -/
def KnowsBranches (g : ModelGraph) (model : Model) : List (String × List Selection) → Prop
  | [] => True
  | (name, below) :: branches =>
    (∃ type, model.fieldType? name = some type ∧
      ∀ target, g.find? (TypeText.baseName type) = some target → Knows g target below) ∧
    KnowsBranches g model branches

end

/-! ## What is checked is what holds

The check collects names along a path, and the property collects nothing.  They agree on the empty
list, which is all that adding a fragment asks. -/

mutual

/-- **A selection has no unknown names exactly if the graph knows it**, whatever path it stands at.
The three lemmas are one induction over the selection, for all models and paths at once. -/
theorem unknownFields_eq_nil_iff (g : ModelGraph) (model : Model) (path : String) :
    ∀ selection, unknownFields g model path selection = [] ↔ Knows g model selection
  | [] => by simp [unknownFields, Knows]
  | entry :: entries => by
      rw [unknownFields, Knows, List.append_eq_nil_iff, unknownInEntry_eq_nil_iff,
        unknownFields_eq_nil_iff]

theorem unknownInEntry_eq_nil_iff (g : ModelGraph) (model : Model) (path : String) :
    ∀ entry, unknownInEntry g model path entry = [] ↔ KnowsEntry g model entry
  | .field name => by simp [unknownInEntry, KnowsEntry]
  | .nested branches => by
      rw [unknownInEntry, KnowsEntry, unknownInBranches_eq_nil_iff]

theorem unknownInBranches_eq_nil_iff (g : ModelGraph) (model : Model) (path : String) :
    ∀ branches, unknownInBranches g model path branches = [] ↔ KnowsBranches g model branches
  | [] => by simp [unknownInBranches, KnowsBranches]
  | (name, below) :: branches => by
      rw [unknownInBranches, KnowsBranches, List.append_eq_nil_iff, unknownInBranches_eq_nil_iff]
      refine and_congr_left fun _ => ?_
      cases htype : model.fieldType? name with
      | none => simp
      | some type =>
        cases htarget : g.find? (TypeText.baseName type) with
        | none => simp [htarget]
        | some target => simp [htarget, unknownFields_eq_nil_iff g target]

end

/-- **A fragment is added exactly if its model is built and knows its selection**; nothing else
changes. -/
theorem addFragment_eq_ok_iff {g h : ModelGraph} {model key : String}
    {selection : List Selection} :
    g.addFragment model key selection = .ok h ↔
      ∃ owner, g.find? model = some owner ∧ g.Knows owner selection ∧
        h = g.update model (·.setFragment key selection) := by
  rw [addFragment]
  cases g.find? model with
  | none => simp
  | some owner =>
    simp only [Option.some.injEq, exists_eq_left', ← unknownFields_eq_nil_iff g owner ""]
    cases unknownFields g owner "" selection with
    | nil => simp [eq_comm]
    | cons name names => simp

end ModelGraph

/-! ## What is known depends on the fields alone

Attaching accessors, fragments and hooks to models changes neither their names nor their fields, so
it cannot make a checked selection invalid.
-/

/-- The model without anything that was attached to it after it was built. -/
def Model.bare (model : Model) : Model :=
  { model with accessors := [], fragments := Table.empty, hooks := Table.empty }

@[simp]
theorem Model.bare_name (model : Model) : model.bare.name = model.name := rfl

@[simp]
theorem Model.bare_fields (model : Model) : model.bare.fields = model.fields := rfl

theorem Model.name_eq_of_bare_eq {m n : Model} (h : m.bare = n.bare) : m.name = n.name := by
  rw [← bare_name m, h, bare_name]

/-- Models that are bare alike have the same fields, since fields are never attached. -/
theorem Model.fields_eq_of_bare_eq {m n : Model} (h : m.bare = n.bare) : m.fields = n.fields := by
  rw [← bare_fields m, h, bare_fields]

namespace ModelGraph

/-- Bare models determine the names. -/
theorem map_name_eq_of_bare_eq {as bs : List Model} (hb : as.map Model.bare = bs.map Model.bare) :
    as.map Model.name = bs.map Model.name := by
  have hbare : ∀ models : List Model,
      (models.map Model.bare).map Model.name = models.map Model.name := fun models => List.map_map
  rw [← hbare as, hb, hbare]

theorem name_eq_of_find? {g : ModelGraph} {name : String} {model : Model}
    (h : g.find? name = some model) : model.name = name :=
  of_decide_eq_true (List.find?_some (p := fun m : Model => decide (m.name = name)) h)

/-- The models of a graph have names for names. -/
def HasNames (g : ModelGraph) : Prop := ∀ model ∈ g.models, Text.IsName model.name.toList

/-- What is attached does not change whether the models have names for names. -/
theorem HasNames.of_bare_eq {g h : ModelGraph} (hg : g.HasNames)
    (hb : g.models.map Model.bare = h.models.map Model.bare) : h.HasNames := by
  intro model hm
  have hbare : model.bare ∈ g.models.map Model.bare := hb ▸ List.mem_map_of_mem hm
  obtain ⟨first, hf, heq⟩ := List.mem_map.1 hbare
  rw [← Model.name_eq_of_bare_eq heq]
  exact hg first hf

/-- The bare model of a name depends on the bare models alone, since models are found by their
names. -/
theorem map_bare_find? (g : ModelGraph) (name : String) :
    (g.find? name).map Model.bare = (g.models.map Model.bare).find? fun m => m.name = name := by
  rw [find?, List.find?_map]
  rfl

/-- The model of a name is found in both graphs, or in neither, and is bare alike. -/
theorem find?_of_bare_eq {g h : ModelGraph} (hb : g.models.map Model.bare = h.models.map Model.bare)
    {name : String} {model : Model} (hm : h.find? name = some model) :
    ∃ other, g.find? name = some other ∧ other.bare = model.bare := by
  have hmap : (g.find? name).map Model.bare = some model.bare := by
    rw [map_bare_find?, hb, ← map_bare_find?, hm, Option.map_some]
  exact Option.map_eq_some_iff.1 hmap

mutual

/-- **A known selection stays known if the models of the levels keep their fields or are no longer
built.**  A level whose model is gone is not asked any more, so there are fewer conditions and none
is new. -/
theorem Knows.mono {g h : ModelGraph}
    (hgh : ∀ name target, h.find? name = some target →
      ∃ other, g.find? name = some other ∧ other.fields = target.fields)
    {m n : Model} (hmn : m.fields = n.fields) : ∀ {selection}, Knows g m selection →
      Knows h n selection
  | [], _ => by rw [Knows]; trivial
  | _ :: _, hk => by
      rw [Knows] at hk ⊢
      exact ⟨KnowsEntry.mono hgh hmn hk.1, Knows.mono hgh hmn hk.2⟩

theorem KnowsEntry.mono {g h : ModelGraph}
    (hgh : ∀ name target, h.find? name = some target →
      ∃ other, g.find? name = some other ∧ other.fields = target.fields)
    {m n : Model} (hmn : m.fields = n.fields) : ∀ {entry}, KnowsEntry g m entry →
      KnowsEntry h n entry
  | .field _, hk => by
      rw [KnowsEntry] at hk ⊢
      rwa [← hmn]
  | .nested _, hk => by
      rw [KnowsEntry] at hk ⊢
      exact KnowsBranches.mono hgh hmn hk

theorem KnowsBranches.mono {g h : ModelGraph}
    (hgh : ∀ name target, h.find? name = some target →
      ∃ other, g.find? name = some other ∧ other.fields = target.fields)
    {m n : Model} (hmn : m.fields = n.fields) : ∀ {branches}, KnowsBranches g m branches →
      KnowsBranches h n branches
  | [], _ => by rw [KnowsBranches]; trivial
  | (name, _) :: _, hk => by
      rw [KnowsBranches] at hk ⊢
      obtain ⟨⟨type, htype, hbelow⟩, hrest⟩ := hk
      refine ⟨⟨type, ?_, ?_⟩, KnowsBranches.mono hgh hmn hrest⟩
      · rwa [Model.fieldType?, ← hmn]
      · intro target htarget
        obtain ⟨other, hother, hfields⟩ := hgh _ _ htarget
        exact Knows.mono hgh hfields (hbelow other hother)

end

/-- Graphs of the same bare models know the same selections: a case of `Knows.mono` in which no
model is gone. -/
theorem Knows.of_bare_eq {g h : ModelGraph}
    (hb : g.models.map Model.bare = h.models.map Model.bare) {m n : Model} (hmn : m.bare = n.bare)
    {selection : List Selection} (hk : Knows g m selection) : Knows h n selection := by
  refine hk.mono (fun name target htarget => ?_) (Model.fields_eq_of_bare_eq hmn)
  obtain ⟨other, hother, hbare⟩ := find?_of_bare_eq hb htarget
  exact ⟨other, hother, Model.fields_eq_of_bare_eq hbare⟩

end ModelGraph

end SchemaAccess
