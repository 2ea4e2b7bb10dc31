import Mathlib.Data.List.Nodup
import SchemaAccess.Proofs.Graph.Building

/-!
# Graphs of fewer models

A build set leaves models out.  The graph that is built with it is the part of the graph of all
models that has the names in it, and stays so when both graphs are changed in the same way.

* `Restricts` — a graph is the part of another one with the names that are kept.
* `Restricts.update`, `Restricts.update_full` — changes of a model that is kept, and of one that is
  left out.
* `Restricts.addFragment` — a fragment that the full graph accepts is accepted by the part.
* `exists_restricts_of_build` — where all models can be built, those in a build set can.
-/

namespace SchemaAccess.ModelGraph

/-! ## Parts -/

/-- The graph `part` has the models of `full` whose names are kept, and knows of all the others. -/
structure Restricts (kept : List String) (full part : ModelGraph) : Prop where
  models : part.models = full.models.filter fun model => kept.contains model.name
  discovered : part.discovered = full.discovered

variable {kept : List String} {full part : ModelGraph} {name : String}

/-- With distinct names every model is found under its own. -/
theorem find?_eq_some_of_nodup {g : ModelGraph} (h : (g.models.map Model.name).Nodup)
    {model : Model} (hm : model ∈ g.models) : g.find? model.name = some model := by
  cases hfound : g.find? model.name with
  | none => exact absurd (decide_eq_true rfl) (List.find?_eq_none.1 hfound model hm)
  | some other =>
    exact congrArg some (List.inj_on_of_nodup_map h (List.mem_of_find?_eq_some hfound) hm
      (name_eq_of_find? hfound))

namespace Restricts

theorem find?_of_mem (h : Restricts kept full part) (hname : name ∈ kept) :
    part.find? name = full.find? name := by
  rw [find?, find?, h.models, List.find?_filter]
  congr 1
  funext model
  by_cases hm : model.name = name
  · simp [hm, hname]
  · simp [hm]

theorem find?_of_not_mem (h : Restricts kept full part) (hname : name ∉ kept) :
    part.find? name = none := by
  rw [find?, h.models, List.find?_filter, List.find?_eq_none]
  intro model _ hm
  simp only [List.contains_iff_mem, decide_eq_true_eq] at hm
  exact hname (hm.2 ▸ hm.1)

/-- What is found in the part is found in the full graph. -/
theorem find?_full (h : Restricts kept full part) {model : Model}
    (hm : part.find? name = some model) : full.find? name = some model := by
  by_cases hname : name ∈ kept
  · rwa [← h.find?_of_mem hname]
  · rw [h.find?_of_not_mem hname] at hm
    cases hm

end Restricts

/-! ## Changes -/

section Update

variable {f : Model → Model} {p : String → Bool}

/-- A change of a model that is kept can be made before the others are left out or after. -/
theorem updateFirst_filter (hf : ∀ model : Model, model.name = name → (f model).name = name)
    (hp : p name = true) : ∀ models : List Model,
      (updateFirst name f models).filter (fun model => p model.name) =
        updateFirst name f (models.filter fun model => p model.name)
  | [] => rfl
  | model :: models => by
      have ih := updateFirst_filter hf hp models
      rw [updateFirst, List.filter_cons]
      by_cases hm : model.name = name
      · rw [if_pos hm, List.filter_cons, hf model hm, hm, hp, if_pos rfl, if_pos rfl, updateFirst,
          if_pos hm]
      · rw [if_neg hm, List.filter_cons, ih]
        split
        · rw [updateFirst, if_neg hm]
        · rfl

/-- A change of a model that is left out is lost. -/
theorem filter_updateFirst_of_not (hf : ∀ model : Model, model.name = name → (f model).name = name)
    (hp : p name = false) : ∀ models : List Model,
      (updateFirst name f models).filter (fun model => p model.name) =
        models.filter fun model => p model.name
  | [] => rfl
  | model :: models => by
      have ih := filter_updateFirst_of_not hf hp models
      rw [updateFirst, List.filter_cons]
      by_cases hm : model.name = name
      · rw [if_pos hm, List.filter_cons, hf model hm, hm, hp, if_neg Bool.false_ne_true,
          if_neg Bool.false_ne_true]
      · rw [if_neg hm, List.filter_cons, ih]

namespace Restricts

theorem update (h : Restricts kept full part) (hname : name ∈ kept)
    (hf : ∀ model : Model, model.name = name → (f model).name = name) :
    Restricts kept (full.update name f) (part.update name f) where
  models := by
    have hkept : kept.contains name = true := List.contains_iff_mem.2 hname
    show updateFirst name f part.models = _
    rw [h.models]
    exact (updateFirst_filter (p := kept.contains) hf hkept full.models).symm
  discovered := h.discovered

theorem update_full (h : Restricts kept full part) (hname : name ∉ kept)
    (hf : ∀ model : Model, model.name = name → (f model).name = name) :
    Restricts kept (full.update name f) part where
  models := by
    have hkept : kept.contains name = false := by simpa using hname
    rw [h.models]
    exact (filter_updateFirst_of_not (p := kept.contains) hf hkept full.models).symm
  discovered := h.discovered

end Restricts

end Update

/-! ## Fragments -/

section Fragments

variable {after : ModelGraph} {model key : String} {selection : List Selection}

/-- A fragment of a model that is kept is accepted by the part, if the full graph accepts it. -/
theorem Restricts.addFragment (h : Restricts kept full part) (hmodel : model ∈ kept)
    (ha : full.addFragment model key selection = .ok after) :
    ∃ rest, part.addFragment model key selection = .ok rest ∧ Restricts kept after rest := by
  obtain ⟨owner, howner, hknows, rfl⟩ := addFragment_eq_ok_iff.1 ha
  refine ⟨_, addFragment_eq_ok_iff.2 ⟨owner, ?_, ?_, rfl⟩, h.update hmodel fun _ hname => hname⟩
  · rw [h.find?_of_mem hmodel, howner]
  · exact hknows.mono (fun _ target htarget => ⟨target, h.find?_full htarget, rfl⟩) rfl

/-- A fragment of a model that is left out changes nothing in the part. -/
theorem Restricts.addFragment_full (h : Restricts kept full part) (hmodel : model ∉ kept)
    (ha : full.addFragment model key selection = .ok after) : Restricts kept after part := by
  obtain ⟨_, -, -, rfl⟩ := addFragment_eq_ok_iff.1 ha
  exact h.update_full hmodel fun _ hname => hname

end Fragments

/-! ## Building -/

/-- Models with distinct names can be put in order before some are left out or after. -/
theorem inNameOrder_filter {models : List Model} (h : (models.map Model.name).Nodup)
    (p : Model → Bool) : inNameOrder (models.filter p) = (inNameOrder models).filter p := by
  have hleft : (inNameOrder (models.filter p)).Perm (models.filter p) := List.mergeSort_perm _ _
  have hright := (List.mergeSort_perm models fun a b => decide (a.name ≤ b.name)).filter p
  refine eq_of_perm_of_ordered (hleft.trans hright.symm) ?_ (pairwise_inNameOrder _)
    ((pairwise_inNameOrder models).filter p)
  exact (hleft.map Model.name).nodup_iff.2 (h.sublist (List.filter_sublist.map Model.name))

/-- The models of a graph of all declarations have the declared names. -/
theorem map_name_perm_of_build {view : SchemaView} {enums : List String}
    {declarations : List ModelDeclaration} (h : build view [] declarations enums = .ok full) :
    (full.models.map Model.name).Perm (declarations.map ModelDeclaration.name) := by
  have hperm := map_name_perm_selected_of_build h
  rwa [filter_isSelected_nil] at hperm

/-- Where all models can be built, those in a build set can, and make up a part of the graph. -/
theorem exists_restricts_of_build {view : SchemaView} {enums : List String}
    {declarations : List ModelDeclaration}
    (hnodup : (declarations.map ModelDeclaration.name).Nodup) (hkept : kept ≠ [])
    (hdeclared : ∀ name ∈ kept, name ∈ declarations.map ModelDeclaration.name)
    (h : build view [] declarations enums = .ok full) :
    ∃ part, build view kept declarations enums = .ok part ∧ Restricts kept full part := by
  obtain ⟨-, models, hmodels, rfl⟩ := build_eq_ok_iff.1 h
  rw [filter_isSelected_nil] at hmodels
  have hselected : ∀ declaration, isSelected kept declaration = kept.contains declaration.name :=
    fun declaration => by rw [isSelected, List.isEmpty_eq_false_iff.2 hkept, Bool.false_or]
  have hpart : List.Forall₂ (BuiltFrom view enums) (declarations.filter (isSelected kept))
      (models.filter fun model => kept.contains model.name) :=
    List.rel_filter (fun declaration model hbuilt => by
      show isSelected kept declaration = true ↔ kept.contains model.name = true
      rw [hselected, hbuilt.name_eq]) hmodels
  have hnames : models.map Model.name = declarations.map ModelDeclaration.name :=
    map_name_of_builtFrom hmodels
  exact ⟨_, build_eq_ok_iff.2 ⟨hdeclared, _, hpart, rfl⟩,
    inNameOrder_filter (hnames ▸ hnodup) _, rfl⟩

end SchemaAccess.ModelGraph
