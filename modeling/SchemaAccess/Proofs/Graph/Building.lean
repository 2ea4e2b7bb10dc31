import Mathlib.Data.List.Forall2
import Mathlib.Data.List.Nodup
import SchemaAccess.Proofs.Graph.KnownFields

/-!
# How a graph is built

Building goes through the declarations in order and asks the schema for the fields of each.  This
file says when it succeeds and what comes out, so that no other proof follows the building itself.

* `BuiltFrom` — a model is built from a declaration.
* `buildModels_eq_ok_iff`, `build_eq_ok_iff` — building succeeds exactly if each declaration in the
  build set gives a model, and the graph has these models in the order of their names.
* `inNameOrder_eq_of_perm` — the order of models by their names depends on nothing else.
* `fields_eq_of_build` — models of one name have the same fields.
-/

namespace SchemaAccess.ModelGraph

/-! ## One model -/

/-- Connecting fields changes nothing but the connections. -/
theorem exists_connections_foldl_connect (scanned : List FieldDeclaration) :
    ∀ model : Model, ∃ connections,
      scanned.foldl (fun model field => model.connect field.name) model =
        { model with connections := connections } := by
  induction scanned with
  | nil => exact fun model => ⟨model.connections, rfl⟩
  | cons field rest ih =>
    intro model
    have hstep : ∃ connections, model.connect field.name = { model with connections } := by
      rw [Model.connect]
      split
      · exact ⟨_, rfl⟩
      · exact ⟨model.connections, rfl⟩
    obtain ⟨first, hfirst⟩ := hstep
    rw [List.foldl_cons, hfirst]
    exact ih _

/-- A built model is the model of its fields with connections. -/
theorem exists_connections_modelOf (declaration : ModelDeclaration) (enums : List String)
    (scanned : List FieldDeclaration) : ∃ connections,
      modelOf declaration enums scanned =
        { Model.ofFields declaration.name (fieldTable scanned) enums with connections } :=
  exists_connections_foldl_connect _ _

/-- The model is built from the declaration, whose fields can be had. -/
def BuiltFrom (view : SchemaView) (enums : List String) (declaration : ModelDeclaration)
    (model : Model) : Prop :=
  ∃ scanned, view.fields declaration.name = .ok scanned ∧ model = modelOf declaration enums scanned

section BuiltFrom

variable {view : SchemaView} {enums : List String} {declaration other : ModelDeclaration}
  {model : Model}

theorem BuiltFrom.name_eq (h : BuiltFrom view enums declaration model) :
    model.name = declaration.name := by
  obtain ⟨scanned, -, rfl⟩ := h
  obtain ⟨connections, hc⟩ := exists_connections_modelOf declaration enums scanned
  rw [hc]
  rfl

/-- The fields depend on the name of the declaration alone. -/
theorem BuiltFrom.fields_eq {first : Model} (h : BuiltFrom view enums declaration model)
    (h' : BuiltFrom view enums other first) (hname : model.name = first.name) :
    model.fields = first.fields := by
  rw [h.name_eq, h'.name_eq] at hname
  obtain ⟨scanned, hscanned, rfl⟩ := h
  obtain ⟨scanned', hscanned', rfl⟩ := h'
  obtain rfl : scanned = scanned' := Except.ok.inj (by rw [← hscanned, hname, hscanned'])
  obtain ⟨connections, hc⟩ := exists_connections_modelOf declaration enums scanned
  obtain ⟨connections', hc'⟩ := exists_connections_modelOf other enums scanned
  rw [hc, hc']
  rfl

/-! ## All models -/

/-- A computation in two steps succeeds exactly if both steps do. -/
theorem bind_eq_ok_iff {α β : Type} {x : Except Error α} {f : α → Except Error β} {b : β} :
    (x >>= f) = .ok b ↔ ∃ a, x = .ok a ∧ f a = .ok b := by
  cases x <;> simp [bind, Except.bind]

/-- Building succeeds exactly if every declaration gives a model, and gives these in order. -/
theorem buildModels_eq_ok_iff : ∀ {declarations : List ModelDeclaration} {models : List Model},
    buildModels view enums declarations = .ok models ↔
      List.Forall₂ (BuiltFrom view enums) declarations models
  | [], models => by
      rw [buildModels, Except.ok.injEq, List.forall₂_nil_left_iff, eq_comm]
  | declaration :: declarations, models => by
      simp only [buildModels, bind_eq_ok_iff, buildModels_eq_ok_iff, List.forall₂_cons_left_iff]
      constructor
      · rintro ⟨scanned, hfields, rest, hrest, hmodels⟩
        cases hmodels
        exact ⟨_, rest, ⟨scanned, hfields, rfl⟩, hrest, rfl⟩
      · rintro ⟨_, rest, ⟨scanned, hfields, rfl⟩, hrest, rfl⟩
        exact ⟨scanned, hfields, rest, hrest, rfl⟩

/-- Models have the names of the declarations that they are built from. -/
theorem map_name_of_builtFrom {declarations : List ModelDeclaration} {models : List Model}
    (h : List.Forall₂ (BuiltFrom view enums) declarations models) :
    models.map Model.name = declarations.map ModelDeclaration.name := by
  induction h with
  | nil => rfl
  | cons first _ ih => rw [List.map_cons, List.map_cons, ih, first.name_eq]

theorem pairwise_inNameOrder (models : List Model) :
    (inNameOrder models).Pairwise fun a b => a.name ≤ b.name := by
  have hsorted : (inNameOrder models).Pairwise fun a b => decide (a.name ≤ b.name) = true :=
    List.pairwise_mergeSort
      (fun a b c hab hbc => by
        rw [decide_eq_true_eq] at hab hbc ⊢
        exact String.le_trans hab hbc)
      (fun a b => by
        rw [Bool.or_eq_true, decide_eq_true_eq, decide_eq_true_eq]
        exact String.le_total _ _) models
  exact hsorted.imp fun h => of_decide_eq_true h

/-- Models with distinct names can be ordered in one way only. -/
theorem eq_of_perm_of_ordered {models others : List Model} (hperm : models.Perm others)
    (hnodup : (models.map Model.name).Nodup) (hm : models.Pairwise fun a b => a.name ≤ b.name)
    (ho : others.Pairwise fun a b => a.name ≤ b.name) : models = others :=
  hperm.eq_of_pairwise (fun _ _ ha hb hab hba =>
    List.inj_on_of_nodup_map hnodup ha (hperm.mem_iff.2 hb) (String.le_antisymm hab hba)) hm ho

/-- Models with distinct names are put in the same order, in whichever they come. -/
theorem inNameOrder_eq_of_perm {models others : List Model} (hperm : models.Perm others)
    (hnodup : (models.map Model.name).Nodup) : inNameOrder models = inNameOrder others := by
  have hm : (inNameOrder models).Perm models := List.mergeSort_perm _ _
  have ho : (inNameOrder others).Perm others := List.mergeSort_perm _ _
  exact eq_of_perm_of_ordered (hm.trans (hperm.trans ho.symm))
    ((hm.map Model.name).nodup_iff.2 hnodup) (pairwise_inNameOrder models)
    (pairwise_inNameOrder others)

theorem smallest?_eq_none_iff {names : List String} : smallest? names = none ↔ names = [] := by
  rw [smallest?, List.head?_eq_none_iff, ← List.length_eq_zero_iff, List.length_mergeSort,
    List.length_eq_zero_iff]

/-- True of a declaration in the build set; an empty build set stands for all models. -/
def isSelected (buildSet : List String) (declaration : ModelDeclaration) : Bool :=
  buildSet.isEmpty || buildSet.contains declaration.name

theorem filter_isSelected_nil (declarations : List ModelDeclaration) :
    declarations.filter (isSelected []) = declarations :=
  List.filter_eq_self.2 fun _ _ => rfl

/-- A graph is built exactly if the build set is declared and each declaration in it gives a
model. -/
theorem build_eq_ok_iff {buildSet : List String} {declarations : List ModelDeclaration}
    {g : ModelGraph} :
    build view buildSet declarations enums = .ok g ↔
      (∀ name ∈ buildSet, name ∈ declarations.map ModelDeclaration.name) ∧
        ∃ models,
          List.Forall₂ (BuiltFrom view enums) (declarations.filter (isSelected buildSet)) models ∧
            g = ⟨inNameOrder models, declarations.map ModelDeclaration.name⟩ := by
  have hdeclared : smallest? (buildSet.filter fun name =>
      !(declarations.map ModelDeclaration.name).contains name) = none ↔
      ∀ name ∈ buildSet, name ∈ declarations.map ModelDeclaration.name := by
    simp [smallest?_eq_none_iff]
  have hfilter : (fun declaration : ModelDeclaration =>
      buildSet.isEmpty || buildSet.contains declaration.name) = isSelected buildSet := rfl
  rw [build, ← hdeclared]
  cases smallest? (buildSet.filter fun name =>
      !(declarations.map ModelDeclaration.name).contains name) with
  | some name => simp
  | none =>
    simp only [true_and, hfilter, bind_eq_ok_iff, buildModels_eq_ok_iff, pure, Except.pure,
      Except.ok.injEq, eq_comm (a := g)]

/-- The models of a graph have the names of the declarations in the build set. -/
theorem map_name_perm_selected_of_build {buildSet : List String}
    {declarations : List ModelDeclaration} {g : ModelGraph}
    (h : build view buildSet declarations enums = .ok g) :
    (g.models.map Model.name).Perm
      ((declarations.filter (isSelected buildSet)).map ModelDeclaration.name) := by
  obtain ⟨-, models, hmodels, rfl⟩ := build_eq_ok_iff.1 h
  rw [← map_name_of_builtFrom hmodels]
  exact (List.mergeSort_perm models _).map Model.name

theorem exists_builtFrom_of_mem {declarations : List ModelDeclaration} {models : List Model}
    (h : List.Forall₂ (BuiltFrom view enums) declarations models) :
    ∀ model ∈ models, ∃ declaration, BuiltFrom view enums declaration model := by
  induction h with
  | nil => exact fun model hm => absurd hm List.not_mem_nil
  | cons first _ ih =>
    intro model hm
    rcases List.mem_cons.1 hm with rfl | hm
    · exact ⟨_, first⟩
    · exact ih model hm

/-- Every model of a built graph is built from a declaration. -/
theorem exists_builtFrom_of_build {buildSet : List String} {declarations : List ModelDeclaration}
    {g : ModelGraph} (h : build view buildSet declarations enums = .ok g) (hm : model ∈ g.models) :
    ∃ declaration, BuiltFrom view enums declaration model := by
  obtain ⟨-, models, hmodels, rfl⟩ := build_eq_ok_iff.1 h
  exact exists_builtFrom_of_mem hmodels model (List.mem_mergeSort.1 hm)

/-- Models of one name have the same fields. -/
theorem fields_eq_of_build {buildSet : List String} {declarations : List ModelDeclaration}
    {g : ModelGraph} (h : build view buildSet declarations enums = .ok g) {first : Model}
    (hm : model ∈ g.models) (hf : first ∈ g.models) (hname : model.name = first.name) :
    model.fields = first.fields := by
  obtain ⟨_, hmodel⟩ := exists_builtFrom_of_build h hm
  obtain ⟨_, hfirst⟩ := exists_builtFrom_of_build h hf
  exact hmodel.fields_eq hfirst hname

end BuiltFrom

end SchemaAccess.ModelGraph
