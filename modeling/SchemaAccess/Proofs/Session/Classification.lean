import Mathlib.Algebra.BigOperators.Group.List.Basic
import SchemaAccess.Proofs.Graph.Attachments
import SchemaAccess.Proofs.Session.Owners

/-!
# Which model an operation goes to

Operations are attached one after the other, each to the first model that claims its return type.
Whatever the graph looks like, also where models share names or claim the same types, nothing gets
lost on the way: what a model has in the end can be read off the lists of operations.

* `placeOf`, `operationsAt`, `unowned` — where an operation belongs, by the names of the models.
* `imageOn` — the accessors that an operation becomes on its model.
* `owner?_eq` — looking up a return type finds the model at that place.
* `Attached` — what the operations of a root make of a state; `Attached.append` joins two runs.
* `Classified`, `execute_classify_eq_ok_iff` — what both roots make of it, and when they do.
-/

namespace SchemaAccess

/-- Changing the first model of a name is changing the model at the place of that name. -/
theorem ModelGraph.updateFirst_eq_modify {name : String} {f : Model → Model} {place : Nat}
    {models : List Model} (h : models.findIdx? (fun model => model.name = name) = some place) :
    updateFirst name f models = models.modify place f := by
  induction models generalizing place with
  | nil => cases h
  | cons model models ih =>
    rw [List.findIdx?_cons] at h
    rw [updateFirst]
    by_cases hname : model.name = name
    · rw [if_pos (by simpa using hname), Option.some.injEq] at h
      rw [if_pos hname, ← h, List.modify_zero_cons]
    · rw [if_neg (by simpa using hname)] at h
      obtain ⟨behind, hbehind, rfl⟩ := Option.map_eq_some_iff.1 h
      rw [if_neg hname, ih hbehind, List.modify_succ_cons]

namespace Session

/-! ## Where an operation belongs -/

/-- The place of the model that an operation belongs to: the first that claims its return type,
required marks aside. -/
def placeOf (models : List Model) (operation : OperationDeclaration) : Option Nat :=
  models.findIdx? fun model => TypeText.unmarked operation.returns ∈ returns model.name

/-- The operations that belong to the model at a place, in order. -/
def operationsAt (models : List Model) (place : Nat) (operations : List OperationDeclaration) :
    List OperationDeclaration :=
  operations.filter fun operation => placeOf models operation = some place

/-- The operations that belong to no model, in order. -/
def unowned (models : List Model) (operations : List OperationDeclaration) :
    List OperationDeclaration :=
  operations.filter fun operation => placeOf models operation = none

/-- The operations sorted by where they belong: those of no model, then those of each model. -/
def shares (models : List Model) (operations : List OperationDeclaration) :
    List OperationDeclaration :=
  unowned models operations ++
    (List.range models.length).flatMap fun place => operationsAt models place operations

/-- What an operation becomes on the model that it belongs to.  A query for the pages of that model
becomes a listing accessor and an iterating one. -/
def imageOn (model : String) (root : OperationRoot) (operation : OperationDeclaration) :
    List Accessor :=
  match root with
  | .query =>
    if TypeText.unmarked operation.returns = "Model" ++ model ++ "Connection" then
      [⟨.list, operation.name, operation.params⟩, ⟨.iterate, operation.name, operation.params⟩]
    else [⟨.get, operation.name, operation.params⟩]
  | .mutation => [⟨.mutate, operation.name, operation.params⟩]

theorem placeOf_lt {models : List Model} {operation : OperationDeclaration} {place : Nat}
    (h : placeOf models operation = some place) : place < models.length :=
  (List.findIdx?_eq_some_iff_getElem.1 h).1

/-- Every operation belongs to one model or to none, and is counted once. -/
theorem shares_perm (models : List Model) (operations : List OperationDeclaration) :
    (shares models operations).Perm operations := by
  classical
  -- Only the part of its own place counts an operation, and there as often as the whole list does.
  rw [List.perm_iff_count]
  intro operation
  have hcount : ∀ place : Option Nat,
      (operations.filter fun other => placeOf models other = place).count operation =
        if placeOf models operation = place then operations.count operation else 0 := by
    intro place
    split
    · next h => rw [List.count_filter (by simpa using h)]
    · next h =>
      refine List.count_eq_zero.2 fun hmem => h ?_
      simpa using (List.mem_filter.1 hmem).2
  rw [shares, List.count_append, List.count_flatMap, unowned, hcount]
  simp only [Function.comp_def, operationsAt, hcount]
  cases hplace : placeOf models operation with
  | none => simp
  | some place =>
    have hone : (List.range models.length).count place = 1 :=
      List.count_eq_one_of_mem List.nodup_range (List.mem_range.2 (placeOf_lt hplace))
    simp only [reduceCtorEq, if_false, Option.some.injEq, Nat.zero_add]
    rw [List.sum_map_eq_nsmul_single place _ fun other hne _ => if_neg hne.symm, hone, one_nsmul,
      if_pos rfl]

/-! ## Looking up a return type -/

/-- How a type that a model claims returns the model. -/
def shapeOn (model type : String) : ReturnShape :=
  if type = model then .single
  else if type = "Model" ++ model ++ "Connection" then .page
  else .list

theorem get?_returnTypes (model type : String) :
    Entries.get? type (returnTypes model) =
      if type ∈ returns model then some (model, shapeOn model type) else none := by
  simp only [returnTypes, returns, shapeOn, Entries.get?, List.mem_cons, List.not_mem_nil, or_false,
    eq_comm (b := type)]
  split
  · simp_all
  · split
    · simp_all
    · split <;> simp_all

theorem ne_page (model : String) : model ≠ "Model" ++ model ++ "Connection" := fun h => by
  have := congrArg String.length h
  simp only [String.length_append] at this
  have hmodel : "Model".length = 5 := rfl
  omega

/-- On a model that claims the return type, an operation becomes its image. -/
theorem accessorsOf_shapeOn (model : String) (root : OperationRoot)
    (operation : OperationDeclaration) :
    accessorsOf root (shapeOn model (TypeText.unmarked operation.returns)) operation =
      imageOn model root operation := by
  cases root with
  | mutation => rfl
  | query =>
    rw [shapeOn, imageOn]
    by_cases hsingle : TypeText.unmarked operation.returns = model
    · have hpage : TypeText.unmarked operation.returns ≠ "Model" ++ model ++ "Connection" := by
        rw [hsingle]
        exact ne_page model
      rw [if_pos hsingle, if_neg hpage]
      rfl
    · rw [if_neg hsingle]
      split <;> rfl

/-- The owner of a return type is the model at the place where an operation with it belongs. -/
theorem owner?_eq (g : ModelGraph) (operation : OperationDeclaration) :
    owner? g (TypeText.unmarked operation.returns) =
      (placeOf g.models operation).bind fun place => g.models[place]?.map fun model =>
        (model.name, shapeOn model.name (TypeText.unmarked operation.returns)) := by
  rw [owner?, placeOf]
  induction g.models with
  | nil => rfl
  | cons model models ih =>
    rw [List.flatMap_cons, Entries.get?_append, get?_returnTypes, ih, List.findIdx?_cons]
    by_cases hclaims : TypeText.unmarked operation.returns ∈ returns model.name
    · simp [hclaims]
    · rw [if_neg hclaims, if_neg (by simpa using hclaims), Option.none_or, Option.bind_map]
      rfl

/-- Among models with the names of the owners, the first with the name of the owner of an operation
stands at the owner's place. -/
theorem findIdx?_name {owners models : List Model} {operation : OperationDeclaration} {place : Nat}
    {owner : Model} (h : placeOf owners operation = some place)
    (howner : owners[place]? = some owner)
    (hnames : models.map Model.name = owners.map Model.name) :
    models.findIdx? (fun model => model.name = owner.name) = some place := by
  obtain ⟨hlt, hclaims, hfirst⟩ := List.findIdx?_eq_some_iff_getElem.1 h
  obtain ⟨_, rfl⟩ := List.getElem?_eq_some_iff.1 howner
  have hmap : ∀ models : List Model,
      models.findIdx? (fun model => model.name = owners[place].name) =
        (models.map Model.name).findIdx? (· = owners[place].name) := fun models => by
    rw [List.findIdx?_map]
    rfl
  rw [hmap, hnames, ← hmap]
  -- A model with the owner's name claims what the owner claims, so none stands before it.
  refine List.findIdx?_eq_some_iff_getElem.2 ⟨hlt, by simp, fun j hj hname => hfirst j hj ?_⟩
  rw [of_decide_eq_true hname]
  exact hclaims

/-! ## Attaching -/

/-- The state `after` is `before` with the operations of a root attached to the models that they
belong to among `owners`. -/
structure Attached (owners : List Model) (root : OperationRoot)
    (operations : List OperationDeclaration) (before after : State) : Prop where
  /-- Every model has the images of its operations behind what it had. -/
  models : ∀ place : Nat,
    after.graph.models[place]? = before.graph.models[place]?.map fun model : Model =>
      { model with accessors := model.accessors ++
        (operationsAt owners place operations).flatMap (imageOn model.name root) }
  discovered : after.graph.discovered = before.graph.discovered
  /-- The operations without a model are warned of behind what was warned of before. -/
  warnings : after.warnings = before.warnings ++ (unowned owners operations).map fun operation =>
    .unresolvedReturn root operation.name operation.returns

namespace Attached

variable {owners : List Model} {root : OperationRoot}
  {first second : List OperationDeclaration} {before middle after : State}

theorem nil : Attached owners root [] before before where
  models place := by simp [operationsAt]
  discovered := rfl
  warnings := by simp [unowned]

theorem append (h : Attached owners root first before middle)
    (h' : Attached owners root second middle after) :
    Attached owners root (first ++ second) before after where
  models place := by
    rw [h'.models, h.models, Option.map_map]
    congr 1
    funext model
    simp only [Function.comp_apply, operationsAt, List.filter_append, List.flatMap_append,
      List.append_assoc]
  discovered := h'.discovered.trans h.discovered
  warnings := by
    rw [h'.warnings, h.warnings, unowned, unowned, unowned, List.filter_append, List.map_append,
      List.append_assoc]

/-- Attaching operations renames no model. -/
theorem map_name (h : Attached owners root first before after) :
    after.graph.models.map Model.name = before.graph.models.map Model.name := by
  refine List.ext_getElem? fun place => ?_
  rw [List.getElem?_map, List.getElem?_map, h.models, Option.map_map]
  rfl

end Attached

variable {owners : ModelGraph} {state : State}

/-- One operation is attached to the model that it belongs to, or warned of. -/
theorem attached_attach (root : OperationRoot) (operation : OperationDeclaration)
    (hnames : state.graph.models.map Model.name = owners.models.map Model.name) :
    Attached owners.models root [operation] state (attach owners root state operation) := by
  rw [attach, owner?_eq]
  cases hplace : placeOf owners.models operation with
  | none =>
    refine ⟨fun place => ?_, rfl, ?_⟩
    · simp [operationsAt, hplace]
    · simp [unowned, hplace]
  | some place =>
    have hlt := placeOf_lt hplace
    have howner : owners.models[place]? = some owners.models[place] :=
      List.getElem?_eq_getElem hlt
    have hfound := findIdx?_name hplace howner hnames
    simp only [Option.bind_some, howner, Option.map_some, accessorsOf_shapeOn]
    refine ⟨fun other => ?_, rfl, ?_⟩
    · have hname : ∀ model, state.graph.models[place]? = some model →
          model.name = owners.models[place].name := fun model hm => by
        have := congrArg (·[place]?) hnames
        simpa [hm, howner] using this
      simp only [ModelGraph.update, ModelGraph.updateFirst_eq_modify hfound,
        List.getElem?_modify]
      by_cases hother : place = other
      · subst hother
        cases hm : state.graph.models[place]? with
        | none => rfl
        | some model => simp [operationsAt, hplace, hname model hm, Model.addAccessors]
      · simp [operationsAt, hplace, hother]
    · simp [unowned, hplace]

theorem attached_attachAll (root : OperationRoot) :
    ∀ (operations : List OperationDeclaration) {state : State},
      state.graph.models.map Model.name = owners.models.map Model.name →
      Attached owners.models root operations state (attachAll owners root operations state)
  | [], _, _ => .nil
  | operation :: operations, _, hnames => by
      have hfirst := attached_attach root operation hnames
      exact hfirst.append (attached_attachAll root operations (hfirst.map_name.trans hnames))

/-! ## The whole run -/

/-- The state in which those operations of a root are attached that stand behind `done`. -/
def stateBehind (queries : List OperationDeclaration) (before : State) (root : OperationRoot)
    (done : List OperationDeclaration) : State :=
  match root with
  | .query => attachAll before.graph .query done before
  | .mutation =>
    attachAll before.graph .mutation done (attachAll before.graph .query queries before)

/-- The state `after` is `before` with all operations attached to the models that they belong to. -/
structure Classified (queries mutations : List OperationDeclaration) (before after : State) :
    Prop where
  /-- Each operation belongs to one model or to none; none is lost, and none is counted twice. -/
  shared : (shares before.graph.models queries).Perm queries ∧
    (shares before.graph.models mutations).Perm mutations
  /-- Every model has, behind what it had, the images of its queries and then of its mutations, and
  is unchanged otherwise. -/
  models : ∀ place : Nat,
    after.graph.models[place]? = before.graph.models[place]?.map fun model : Model =>
      { model with accessors := model.accessors ++
        ((operationsAt before.graph.models place queries).flatMap (imageOn model.name .query) ++
          (operationsAt before.graph.models place mutations).flatMap
            (imageOn model.name .mutation)) }
  discovered : after.graph.discovered = before.graph.discovered
  /-- The operations without a model are warned of in order, queries first. -/
  warnings : after.warnings = before.warnings ++
    ((unowned before.graph.models queries).map fun operation =>
      .unresolvedReturn .query operation.name operation.returns) ++
    (unowned before.graph.models mutations).map fun operation =>
      .unresolvedReturn .mutation operation.name operation.returns
  /-- Whenever an operation with an owner is attached, the owner's name leads to the model at the
  place where the operation belongs. -/
  found : ∀ operation place, placeOf before.graph.models operation = some place →
    ∀ root done, ∃ owner model,
      owner? before.graph (TypeText.unmarked operation.returns) = some owner ∧
        (stateBehind queries before root done).graph.find? owner.1 = some model ∧
        (stateBehind queries before root done).graph.models[place]? = some model

section Run

variable {before after : State} {queries mutations : List OperationDeclaration}

/-- While operations are attached, no model gets lost. -/
theorem map_name_stateBehind (root : OperationRoot) (done : List OperationDeclaration) :
    (stateBehind queries before root done).graph.models.map Model.name =
      before.graph.models.map Model.name := by
  have hqueries : Attached before.graph.models .query queries before
      (attachAll before.graph .query queries before) := attached_attachAll .query queries rfl
  cases root with
  | query => exact (attached_attachAll .query done rfl).map_name
  | mutation =>
    exact (attached_attachAll .mutation done hqueries.map_name).map_name.trans hqueries.map_name

/-- The owner of a return type is found by its name in every graph that has the same names. -/
theorem exists_find?_of_placeOf {owners g : ModelGraph} {operation : OperationDeclaration}
    {place : Nat} (h : placeOf owners.models operation = some place)
    (hnames : g.models.map Model.name = owners.models.map Model.name) :
    ∃ owner model, owner? owners (TypeText.unmarked operation.returns) = some owner ∧
      g.find? owner.1 = some model ∧ g.models[place]? = some model := by
  have hplace := placeOf_lt h
  have howner : owners.models[place]? = some owners.models[place] := List.getElem?_eq_getElem hplace
  have hlength := congrArg List.length hnames
  rw [List.length_map, List.length_map] at hlength
  have hlt : place < g.models.length := hlength ▸ hplace
  have hmodel : g.models[place]? = some g.models[place] := List.getElem?_eq_getElem hlt
  have hlookup := owner?_eq owners operation
  rw [h, Option.bind_some, howner, Option.map_some] at hlookup
  refine ⟨_, g.models[place], hlookup, ?_, hmodel⟩
  rw [ModelGraph.find?, List.find?_eq_bind_findIdx?_getElem?, findIdx?_name h howner hnames,
    Option.bind_some, hmodel]

/-- What a run that goes through makes of a state. -/
theorem classified_stateBehind (before : State) (queries mutations : List OperationDeclaration) :
    Classified queries mutations before (stateBehind queries before .mutation mutations) := by
  have hqueries : Attached before.graph.models .query queries before
      (attachAll before.graph .query queries before) := attached_attachAll .query queries rfl
  have hmutations := attached_attachAll .mutation mutations hqueries.map_name
  exact {
    shared := ⟨shares_perm _ queries, shares_perm _ mutations⟩
    models := fun place => by
      rw [stateBehind, hmutations.models, hqueries.models, Option.map_map]
      congr 1
      funext model
      rw [Function.comp_apply, List.append_assoc]
    discovered := hmutations.discovered.trans hqueries.discovered
    warnings := by rw [stateBehind, hmutations.warnings, hqueries.warnings]
    found := fun operation place hplace root done =>
      exists_find?_of_placeOf hplace (map_name_stateBehind root done) }

/-- What the operations make of a state is determined. -/
theorem Classified.unique {other : State} (h : Classified queries mutations before after)
    (h' : Classified queries mutations before other) : after = other := by
  have hmodels : after.graph.models = other.graph.models :=
    List.ext_getElem? fun place => (h.models place).trans (h'.models place).symm
  have hdiscovered := h.discovered.trans h'.discovered.symm
  have hwarnings := h.warnings.trans h'.warnings.symm
  rcases after with ⟨⟨_, _⟩, _⟩
  rcases other with ⟨⟨_, _⟩, _⟩
  cases hmodels
  cases hdiscovered
  cases hwarnings
  rfl

/-- The operations of a schema are attached exactly if the schema tells its queries and its
mutations, and then every one of them goes to the model that it belongs to, in order, or is warned
of. -/
theorem execute_classify_eq_ok_iff {view : SchemaView} :
    (classify view).execute before = (.ok (), after) ↔
      ∃ queries mutations, view.operations .query = .ok queries ∧
        view.operations .mutation = .ok mutations ∧
        Classified queries mutations before after := by
  rw [execute_classify]
  constructor
  · intro h
    cases hqueries : view.operations .query with
    | error e =>
      rw [hqueries] at h
      cases h
    | ok queries =>
      cases hmutations : view.operations .mutation with
      | error e =>
        rw [hqueries, hmutations] at h
        cases h
      | ok mutations =>
        rw [hqueries, hmutations] at h
        cases h
        exact ⟨queries, mutations, rfl, rfl, classified_stateBehind before queries mutations⟩
  · rintro ⟨queries, mutations, hqueries, hmutations, h⟩
    rw [hqueries, hmutations, h.unique (classified_stateBehind before queries mutations)]
    rfl

end Run

end Session

end SchemaAccess
