import SchemaAccess.Proofs.Session.Classification
import SchemaAccess.Proofs.Types.Pages

/-!
# Return types that are type references

An operation belongs to a model whose name its return type spells: marks aside, the model, a list of
it or its page type.  Where the names of the models are apart, that is a matter of the operation and
the one model.  Neither the other models nor their order has a part in it, and the pages that are
listed are those that fields with page types lead to.

* `TypeRef.Returns` — the type spells the name of the model in one of the three ways.
* `mem_returns_print_iff` — the texts that a model claims, as type references.
* `placeOf_eq_some_iff`, `placeOf_eq_none_iff` — where names are apart, the claims decide.
* `TypedOperation.accessorsOn` — what an operation becomes on a model, from the two of them alone.
* `Resolved`, `execute_classify_typed` — what classifying typed operations makes of a state.
-/

namespace SchemaAccess

open Text TypeText

/-- Marks aside, the type is the model, a list of it or its page type. -/
def TypeRef.Returns (t : TypeRef) (model : String) : Prop :=
  t.unmarked = .named model false ∨ t.unmarked = .list (.named model false) false ∨
    t.unmarked = .page model

instance (t : TypeRef) (model : String) : Decidable (t.Returns model) :=
  inferInstanceAs (Decidable (_ ∨ _ ∨ _))

/-- A query or mutation with a type reference for its return type. -/
structure TypedOperation where
  name : String
  params : Table String
  returns : TypeRef
  isName : IsName returns.baseName.toList

namespace TypedOperation

variable (operation : TypedOperation)

/-- The operation as a schema declares it. -/
def declaration : OperationDeclaration :=
  ⟨operation.name, operation.params, operation.returns.print⟩

/-- What an operation becomes on a model.  A query is for the pages of the model if its return type
is the page type that fields have whose elements are of the model. -/
def accessorsOn (model : String) : OperationRoot → List Accessor
  | .query =>
    if IsPageOf model operation.returns.print then
      [⟨.list, operation.name, operation.params⟩, ⟨.iterate, operation.name, operation.params⟩]
    else if operation.returns.Returns model then [⟨.get, operation.name, operation.params⟩]
    else []
  | .mutation =>
    if operation.returns.Returns model then [⟨.mutate, operation.name, operation.params⟩] else []

variable {operation} {model : String}

/-- An operation becomes something on the models that it returns, and nothing on others. -/
theorem accessorsOn_eq_nil_iff (hm : IsName model.toList) (root : OperationRoot) :
    operation.accessorsOn model root = [] ↔ ¬ operation.returns.Returns model := by
  cases root with
  | mutation =>
    rw [accessorsOn]
    split <;> simp_all
  | query =>
    have hpage := isPageOf_iff (t := operation.returns) operation.isName hm
    rw [accessorsOn]
    split
    · next hp => simp [TypeRef.Returns, hpage.1 hp]
    · split <;> simp_all

end TypedOperation

namespace Session

variable {t : TypeRef} {model : String}

/-! ## Claims -/

theorem isName_page (h : IsName model.toList) :
    IsName ("Model" ++ model ++ "Connection").toList := by
  have hletters : ∀ c ∈ "odel".toList ++ (model.toList ++ "Connection".toList),
      isNameChar c = true := by
    intro c hc
    rcases List.mem_append.1 hc with hc | hc
    · exact List.all_eq_true.1 (by decide : "odel".toList.all isNameChar = true) c hc
    · rcases List.mem_append.1 hc with hc | hc
      · exact Loose.isNameChar_of_mem h hc
      · exact List.all_eq_true.1 (by decide : "Connection".toList.all isNameChar = true) c hc
  rw [String.toList_append, String.toList_append, List.append_assoc]
  exact ⟨by decide, hletters⟩

/-- The texts that a model claims are, of the type references, those that return it. -/
theorem mem_returns_print_iff (ht : IsName t.baseName.toList) (hm : IsName model.toList) :
    TypeText.unmarked t.print ∈ returns model ↔ t.Returns model := by
  have hchars : ∀ other : String, t.unmarked.print = other ↔ t.unmarked.chars = other.toList :=
    fun other => by rw [← String.toList_inj, TypeRef.chars_print]
  have hlist : ("[" ++ model ++ "]").toList = '[' :: model.toList ++ [']'] := by simp
  simp only [returns, List.mem_cons, List.not_mem_nil, or_false]
  rw [unmarked_print ht, hchars, hchars, hchars, hlist, TypeRef.chars_unmarked_eq_iff hm,
    TypeRef.chars_unmarked_eq_iff (isName_page hm), TypeRef.chars_unmarked_eq_bracketed_iff ht hm,
    or_comm (a := t.unmarked = .named ("Model" ++ model ++ "Connection") false)]
  rfl

section Apart

variable {g : ModelGraph} (h : g.NamesApart) {operation : OperationDeclaration}

include h

/-- A return type is claimed by one model at most. -/
theorem eq_of_mem_returns {type : String} {own other : Model} (ho : own ∈ g.models)
    (ho' : other ∈ g.models) (hown : type ∈ returns own.name)
    (hother : type ∈ returns other.name) : own.name = other.name := by
  by_contra hne
  exact disjoint_returns (h.hasNames own ho) (h.hasNames other ho') hne (h.pages own ho other ho')
    (h.pages other ho' own ho) hown hother

/-- An operation belongs to the model that claims its return type. -/
theorem placeOf_eq_some_iff {place : Nat} {own : Model} (hown : g.models[place]? = some own) :
    placeOf g.models operation = some place ↔
      TypeText.unmarked operation.returns ∈ returns own.name := by
  obtain ⟨hlt, rfl⟩ := List.getElem?_eq_some_iff.1 hown
  rw [placeOf, List.findIdx?_eq_some_iff_getElem]
  refine ⟨fun hplace => of_decide_eq_true hplace.2.1, fun hclaims => ?_⟩
  refine ⟨hlt, decide_eq_true hclaims, fun other hother hearlier => ?_⟩
  -- a model that claimed the type before would have the same name
  have hne : g.models[other].name ≠ g.models[place].name :=
    List.pairwise_iff_getElem.1 (List.pairwise_map.1 h.nodup) other place _ hlt hother
  exact hne (eq_of_mem_returns h (List.getElem_mem _) (List.getElem_mem _)
    (of_decide_eq_true hearlier) hclaims)

end Apart

theorem placeOf_eq_none_iff {models : List Model} {operation : OperationDeclaration} :
    placeOf models operation = none ↔
      ∀ model ∈ models, TypeText.unmarked operation.returns ∉ returns model.name := by
  rw [placeOf, List.findIdx?_eq_none_iff]
  simp

/-! ## Typed operations -/

/-- On a model that it returns, an operation becomes its image; elsewhere it becomes nothing. -/
theorem accessorsOn_eq (hm : IsName model.toList) (root : OperationRoot)
    (operation : TypedOperation) :
    operation.accessorsOn model root =
      if operation.returns.Returns model then imageOn model root operation.declaration else [] := by
  split
  · next hreturns =>
    cases root with
    | mutation => exact if_pos hreturns
    | query =>
      have hpage : TypeText.unmarked operation.declaration.returns =
          "Model" ++ model ++ "Connection" ↔ IsPageOf model operation.returns.print := by
        rw [isPageOf_iff operation.isName hm, TypedOperation.declaration,
          unmarked_print operation.isName, ← String.toList_inj, TypeRef.chars_print,
          TypeRef.chars_unmarked_eq_iff (isName_page hm), TypeRef.page]
      rw [TypedOperation.accessorsOn, imageOn]
      simp only [hpage, hreturns, if_true]
      rfl
  · next hreturns => exact (TypedOperation.accessorsOn_eq_nil_iff hm root).2 hreturns

/-- The images of the operations at the place of a model are what all operations become on it. -/
theorem flatMap_imageOn_operationsAt {g : ModelGraph} (h : g.NamesApart) {place : Nat} {own : Model}
    (hown : g.models[place]? = some own) (root : OperationRoot) (typed : List TypedOperation) :
    (operationsAt g.models place (typed.map TypedOperation.declaration)).flatMap
        (imageOn own.name root) =
      typed.flatMap fun operation => operation.accessorsOn own.name root := by
  have hm : IsName own.name.toList := h.hasNames own (List.mem_of_getElem? hown)
  induction typed with
  | nil => rfl
  | cons operation typed ih =>
    have hplace : placeOf g.models operation.declaration = some place ↔
        operation.returns.Returns own.name := by
      rw [placeOf_eq_some_iff h hown]
      exact mem_returns_print_iff operation.isName hm
    rw [List.flatMap_cons, ← ih, accessorsOn_eq hm, List.map_cons, operationsAt, List.filter_cons]
    by_cases hreturns : operation.returns.Returns own.name
    · rw [if_pos (decide_eq_true (hplace.2 hreturns)), if_pos hreturns, List.flatMap_cons]
      rfl
    · have hother : ¬ decide (placeOf g.models operation.declaration = some place) = true :=
        fun hat => hreturns (hplace.1 (of_decide_eq_true hat))
      rw [if_neg hother, if_neg hreturns, List.nil_append]
      rfl

/-- True of an operation that returns no model of the graph. -/
def returnsNone (g : ModelGraph) (operation : TypedOperation) : Bool :=
  g.models.all fun model => !decide (operation.returns.Returns model.name)

/-- The warnings of the operations that return no model of the graph. -/
def unresolved (g : ModelGraph) (root : OperationRoot) (typed : List TypedOperation) :
    List Warning :=
  (typed.filter (returnsNone g)).map fun operation =>
    .unresolvedReturn root operation.name operation.returns.print

theorem map_unowned {g : ModelGraph} (h : g.HasNames) (root : OperationRoot)
    (typed : List TypedOperation) :
    ((unowned g.models (typed.map TypedOperation.declaration)).map fun operation =>
        Warning.unresolvedReturn root operation.name operation.returns) =
      unresolved g root typed := by
  have hnone : ∀ operation : TypedOperation,
      decide (placeOf g.models operation.declaration = none) = returnsNone g operation := by
    intro operation
    rw [Bool.eq_iff_iff, decide_eq_true_iff, placeOf_eq_none_iff, returnsNone, List.all_eq_true]
    refine forall₂_congr fun model hm => ?_
    rw [TypedOperation.declaration, mem_returns_print_iff operation.isName (h model hm)]
    simp
  have hfilter : (fun operation => decide (placeOf g.models operation = none)) ∘
      TypedOperation.declaration = returnsNone g := funext hnone
  rw [unowned, List.filter_map, List.map_map, hfilter]
  rfl

/-! ## The whole run -/

/-- What a model gets: what the queries become on it, then what the mutations become on it. -/
def gained (typed : OperationRoot → List TypedOperation) (model : String) : List Accessor :=
  ((typed .query).flatMap fun operation => operation.accessorsOn model .query) ++
    (typed .mutation).flatMap fun operation => operation.accessorsOn model .mutation

/-- The state `after` is `before` with typed operations attached to the models that they return. -/
structure Resolved (typed : OperationRoot → List TypedOperation) (before after : State) :
    Prop where
  /-- What a model gets depends on the operations and on its name; nothing else about it changes. -/
  find? : ∀ name, after.graph.find? name = (before.graph.find? name).map fun model : Model =>
    { model with accessors := model.accessors ++ gained typed name }
  /-- An operation becomes something exactly on a model that it returns, -/
  attached : ∀ root, ∀ operation ∈ typed root, ∀ model ∈ before.graph.models,
    operation.accessorsOn model.name root ≠ [] ↔ operation.returns.Returns model.name
  /-- and there is one such model at most. -/
  unique : ∀ root, ∀ operation ∈ typed root, ∀ model ∈ before.graph.models,
    ∀ other ∈ before.graph.models, operation.returns.Returns model.name →
      operation.returns.Returns other.name → model = other
  names : after.graph.models.map Model.name = before.graph.models.map Model.name
  discovered : after.graph.discovered = before.graph.discovered
  /-- The operations that return no model are warned of. -/
  warnings : after.warnings = before.warnings ++
    (unresolved before.graph .query (typed .query) ++
      unresolved before.graph .mutation (typed .mutation))

/-- Typed operations of any schema are attached to the models that they return.  A query becomes a
listing accessor of a model exactly if its return type is a page type in whose place fields have the
list of that model. -/
theorem execute_classify_typed {view : SchemaView} {typed : OperationRoot → List TypedOperation}
    (hview : ∀ root, view.operations root = .ok ((typed root).map TypedOperation.declaration))
    {before : State} (hapart : before.graph.NamesApart) :
    ∃ after, (classify view).execute before = (.ok (), after) ∧ Resolved typed before after := by
  have hrun := classified_stateBehind before ((typed .query).map TypedOperation.declaration)
    ((typed .mutation).map TypedOperation.declaration)
  refine ⟨_, execute_classify_eq_ok_iff.2 ⟨_, _, hview .query, hview .mutation, hrun⟩, ?_⟩
  generalize stateBehind ((typed .query).map TypedOperation.declaration) before .mutation
    ((typed .mutation).map TypedOperation.declaration) = after at hrun
  have hmodels : after.graph.models =
      before.graph.models.map fun model : Model =>
        { model with accessors := model.accessors ++ gained typed model.name } := by
    refine List.ext_getElem? fun place => ?_
    rw [hrun.models, List.getElem?_map]
    cases hown : before.graph.models[place]? with
    | none => rfl
    | some own =>
      rw [Option.map_some, Option.map_some, flatMap_imageOn_operationsAt hapart hown,
        flatMap_imageOn_operationsAt hapart hown, gained]
  exact {
    find? := fun name => by
      rw [ModelGraph.find?, hmodels, List.find?_map]
      refine Option.map_congr fun model hmodel => ?_
      have hname : model.name = name := of_decide_eq_true (List.find?_some hmodel :)
      rw [hname]
    attached := fun root operation _ model hm => by
      rw [Ne, TypedOperation.accessorsOn_eq_nil_iff (hapart.hasNames model hm), not_not]
    unique := fun root operation _ model hm other ho hmodel hother => by
      have hname : model.name = other.name := eq_of_mem_returns hapart hm ho
        ((mem_returns_print_iff operation.isName (hapart.hasNames model hm)).2 hmodel)
        ((mem_returns_print_iff operation.isName (hapart.hasNames other ho)).2 hother)
      exact List.inj_on_of_nodup_map hapart.nodup hm ho hname
    names := by
      rw [hmodels, List.map_map]
      rfl
    discovered := hrun.discovered
    warnings := by
      rw [hrun.warnings, map_unowned hapart.hasNames, map_unowned hapart.hasNames,
        List.append_assoc] }

/-- One post, required. -/
def onePost : TypedOperation :=
  ⟨"getPost", Table.ofList [("id", "ID!")], .named "Post" true, by decide⟩

/-- Posts page by page. -/
def pagedPosts : TypedOperation :=
  ⟨"listPosts", Table.ofList [("limit", "Int")], .page "Post", by decide⟩

/-- A list of posts. -/
def somePosts : TypedOperation :=
  ⟨"searchPosts", Table.empty, .list (.named "Post" true) true, by decide⟩

/-- A list of pages, which is no page. -/
def postPages : TypedOperation :=
  ⟨"postPages", Table.empty, .list (.page "Post") false, by decide⟩

/-- A blog, changed. -/
def changedBlog : TypedOperation :=
  ⟨"updateBlog", Table.empty, .named "Blog" false, by decide⟩

def blogOperations : OperationRoot → List TypedOperation
  | .query => [onePost, pagedPosts, somePosts, postPages]
  | .mutation => [changedBlog]

def blogOperationsView : SchemaView :=
  .ofLists [] [] (fun root => (blogOperations root).map TypedOperation.declaration) [] []

/-- Two models, of which one has the name of a page type of a model that is not there. -/
def pageNamedGraph : ModelGraph :=
  ⟨[.ofFields "Blog" Table.empty [], .ofFields "ModelTagConnection" Table.empty [],
    .ofFields "Post" Table.empty []], ["Blog", "ModelTagConnection", "Post"]⟩

theorem execute_classify_typed_blog :
    (∀ root, blogOperationsView.operations root =
        .ok ((blogOperations root).map TypedOperation.declaration)) ∧
      pageNamedGraph.NamesApart ∧
      ∃ after, (classify blogOperationsView).execute ⟨pageNamedGraph, []⟩ = (.ok (), after) ∧
        Resolved blogOperations ⟨pageNamedGraph, []⟩ after ∧
        ["Blog", "ModelTagConnection", "Post"].map (fun name =>
            (after.graph.find? name).map
              (·.accessors.map fun made => (made.kind, made.operation))) =
          [some [(.mutate, "updateBlog")], some [],
            some [(.get, "getPost"), (.list, "listPosts"), (.iterate, "listPosts"),
              (.get, "searchPosts")]] := by
  have hnames : ∀ model ∈ pageNamedGraph.models, IsName model.name.toList := by decide
  have hapart : pageNamedGraph.NamesApart := ⟨by decide, hnames, by decide⟩
  have hview : ∀ root, blogOperationsView.operations root =
      .ok ((blogOperations root).map TypedOperation.declaration) := fun _ => rfl
  have hclassify : ∃ after,
      (classify blogOperationsView).execute ⟨pageNamedGraph, []⟩ = (.ok (), after) ∧
        Resolved blogOperations ⟨pageNamedGraph, []⟩ after := execute_classify_typed hview hapart
  obtain ⟨after, hrun, hresolved⟩ := hclassify
  refine ⟨hview, hapart, after, hrun, hresolved, ?_⟩
  simp only [hresolved.find?]
  decide +kernel

end Session

end SchemaAccess
