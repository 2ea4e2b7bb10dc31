import Mathlib.Order.Bounds.Basic
import Mathlib.Data.String.Basic
import SchemaAccess.Proofs.Graph.Building
import SchemaAccess.Proofs.Table.Entries

/-!
# What building promises

Building answers in one of three ways, and each is said here in terms of the declarations and the
scanned fields alone: a name in the build set is not declared, the fields of a model cannot be had,
or there is a graph with one model for each declaration in the build set.

* `smallest?_eq_some_iff`, `exists_of_buildModels_eq_error` — which of several faults is told.
* `foldl_connect` — the connections of a model, all at once.
* `Model.IsScanned` — all that a built model holds, field by field.
* `Answers`, `answers_build` — the three answers, and that building gives one of them.
-/

namespace SchemaAccess

/-! ## Faults

Of several names that are not declared the smallest is told, and of several models without fields
the first.  Both are said without the recursion that finds them. -/

namespace ModelGraph

/-- The name that is told is the least of those that could be. -/
theorem smallest?_eq_some_iff {names : List String} {name : String} :
    smallest? names = some name ↔ IsLeast {other | other ∈ names} name := by
  have hsorted : (names.mergeSort fun a b => decide (a ≤ b)).Pairwise fun a b =>
      decide (a ≤ b) = true :=
    List.pairwise_mergeSort
      (fun a b c hab hbc => decide_eq_true ((of_decide_eq_true hab).trans (of_decide_eq_true hbc)))
      (fun a b => by simpa using le_total a b) names
  have hmem : ∀ other, other ∈ names.mergeSort (fun a b => decide (a ≤ b)) ↔ other ∈ names :=
    fun _ => List.mem_mergeSort
  rw [smallest?]
  constructor
  · intro h
    obtain ⟨rest, hrest⟩ := List.head?_eq_some_iff.1 h
    rw [hrest] at hsorted hmem
    refine ⟨(hmem name).1 List.mem_cons_self, fun other hother => ?_⟩
    rcases List.mem_cons.1 ((hmem other).2 hother) with rfl | hother
    · exact le_rfl
    · exact of_decide_eq_true ((List.pairwise_cons.1 hsorted).1 other hother)
  · intro h
    cases hlist : names.mergeSort fun a b => decide (a ≤ b) with
    | nil => simpa [hlist] using (hmem name).2 h.1
    | cons first rest =>
      rw [hlist] at hsorted hmem
      have hname := (hmem name).2 h.1
      have hfirst : name ≤ first := h.2 ((hmem first).1 List.mem_cons_self)
      rcases List.mem_cons.1 hname with rfl | hname
      · rfl
      · rw [le_antisymm hfirst (of_decide_eq_true ((List.pairwise_cons.1 hsorted).1 name hname))]
        rfl

/-- If building fails, it does so at the first declaration whose fields cannot be had. -/
theorem exists_of_buildModels_eq_error {view : SchemaView} {enums : List String} {error : Error} :
    ∀ {declarations : List ModelDeclaration}, buildModels view enums declarations = .error error →
      ∃ before declaration after, declarations = before ++ declaration :: after ∧
        (∀ earlier ∈ before, ∃ scanned, view.fields earlier.name = .ok scanned) ∧
        view.fields declaration.name = .error error
  | [], h => by cases h
  | declaration :: declarations, h => by
      rw [buildModels] at h
      cases hfields : view.fields declaration.name with
      | error e =>
        rw [hfields] at h
        cases h
        exact ⟨[], declaration, declarations, rfl, by simp, hfields⟩
      | ok scanned =>
        cases hmodels : buildModels view enums declarations with
        | ok models =>
          rw [hfields, hmodels] at h
          cases h
        | error e =>
          rw [hfields, hmodels] at h
          cases h
          obtain ⟨before, failing, after, rfl, hbefore, hfails⟩ :=
            exists_of_buildModels_eq_error hmodels
          refine ⟨declaration :: before, failing, after, rfl, fun earlier he => ?_, hfails⟩
          rcases List.mem_cons.1 he with rfl | he
          · exact ⟨scanned, hfields⟩
          · exact hbefore earlier he

end ModelGraph

/-! ## Models

A built model holds tables and lists that are made from the scanned fields in several passes.  Each
is characterised by itself: which fields are in it, and in which order. -/

/-- True of a scanned field that makes a connection: it has a page type, or the declaration has a
relationship of its name. -/
def ModelDeclaration.connects (declaration : ModelDeclaration) (field : FieldDeclaration) : Bool :=
  field.paginated || declaration.relationships.contains field.name

/-- The model of a declaration, a registry of enums and the scanned fields. -/
structure Model.IsScanned (declaration : ModelDeclaration) (enums : List String)
    (scanned : List FieldDeclaration) (model : Model) : Prop where
  name : model.name = declaration.name
  /-- The fields stand in the places of their first entries and have the types of their last. -/
  fields : model.fields.keys = (scanned.map FieldDeclaration.name).eraseDups
  fieldType? : ∀ field, model.fieldType? field =
    (scanned.reverse.find? fun entry => entry.name = field).map FieldDeclaration.type
  /-- Every field is either primitive or complex, both in the order of the fields. -/
  partition : (model.primitive ++ model.complex).Perm model.fields.keys
  disjoint : model.primitive.Disjoint model.complex
  primitive_sublist : model.primitive.Sublist model.fields.keys
  complex_sublist : model.complex.Sublist model.fields.keys
  mem_primitive_iff : ∀ field, field ∈ model.primitive ↔
    ∃ type, model.fieldType? field = some type ∧
    (TypeText.baseName type ∈ Model.scalars ∨ TypeText.baseName type ∈ enums)
  json_sublist : model.json.Sublist model.fields.keys
  mem_json_iff : ∀ field, field ∈ model.json ↔ ∃ type, model.fieldType? field = some type ∧
    TypeText.unmarked type = Model.jsonScalar
  fragments : model.fragments.entries =
    [(Model.defaultFragment, model.primitive.map Selection.field)]
  /-- The connections stand in the order of the first entries that make them, with the types of the
  fields, marks aside. -/
  connections : model.connections.keys =
    ((scanned.filter declaration.connects).map FieldDeclaration.name).eraseDups
  connectionType : ∀ field ∈ model.connections.keys,
    model.connections.get? field = (model.fieldType? field).map TypeText.unmarked
  accessors : model.accessors = []
  hooks : model.hooks.entries = []

namespace ModelGraph

variable {fields : Table String} {p : String → Bool}

theorem fieldsWhere_sublist (p : String → Bool) (fields : Table String) :
    (Model.fieldsWhere p fields).Sublist fields.keys :=
  List.filter_sublist.map Prod.fst

/-- The fields of a class are those with a type of the class. -/
theorem mem_fieldsWhere_iff {field : String} :
    field ∈ Model.fieldsWhere p fields ↔ ∃ type, fields.get? field = some type ∧ p type = true := by
  rw [Model.fieldsWhere, List.mem_map]
  constructor
  · rintro ⟨⟨_, type⟩, hentry, rfl⟩
    obtain ⟨hmem, hp⟩ := List.mem_filter.1 hentry
    exact ⟨type, Entries.get?_of_mem fields.nodup_keys hmem, hp⟩
  · rintro ⟨type, htype, hp⟩
    rw [Table.get?, Entries.get?_eq_map_find?] at htype
    obtain ⟨⟨key, _⟩, hfind, rfl⟩ := Option.map_eq_some_iff.1 htype
    have hkey : key = field := of_decide_eq_true (List.find?_some hfind :)
    exact ⟨_, List.mem_filter.2 ⟨List.mem_of_find?_eq_some hfind, hp⟩, hkey⟩

/-- Every field is of a class or of its complement, and of one of them only. -/
theorem fieldsWhere_append_perm (p : String → Bool) (fields : Table String) :
    (Model.fieldsWhere p fields ++ Model.fieldsWhere (!p ·) fields).Perm fields.keys := by
  rw [Model.fieldsWhere, Model.fieldsWhere, ← List.map_append]
  exact (List.filter_append_perm _ _).map Prod.fst

/-- **Connecting fields that are there, one after the other, makes these connections**: as many
insertions into the table of connections, each with the type of its field. -/
theorem foldl_connect : ∀ (marked : List FieldDeclaration) (model : Model),
    (∀ field ∈ marked, field.name ∈ model.fields.keys) →
      marked.foldl (fun model field => model.connect field.name) model =
        { model with
          connections := model.connections.insertAll
            ((marked.map FieldDeclaration.name).map fun name =>
              (name, TypeText.unmarked ((model.fieldType? name).getD ""))) }
  | [], _, _ => rfl
  | field :: marked, model, h => by
      have hfield := h field List.mem_cons_self
      rw [← not_not (a := field.name ∈ model.fields.keys), ← Table.get?_eq_none_iff] at hfield
      obtain ⟨type, htype⟩ := Option.ne_none_iff_exists'.1 hfield
      have hconnect : model.connect field.name = { model with
          connections := model.connections.insert field.name (TypeText.unmarked type) } := by
        rw [Model.connect, Model.fieldType?, htype]
      have hrest := foldl_connect marked (model.connect field.name) fun other ho => by
        rw [hconnect]
        exact h other (List.mem_cons_of_mem _ ho)
      rw [List.foldl_cons, hrest, hconnect]
      simp only [List.map_cons, Table.insertAll_cons, Model.fieldType?, htype, Option.getD_some]

theorem keys_fieldTable (scanned : List FieldDeclaration) :
    (fieldTable scanned).keys = (scanned.map FieldDeclaration.name).eraseDups := by
  rw [fieldTable, Table.keys_ofList, Entries.keys, List.map_map]
  rfl

/-- A field that is scanned more than once has the type of its last occurrence. -/
theorem get?_fieldTable (scanned : List FieldDeclaration) (field : String) :
    (fieldTable scanned).get? field =
      (scanned.reverse.find? fun entry => entry.name = field).map FieldDeclaration.type := by
  rw [fieldTable, Table.get?_ofList, Entries.get?_eq_map_find?, ← List.map_reverse, List.find?_map,
    Option.map_map]
  rfl

/-- **What the model of scanned fields holds.**  The parts are proved by the lemmas of this section,
one for each table or list of the model. -/
theorem isScanned_modelOf (declaration : ModelDeclaration) (enums : List String)
    (scanned : List FieldDeclaration) :
    (modelOf declaration enums scanned).IsScanned declaration enums scanned := by
  have hmodel : modelOf declaration enums scanned =
      { Model.ofFields declaration.name (fieldTable scanned) enums with
        connections := Table.ofList
          (((scanned.filter declaration.connects).map FieldDeclaration.name).map fun name =>
            (name, TypeText.unmarked (((fieldTable scanned).get? name).getD ""))) } := by
    refine foldl_connect (scanned.filter declaration.connects) _ fun field hfield => ?_
    have hkeys : (Model.ofFields declaration.name (fieldTable scanned) enums).fields.keys =
        (scanned.map FieldDeclaration.name).eraseDups := keys_fieldTable scanned
    rw [hkeys, List.mem_eraseDups]
    exact List.mem_map_of_mem (List.mem_filter.1 hfield).1
  have hconnections : (Entries.keys
      (((scanned.filter declaration.connects).map FieldDeclaration.name).map fun name =>
        (name, TypeText.unmarked (((fieldTable scanned).get? name).getD "")))) =
      (scanned.filter declaration.connects).map FieldDeclaration.name := by
    rw [Entries.keys, List.map_map]
    exact List.map_id _
  have hpartition := fieldsWhere_append_perm (Model.isPrimitive enums) (fieldTable scanned)
  rw [hmodel]
  exact {
    name := rfl
    fields := keys_fieldTable scanned
    fieldType? := get?_fieldTable scanned
    partition := hpartition
    disjoint := List.disjoint_of_nodup_append
      (hpartition.nodup_iff.2 (fieldTable scanned).nodup_keys)
    primitive_sublist := fieldsWhere_sublist _ _
    complex_sublist := fieldsWhere_sublist (!Model.isPrimitive enums ·) (fieldTable scanned)
    mem_primitive_iff := fun field => by
      refine mem_fieldsWhere_iff.trans (exists_congr fun type => and_congr_right fun _ => ?_)
      rw [Model.isPrimitive, Bool.or_eq_true, List.contains_iff_mem, List.contains_iff_mem]
    json_sublist := fieldsWhere_sublist _ _
    mem_json_iff := fun field =>
      mem_fieldsWhere_iff.trans (exists_congr fun type => and_congr_right fun _ =>
        decide_eq_true_iff)
    fragments := rfl
    connections := by rw [Table.keys_ofList, hconnections]
    connectionType := fun field hfield => by
      rw [Table.keys_ofList, hconnections, List.mem_eraseDups] at hfield
      rw [Table.get?_ofList, ← List.map_reverse, Entries.get?_map_key,
        if_pos (List.mem_reverse.2 hfield)]
      have hkey : field ∈ (fieldTable scanned).keys := by
        obtain ⟨entry, hentry, rfl⟩ := List.mem_map.1 hfield
        rw [keys_fieldTable, List.mem_eraseDups]
        exact List.mem_map_of_mem (List.mem_filter.1 hentry).1
      rw [← not_not (a := field ∈ (fieldTable scanned).keys), ← Table.get?_eq_none_iff] at hkey
      obtain ⟨type, htype⟩ := Option.ne_none_iff_exists'.1 hkey
      show _ = ((fieldTable scanned).get? field).map TypeText.unmarked
      rw [htype]
      rfl
    accessors := rfl
    hooks := rfl }

/-! ## Graphs

With all names of the build set declared, a graph is built unless the fields of a model cannot be
had.  Its models are in the order of their names, so the declarations are met in another order. -/

/-- A graph with one model for each declaration in the build set. -/
structure IsGraphOf (view : SchemaView) (buildSet : List String)
    (declarations : List ModelDeclaration) (enums : List String) (g : ModelGraph) : Prop where
  isBuilt : ∀ name, g.isBuilt name = true ↔
    name ∈ declarations.map ModelDeclaration.name ∧ (buildSet = [] ∨ name ∈ buildSet)
  isModel : ∀ name, g.isModel name = true ↔ name ∈ declarations.map ModelDeclaration.name
  ordered : g.models.Pairwise fun a b => a.name ≤ b.name
  /-- The models are those of the declarations in the build set, each with all that it holds. -/
  models : ∃ built, g.models.Perm built ∧
    List.Forall₂ (fun declaration model => ∃ scanned,
      view.fields declaration.name = .ok scanned ∧ model.IsScanned declaration enums scanned)
      (declarations.filter (isSelected buildSet)) built

/-- The answer of building to a schema, a build set, declarations and the names of enums. -/
inductive Answers (view : SchemaView) (buildSet : List String)
    (declarations : List ModelDeclaration) (enums : List String) : Except Error ModelGraph → Prop
  /-- The smallest name in the build set that is not declared is refused. -/
  | undeclared {name : String}
    (least : IsLeast {other | other ∈ buildSet ∧
      other ∉ declarations.map ModelDeclaration.name} name) :
    Answers view buildSet declarations enums (.error (.config (.undeclaredCollection name)))
  /-- The fields of the first model in the build set that has none cannot be had. -/
  | unscanned {before after : List ModelDeclaration} {declaration : ModelDeclaration}
    {error : Error}
    (declared : ∀ name ∈ buildSet, name ∈ declarations.map ModelDeclaration.name)
    (selected : declarations.filter (isSelected buildSet) = before ++ declaration :: after)
    (scanned : ∀ earlier ∈ before, ∃ fields, view.fields earlier.name = .ok fields)
    (fails : view.fields declaration.name = .error error) :
    Answers view buildSet declarations enums (.error error)
  | built {g : ModelGraph}
    (declared : ∀ name ∈ buildSet, name ∈ declarations.map ModelDeclaration.name)
    (graph : IsGraphOf view buildSet declarations enums g) :
    Answers view buildSet declarations enums (.ok g)

/-- An empty build set selects all declarations. -/
theorem isSelected_iff {buildSet : List String} {declaration : ModelDeclaration} :
    isSelected buildSet declaration = true ↔ buildSet = [] ∨ declaration.name ∈ buildSet := by
  rw [isSelected, Bool.or_eq_true, List.isEmpty_iff, List.contains_iff_mem]

variable {view : SchemaView} {buildSet enums : List String} {declarations : List ModelDeclaration}

/-- A graph that is built holds what it should: the models are those of the declarations in the
build set, sorted. -/
theorem isGraphOf_of_build {g : ModelGraph}
    (h : build view buildSet declarations enums = .ok g) :
    IsGraphOf view buildSet declarations enums g := by
  have hnames := map_name_perm_selected_of_build h
  obtain ⟨-, models, hmodels, rfl⟩ := build_eq_ok_iff.1 h
  refine ⟨fun name => ?_, fun name => List.contains_iff_mem, pairwise_inNameOrder models, models,
    List.mergeSort_perm models _, hmodels.imp fun declaration model hbuilt => ?_⟩
  · have hbuilt : isBuilt ⟨inNameOrder models, declarations.map ModelDeclaration.name⟩ name = true ↔
        name ∈ (inNameOrder models).map Model.name := by
      rw [isBuilt, find?, List.find?_isSome, List.mem_map]
      exact exists_congr fun model => and_congr_right fun _ => decide_eq_true_iff
    rw [hbuilt, hnames.mem_iff, List.mem_map, List.mem_map]
    constructor
    · rintro ⟨declaration, hd, rfl⟩
      obtain ⟨hmem, hselected⟩ := List.mem_filter.1 hd
      exact ⟨⟨declaration, hmem, rfl⟩, isSelected_iff.1 hselected⟩
    · rintro ⟨⟨declaration, hmem, rfl⟩, hselected⟩
      exact ⟨declaration, List.mem_filter.2 ⟨hmem, isSelected_iff.2 hselected⟩, rfl⟩
  · obtain ⟨scanned, hscanned, rfl⟩ := hbuilt
    exact ⟨scanned, hscanned, isScanned_modelOf declaration enums scanned⟩

theorem mem_undeclared_iff {name : String} :
    (name ∈ buildSet.filter fun name => !(declarations.map ModelDeclaration.name).contains name) ↔
      name ∈ buildSet ∧ name ∉ declarations.map ModelDeclaration.name := by
  rw [List.mem_filter, Bool.not_eq_true', ← Bool.not_eq_true, List.contains_iff_mem]

/-- With all names declared, building goes as far as the models of the selected declarations. -/
theorem build_of_declared
    (h : ∀ name ∈ buildSet, name ∈ declarations.map ModelDeclaration.name) :
    build view buildSet declarations enums =
      (buildModels view enums (declarations.filter (isSelected buildSet))).map fun models =>
        ⟨inNameOrder models, declarations.map ModelDeclaration.name⟩ := by
  have hnone : smallest? (buildSet.filter fun name =>
      !(declarations.map ModelDeclaration.name).contains name) = none := by
    rw [smallest?_eq_none_iff, List.eq_nil_iff_forall_not_mem]
    intro name hname
    obtain ⟨hmem, hundeclared⟩ := mem_undeclared_iff.1 hname
    exact hundeclared (h name hmem)
  rw [build, hnone]
  change (buildModels view enums (declarations.filter (isSelected buildSet)) >>= _) = _
  cases buildModels view enums (declarations.filter (isSelected buildSet)) <;> rfl

/-- Otherwise the smallest name that is not is told. -/
theorem build_of_undeclared {name : String}
    (h : IsLeast {other | other ∈ buildSet ∧ other ∉ declarations.map ModelDeclaration.name} name) :
    build view buildSet declarations enums = .error (.config (.undeclaredCollection name)) := by
  have hsmallest : smallest? (buildSet.filter fun name =>
      !(declarations.map ModelDeclaration.name).contains name) = some name := by
    rw [smallest?_eq_some_iff]
    simpa only [mem_undeclared_iff] using h
  rw [build, hsmallest]

theorem exists_isLeast_undeclared
    (h : ¬ ∀ name ∈ buildSet, name ∈ declarations.map ModelDeclaration.name) :
    ∃ name, IsLeast {other | other ∈ buildSet ∧
      other ∉ declarations.map ModelDeclaration.name} name := by
  cases hsmallest : smallest? (buildSet.filter fun name =>
      !(declarations.map ModelDeclaration.name).contains name) with
  | none =>
    refine absurd (fun name hname => ?_) h
    by_contra hundeclared
    have hmem := mem_undeclared_iff.2 ⟨hname, hundeclared⟩
    rw [smallest?_eq_none_iff.1 hsmallest] at hmem
    cases hmem
  | some name =>
    have hleast := smallest?_eq_some_iff.1 hsmallest
    simp only [mem_undeclared_iff] at hleast
    exact ⟨name, hleast⟩

/-- **Building answers in one of the three ways.**  The case is that of the check of names first,
and then that of the fields, so no answer is given for two reasons. -/
theorem answers_build (view : SchemaView) (buildSet : List String)
    (declarations : List ModelDeclaration) (enums : List String) :
    Answers view buildSet declarations enums (build view buildSet declarations enums) := by
  by_cases hdeclared : ∀ name ∈ buildSet, name ∈ declarations.map ModelDeclaration.name
  · have hbuild := @build_of_declared view buildSet enums declarations hdeclared
    cases hmodels : buildModels view enums (declarations.filter (isSelected buildSet)) with
    | ok models =>
      rw [hmodels] at hbuild
      rw [hbuild]
      exact .built hdeclared (isGraphOf_of_build hbuild)
    | error error =>
      obtain ⟨before, declaration, after, hselected, hbefore, hfails⟩ :=
        exists_of_buildModels_eq_error hmodels
      rw [hbuild, hmodels]
      exact .unscanned hdeclared hselected hbefore hfails
  · obtain ⟨name, hleast⟩ := exists_isLeast_undeclared hdeclared
    rw [build_of_undeclared hleast]
    exact .undeclared hleast

end ModelGraph

end SchemaAccess
