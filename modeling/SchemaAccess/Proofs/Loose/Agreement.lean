import SchemaAccess.Loose.View
import SchemaAccess.Document.View
import Mathlib.Data.List.Forall2

/-!
# Blocks that read as definitions

A search finds blocks, a grammar finds definitions, and both are made into declarations.  This file
says when a block reads as a definition and shows that the declarations are then the same, so that
nothing about declarations has to be said again when a text is searched.

* `Field.Reads`, `Field.ReadsTyped`, `Block.Reads` — a field or block reads as a definition.
* `view_eq_of_reads` — schemas whose blocks read as definitions have the view of the definitions.
-/

namespace SchemaAccess.Loose

/-- The parameters of a field with their types; none if it has no arguments. -/
def Field.params (found : Field) : List (String × String) :=
  (found.arguments.elim [] Loose.params).map fun entry =>
    (String.ofList entry.1, String.ofList entry.2)

/-- A field that was found reads as a field that is defined. -/
structure Field.Reads (found : Field) (field : Document.FieldDefinition) : Prop where
  name : String.ofList found.name = field.name
  params : found.params = field.arguments.map fun entry => (entry.1, entry.2.print)
  type : String.ofList found.type = field.type.print
  relationship :
    isRelationship found.directives = field.directives.any relationshipDirectives.contains

/-- A field that was found reads as a name with a type. -/
structure Field.ReadsTyped (found : Field) (entry : Document.TypedName) : Prop where
  name : String.ofList found.name = entry.1
  type : String.ofList found.type = entry.2.print

/-- A block reads as a definition; a block of an interface as one of no interest. -/
inductive Block.Reads : Block → Document.Definition → Prop
  | object {name header body : List Char} {directives : List String}
      {defined : List Document.FieldDefinition}
      (isModel : isModelHeader header = directives.contains modelDirective)
      (fields : List.Forall₂ Field.Reads (fields body) defined) :
      Reads ⟨.type, name, header, body⟩ (.object (String.ofList name) directives defined)
  | input {name header body : List Char} {defined : List Document.TypedName}
      (fields : List.Forall₂ Field.ReadsTyped (fields body) defined) :
      Reads ⟨.input, name, header, body⟩ (.input (String.ofList name) defined)
  | enum {name header body : List Char} {defined : List String}
      (values : enumValues body = defined) :
      Reads ⟨.enum, name, header, body⟩ (.enum (String.ofList name) defined)
  | other {name header body : List Char} : Reads ⟨.interface, name, header, body⟩ .other

/-! ## Fields

Of a block the declarations take the fields one by one, so if each field reads as the one that is
defined, the lists that are made of them are the same.  The lemmas follow the kinds of lists:
relationships, declared fields, operations, and tables of types. -/

section Fields

variable {found : List Field}

/-- The fields that are relationships have the same names.  By induction along the two lists: a
field is kept on both sides or on neither. -/
theorem relationships_eq_of_reads {defined : List Document.FieldDefinition}
    (h : List.Forall₂ Field.Reads found defined) :
    (found.filter fun field => isRelationship field.directives).map
        (fun field => String.ofList field.name) =
      (defined.filter fun field => field.directives.any relationshipDirectives.contains).map
        Document.FieldDefinition.name := by
  induction h with
  | nil => rfl
  | @cons a b as bs hab _ ih =>
    rw [List.filter_cons, List.filter_cons, hab.relationship]
    split
    · rw [List.map_cons, List.map_cons, hab.name, ih]
    · exact ih

/-- The fields are declared with the same names and types, whatever is told of their directives. -/
theorem declarations_eq_of_reads {defined : List Document.FieldDefinition}
    (h : List.Forall₂ Field.Reads found defined) :
    found.map (fun field =>
        FieldDeclaration.ofRaw (String.ofList field.name) (String.ofList field.type)) =
      defined.map fun field => .ofRaw field.name field.type.print := by
  induction h with
  | nil => rfl
  | cons hab _ ih => rw [List.map_cons, List.map_cons, hab.name, hab.type, ih]

/-- A field of a root makes the same operation: its parameters are found with the types that the
definition gives to its arguments. -/
theorem operationOf_eq_of_reads {field : Field} {defined : Document.FieldDefinition}
    (h : field.Reads defined) : operationOf field = Document.operationOf defined := by
  have hparams := h.params
  obtain ⟨name, arguments, type, directives⟩ := field
  rw [operationOf, Document.operationOf, h.name, h.type, Document.typedTable, ← hparams]
  cases arguments with
  | none => rfl
  | some text => rfl

theorem operations_eq_of_reads {defined : List Document.FieldDefinition}
    (h : List.Forall₂ Field.Reads found defined) :
    found.map operationOf = defined.map Document.operationOf := by
  induction h with
  | nil => rfl
  | cons hab _ ih => rw [List.map_cons, List.map_cons, operationOf_eq_of_reads hab, ih]

/-- The fields of an input type are the same table. -/
theorem typedTable_eq_of_reads {defined : List Document.TypedName}
    (h : List.Forall₂ Field.ReadsTyped found defined) :
    typedTable (found.map fun field => (field.name, field.type)) =
      Document.typedTable defined := by
  have hlist : (found.map fun field => (field.name, field.type)).map
      (fun entry => (String.ofList entry.1, String.ofList entry.2)) =
      defined.map fun entry => (entry.1, entry.2.print) := by
    induction h with
    | nil => rfl
    | cons hab _ ih => simp only [List.map_cons, hab.name, hab.type, ih]
  rw [typedTable, Document.typedTable, hlist]

end Fields

/-! ## Schemas

Each question of the view goes through the blocks of a text or through the definitions of a
document.  If the blocks read as the definitions, one by one and in order, every question has the
same answer. -/

section Schemas

variable {text : List Char} {defined : List Document.Definition}

/-- The same models are declared.  A block of a type is a model exactly if the model directive is
among those of the definition, and no other block is. -/
theorem models_eq_of_reads (h : List.Forall₂ Block.Reads (blocks text) defined) :
    models text = Document.models defined := by
  rw [models, Document.models]
  generalize blocks text = found at h
  induction h with
  | nil => rfl
  | @cons block definition _ _ hread _ ih =>
    rw [List.filter_cons, List.filterMap_cons]
    cases hread with
    | object isModel fields =>
      rw [Document.Definition.model?, ← isModel]
      split
      · next hm =>
        rw [if_pos (by simpa using hm), List.map_cons, modelOf, relationships_eq_of_reads fields,
          ih]
      · next hm => rw [if_neg (by simpa using hm), ih]
    | input fields => rw [if_neg (by simp), ih]; rfl
    | enum values => rw [if_neg (by simp), ih]; rfl
    | other => rw [if_neg (by simp), ih]; rfl

/-- The first object type of a name is found in both, with the same fields, or in neither. -/
theorem fieldsOf?_eq_of_reads (h : List.Forall₂ Block.Reads (blocks text) defined)
    (model : String) : fieldsOf? text model = Document.fieldsOf? defined model := by
  rw [fieldsOf?, Document.fieldsOf?]
  generalize blocks text = found at h
  induction h with
  | nil => rfl
  | @cons block definition _ _ hread _ ih =>
    rw [List.find?_cons, List.findSome?_cons]
    cases hread with
    | @object name header body directives defined isModel fields =>
      rw [Document.Definition.fieldsOf?]
      by_cases hn : String.ofList name = model
      · rw [if_pos hn, ← declarations_eq_of_reads fields]
        simp only [hn, decide_true, Bool.and_true, Option.map_some]
      · rw [if_neg hn, ← ih]
        simp only [hn, decide_false, Bool.and_false]
    | input fields => simpa [Document.Definition.fieldsOf?] using ih
    | enum values => simpa [Document.Definition.fieldsOf?] using ih
    | other => simpa [Document.Definition.fieldsOf?] using ih

/-- Among definitions that blocks read as there is none of a schema, so the roots keep their own
names. -/
theorem rootName_eq_of_reads {found : List Block} (h : List.Forall₂ Block.Reads found defined)
    (root : OperationRoot) : Document.rootName defined root = root.typeName := by
  have hroots : defined.filterMap (Document.Definition.root? root) = [] := by
    induction h with
    | nil => rfl
    | cons hread _ ih =>
      rw [List.filterMap_cons, ih]
      cases hread <;> rfl
  rw [Document.rootName, hroots]
  rfl

/-- The operations of a root are the same, since those of all its blocks are joined in order. -/
theorem allOperations_eq_of_reads (h : List.Forall₂ Block.Reads (blocks text) defined)
    (root : OperationRoot) : operations text root = Document.operations defined root := by
  rw [operations, Document.operations, rootName_eq_of_reads h]
  generalize blocks text = found at h
  induction h with
  | nil => rfl
  | @cons block definition _ _ hread _ ih =>
    rw [List.filter_cons, List.flatMap_cons, List.map_append, ← ih]
    cases hread with
    | @object name header body directives defined isModel fields =>
      rw [Document.Definition.contribution]
      by_cases hn : String.ofList name = root.typeName
      · rw [if_pos hn, if_pos (by simp [hn]), List.flatMap_cons, operations_eq_of_reads fields]
      · rw [if_neg hn, if_neg (by simp [hn])]
        rfl
    | input fields => rw [if_neg (by simp)]; rfl
    | enum values => rw [if_neg (by simp)]; rfl
    | other => rw [if_neg (by simp)]; rfl

theorem inputs_eq_of_reads (h : List.Forall₂ Block.Reads (blocks text) defined) :
    inputs text = Document.inputs defined := by
  rw [inputs, Document.inputs]
  generalize blocks text = found at h
  induction h with
  | nil => rfl
  | cons hread _ ih =>
    rw [List.filter_cons, List.filterMap_cons]
    cases hread with
    | object isModel fields => rw [if_neg (by simp), ih]
    | input fields => rw [if_pos (by simp), List.map_cons, typedTable_eq_of_reads fields, ih]
    | enum values => rw [if_neg (by simp), ih]
    | other => rw [if_neg (by simp), ih]

theorem enums_eq_of_reads (h : List.Forall₂ Block.Reads (blocks text) defined) :
    enums text = Document.enums defined := by
  rw [enums, Document.enums]
  generalize blocks text = found at h
  induction h with
  | nil => rfl
  | cons hread _ ih =>
    rw [List.filter_cons, List.filterMap_cons]
    cases hread with
    | object isModel fields => rw [if_neg (by simp), ih]
    | input fields => rw [if_neg (by simp), ih]
    | enum values => rw [if_pos (by simp), List.map_cons, values, ih]
    | other => rw [if_neg (by simp), ih]

end Schemas

/-- **Schemas whose blocks read as definitions have the view of the definitions.**  With this, a
comparison of the two readers is one of what they find, blocks and definitions, and does not have to
go into what is declared. -/
theorem view_eq_of_reads {source build : String} {sourceDefined buildDefined :
    List Document.Definition}
    (hs : List.Forall₂ Block.Reads (blocks (clean source.toList)) sourceDefined)
    (hb : List.Forall₂ Block.Reads (blocks (clean build.toList)) buildDefined) :
    view source build = Document.view sourceDefined buildDefined := by
  have hfields : ∀ model, (view source build).fields model =
      (Document.view sourceDefined buildDefined).fields model := by
    intro model
    have hfound := fieldsOf?_eq_of_reads hb model
    cases hdefined : Document.fieldsOf? buildDefined model with
    | none => simp [view, Document.view, hfound, hdefined]
    | some list => simp [view, Document.view, hfound, hdefined]
  have hoperations : ∀ root, (view source build).operations root =
      (Document.view sourceDefined buildDefined).operations root := fun root =>
    congrArg Except.ok (allOperations_eq_of_reads hb root)
  rw [view, Document.view, SchemaView.mk.injEq]
  exact ⟨congrArg Except.ok (models_eq_of_reads hs), funext hfields, funext hoperations,
    congrArg Except.ok (inputs_eq_of_reads hb), congrArg Except.ok (enums_eq_of_reads hb)⟩

end SchemaAccess.Loose
