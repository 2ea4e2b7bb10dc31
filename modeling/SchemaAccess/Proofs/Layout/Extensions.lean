import SchemaAccess.Proofs.Layout.Recovery
import SchemaAccess.Proofs.Plain.Layout
import SchemaAccess.Proofs.Views.Parts

/-!
# Types that are extended

The fields of an object type may be cut in two, so that its definition keeps the first part and an
extension behind it has the second.  For the fields of a model only the first definition counts, for
operations every definition and extension does.  That holds for both ways of reading a schema, so it
is said once, for a list of parts, and then of blocks and of the definitions in a document.

* `Moves` — a view before and after fields were moved.
* `Reading.Divides.moves` — what moving fields does to the view of a list of parts.
* `Division` — a schema with a type in one piece and in two; `moves_division` — both readings of it.
-/

namespace SchemaAccess

/-! ## Moving fields

A part of a schema is replaced by two, of which the second stands further behind.  For most
questions nothing changes, because the parts have no answer to them; the fields of the type and the
operations are the two that have. -/

/-- A view of a schema and a view of the schema in which fields of a type were moved from its
definition to an extension behind it.  `isEarlier` says that the fields of the type are found before
its definition, and `isDirect` that no operation is declared between the definition and the
extension, or none in the extension. -/
structure Moves (type : String) (kept moved : List FieldDeclaration) (isEarlier : Prop)
    (isDirect : OperationRoot → Prop) (whole parts : SchemaView) : Prop where
  models : parts.models = whole.models
  inputs : parts.inputs = whole.inputs
  enums : parts.enums = whole.enums
  /-- The other types have the fields that they had. -/
  others : ∀ model, model ≠ type → parts.fields model = whole.fields model
  /-- The type itself has lost those that were moved. -/
  fields : ¬ isEarlier →
    whole.fields type = .ok (kept ++ moved) ∧ parts.fields type = .ok kept
  fields_eq_iff : parts.fields type = whole.fields type ↔ isEarlier ∨ moved = []
  /-- No operation is lost. -/
  operations_perm : ∀ root, ∃ list other, whole.operations root = .ok list ∧
    parts.operations root = .ok other ∧ other.Perm list
  operations_eq : ∀ root, isDirect root → parts.operations root = whole.operations root

theorem Moves.mono {type : String} {kept moved : List FieldDeclaration} {isEarlier : Prop}
    {isDirect isDirect' : OperationRoot → Prop} {whole parts : SchemaView}
    (h : Moves type kept moved isEarlier isDirect whole parts)
    (hdirect : ∀ root, isDirect' root → isDirect root) :
    Moves type kept moved isEarlier isDirect' whole parts :=
  { h with operations_eq := fun root hroot => h.operations_eq root (hdirect root hroot) }

namespace Reading

variable {α : Type} {r : Reading α} {type : String} {kept moved : List FieldDeclaration}
  {whole first second : α}

/-- A part and two parts that declare the same, except that the fields of a type are looked up in
the first of the two only. -/
structure Divides (r : Reading α) (type : String) (kept moved : List FieldDeclaration)
    (whole first second : α) : Prop where
  fields_whole : r.fieldsOf? type whole = some (kept ++ moved)
  fields_first : r.fieldsOf? type first = some kept
  fields_others : ∀ model, model ≠ type → r.fieldsOf? model whole = none ∧
    r.fieldsOf? model first = none ∧ r.fieldsOf? model second = none
  operations : ∀ root, r.operations root whole = r.operations root first ++ r.operations root second
  inputs : r.input? whole = none ∧ r.input? first = none ∧ r.input? second = none
  enums : r.enum? whole = none ∧ r.enum? first = none ∧ r.enum? second = none

/-- A list to which neither the part nor the two contribute stays the same. -/
theorem filterMap_moved {β : Type} {f : α → Option β}
    (h : f whole = none ∧ f first = none ∧ f second = none) (before between behind : List α) :
    (before ++ first :: (between ++ second :: behind)).filterMap f =
      (before ++ whole :: (between ++ behind)).filterMap f := by
  simp only [List.filterMap_append, List.filterMap_cons, h.1, h.2.1, h.2.2]

/-- What is found first stays the same if it is found in none of the three. -/
theorem findSome?_moved {β : Type} {f : α → Option β}
    (h : f whole = none ∧ f first = none ∧ f second = none) (before between behind : List α) :
    (before ++ first :: (between ++ second :: behind)).findSome? f =
      (before ++ whole :: (between ++ behind)).findSome? f := by
  simp only [List.findSome?_append, List.findSome?_cons, h.1, h.2.1, h.2.2]

/-- The fields that are found in a part, unless others are found before it. -/
theorem findSome?_middle {β : Type} {f : α → Option β} {part : α} {b : β} (h : f part = some b)
    (before behind : List α) :
    (before ++ part :: behind).findSome? f = some ((before.findSome? f).getD b) := by
  rw [List.findSome?_append, List.findSome?_cons, h]
  cases before.findSome? f <;> rfl

/-- **Moving fields behind other parts.**  Each question of the view is put to the parts before,
between and behind, and to the ones that were exchanged. -/
theorem Divides.moves (h : r.Divides type kept moved whole first second)
    (models : List ModelDeclaration) (before between behind : List α) :
    Moves type kept moved (before.findSome? (r.fieldsOf? type) ≠ none)
      (fun root => between.flatMap (r.operations root) = [] ∨ r.operations root second = [])
      (r.view models (before ++ whole :: (between ++ behind)))
      (r.view models (before ++ first :: (between ++ second :: behind))) where
  models := rfl
  inputs := congrArg Except.ok (filterMap_moved h.inputs before between behind)
  enums := congrArg Except.ok (filterMap_moved h.enums before between behind)
  others model hmodel := by
    simp only [view, findSome?_moved (h.fields_others model hmodel)]
  fields hearlier := by
    have hnone : before.findSome? (r.fieldsOf? type) = none := not_not.1 hearlier
    constructor
    · simp only [view, findSome?_middle h.fields_whole, hnone, Option.getD_none]
    · simp only [view, findSome?_middle h.fields_first, hnone, Option.getD_none]
  fields_eq_iff := by
    simp only [view, findSome?_middle h.fields_whole, findSome?_middle h.fields_first,
      Except.ok.injEq]
    cases before.findSome? (r.fieldsOf? type) with
    | none => simp
    | some list => simp
  operations_perm root := by
    refine ⟨_, _, rfl, rfl, ?_⟩
    simp only [List.flatMap_append, List.flatMap_cons, h.operations, List.append_assoc]
    refine List.Perm.append_left _ (List.Perm.append_left _ ?_)
    simp only [← List.append_assoc]
    exact List.Perm.append_right _ List.perm_append_comm
  operations_eq root hdirect := by
    refine congrArg Except.ok ?_
    simp only [List.flatMap_append, List.flatMap_cons, h.operations, List.append_assoc]
    rcases hdirect with hnone | hnone
    · simp only [hnone, List.nil_append]
    · simp only [hnone, List.nil_append]

end Reading

namespace Layout

open Text

/-! ## A type in one piece and in two

A division is a schema in two versions.  In the search an extension is a block like any other, and
in a document it is a definition of its own kind; in both the pieces divide the whole type. -/

/-- A field as it is declared. -/
def Field.declaration (field : Field) : FieldDeclaration :=
  .ofRaw field.name.string field.type.type.print

/-- A schema in which the fields of an object type stand in one definition, or in a definition and
an extension behind it.  Before the definition and before the extension may stand any text that
leaves nothing open. -/
structure Division where
  before : List Char
  /-- What stands between the definition and the extension. -/
  between : List Char
  behind : List Char
  name : Name
  interfaces : Option Interfaces
  directives : List Directive
  beforeName : Space
  beforeBody : Gap
  fields : Items Field
  kept : Items Field
  moved : Items Field
  list_fields : fields.list = kept.list ++ moved.list
  afterExtend : Space
  extensionBeforeName : Space
  extensionBeforeBody : Gap
  closed_before : Loose.LeavesNothingOpen before
  closed_between : Loose.LeavesNothingOpen between
  noList_behind : Loose.NoList behind

namespace Division

variable (s : Division)

/-- The definition of the type with fields. -/
def definition (fields : Items Field) : Definition :=
  ⟨s.beforeName, s.name, s.directives, s.beforeBody, .object s.interfaces fields⟩

/-- What stands behind the word that begins an extension. -/
def extension : Definition :=
  ⟨s.extensionBeforeName, s.name, [], s.extensionBeforeBody, .object none s.moved⟩

def extensionText (stage : Stage) : List Char :=
  extendWord.chars ++ s.afterExtend.text stage ++ s.extension.text stage

/-- The schema with all fields in the definition. -/
def whole : String := String.ofList (s.before ++
  ((s.definition s.fields).text .written ++ (s.between ++ s.behind)))

/-- The schema with a definition and an extension. -/
def parts : String := String.ofList (s.before ++
  ((s.definition s.kept).text .written ++
    (s.between ++ (s.extensionText .written ++ s.behind))))

/-! ### Blocks -/

theorem noList_definition (d : Definition) (rest : List Char) :
    Loose.NoList (d.text .written ++ rest) := by
  simp only [Definition.text, List.append_assoc]
  exact NoList.name (Loose.isName_keyword _) _

theorem noList_extension (rest : List Char) :
    Loose.NoList (s.extensionText .written ++ rest) := by
  rw [extensionText, List.append_assoc, List.append_assoc]
  exact NoList.name extendWord.isName _

/-- The word that begins an extension is copied, and the definition behind it is cleaned on
its own. -/
theorem clean_extension (rest : List Char) :
    Loose.clean (s.extensionText .written ++ rest) =
      s.extensionText .cleaned ++ Loose.clean rest := by
  simp only [extensionText, List.append_assoc]
  rw [clean_name, clean_space, clean_definition]

/-- An extension is found as a block of the type. -/
theorem blocks_extension (rest : List Char) :
    Loose.blocks (s.extensionText .cleaned ++ rest) = s.extension.block :: Loose.blocks rest := by
  rw [extensionText, List.append_assoc, List.append_assoc, Loose.blocks_extend, Loose.blocks,
    Loose.blocksFrom_of_some (block?_definition s.extension rest)]
  rfl

/-- The view of a schema with the definition, whatever stands behind the extension's place. -/
theorem view_definition (fields : Items Field) {rest : List Char} (hrest : Loose.NoList rest)
    (source : String) :
    Loose.view source (String.ofList
        (s.before ++ ((s.definition fields).text .written ++ (s.between ++ rest)))) =
      Loose.reading.view (Loose.models (Loose.clean source.toList))
        (Loose.blocks (Loose.clean s.before) ++ (s.definition fields).block ::
          (Loose.blocks (Loose.clean s.between) ++ Loose.blocks (Loose.clean rest))) := by
  have hclean : squeeze (Loose.clean (String.ofList (s.before ++
      ((s.definition fields).text .written ++ (s.between ++ rest)))).toList) =
      squeeze (Loose.clean s.before ++ ((s.definition fields).text .cleaned ++
        (Loose.clean s.between ++ Loose.clean rest))) := by
    rw [String.toList_ofList, s.closed_before.squeeze_clean (noList_definition _ _),
      clean_definition, ← List.append_assoc,
      squeeze_append_congr _ (s.closed_between.squeeze_clean hrest), List.append_assoc]
  rw [Loose.view_eq_reading hclean, s.closed_before.blocks, ← s.closed_between.blocks,
    Loose.blocks, Loose.blocks, Loose.blocks, Loose.blocksFrom_of_some (block?_definition _ _)]

/-- The block of an object type has the fields of the type, for the model of its name. -/
theorem fieldsOf?_block (d : Definition) {interfaces : Option Interfaces} {fields : Items Field}
    (hd : d.body = .object interfaces fields) (model : String) :
    Loose.reading.fieldsOf? model d.block =
      if d.name.string = model then some (fields.list.map Field.declaration) else none := by
  have hdeclared : (Loose.fields (fields.text .cleaned)).map (fun field =>
      FieldDeclaration.ofRaw (String.ofList field.name) (String.ofList field.type)) =
      fields.list.map Field.declaration := by
    rw [Loose.declarations_eq_of_reads (reads_fields fields), List.map_map]
    rfl
  rw [← hdeclared, Definition.block, hd, Loose.reading]
  simp only [Body.keyword, Body.text, decide_true, Bool.true_and, decide_eq_true_eq]
  rfl

/-- It has the operations of a root if it has the name of the root. -/
theorem operations_block (d : Definition) {interfaces : Option Interfaces} {fields : Items Field}
    (hd : d.body = .object interfaces fields) (root : OperationRoot) :
    Loose.reading.operations root d.block =
      if d.name.string = root.typeName then
        fields.list.map fun field => Document.operationOf field.definition
      else [] := by
  have hoperations : (Loose.fields (fields.text .cleaned)).map Loose.operationOf =
      fields.list.map fun field => Document.operationOf field.definition := by
    rw [Loose.operations_eq_of_reads (reads_fields fields), List.map_map]
    rfl
  rw [← hoperations, Definition.block, hd, Loose.reading]
  simp only [Body.keyword, Body.text, decide_true, Bool.true_and, decide_eq_true_eq]
  rfl

/-- The definition with all fields against the smaller one and the extension, as blocks. -/
theorem divides_blocks : Loose.reading.Divides s.name.string (s.kept.list.map Field.declaration)
    (s.moved.list.map Field.declaration) (s.definition s.fields).block (s.definition s.kept).block
    s.extension.block where
  fields_whole := by
    rw [← List.map_append, ← s.list_fields]
    exact (fieldsOf?_block _ rfl _).trans (if_pos rfl)
  fields_first := (fieldsOf?_block _ rfl _).trans (if_pos rfl)
  fields_others model hmodel := by
    have hname : s.name.string ≠ model := hmodel.symm
    exact ⟨(fieldsOf?_block _ rfl _).trans (if_neg hname),
      (fieldsOf?_block _ rfl _).trans (if_neg hname),
      (fieldsOf?_block _ rfl _).trans (if_neg hname)⟩
  operations root := by
    rw [operations_block (s.definition s.fields) rfl, operations_block (s.definition s.kept) rfl,
      operations_block s.extension rfl, s.list_fields, List.map_append]
    by_cases hroot : s.name.string = root.typeName
    · simp only [definition, extension, hroot, if_true]
    · simp only [definition, extension, hroot, if_false, List.append_nil]
  inputs := ⟨rfl, rfl, rfl⟩
  enums := ⟨rfl, rfl, rfl⟩

/-! ### Definitions -/

/-- What an extension adds, as a document has it. -/
def added : Document.Definition :=
  .extendObject s.name.string (s.moved.list.map Field.definition)

/-- The definition with all fields against the smaller one and the extension, in a document. -/
theorem divides_definitions (names : OperationRoot → String) :
    (Document.reading names).Divides s.name.string (s.kept.list.map Field.declaration)
      (s.moved.list.map Field.declaration) (s.definition s.fields).definition
      (s.definition s.kept).definition s.added where
  fields_whole := by
    rw [← List.map_append, ← s.list_fields]
    refine (if_pos rfl).trans (congrArg some ?_)
    rw [List.map_map]
    rfl
  fields_first := by
    refine (if_pos rfl).trans (congrArg some ?_)
    rw [List.map_map]
    rfl
  fields_others model hmodel := ⟨if_neg hmodel.symm, if_neg hmodel.symm, rfl⟩
  operations root := by
    simp only [Document.reading, definition, Definition.definition, added,
      Document.Definition.contribution, s.list_fields, List.map_append]
    split
    · exact List.map_append
    · rfl
  inputs := ⟨rfl, rfl, rfl⟩
  enums := ⟨rfl, rfl, rfl⟩

/-- What a document reads from the two schemas: the definitions before the type, those between it
and the place of the extension, and those behind. -/
structure Parsed (s : Division) where
  before : List Document.Definition
  between : List Document.Definition
  behind : List Document.Definition
  parse_whole : Document.parse s.whole =
    .ok (before ++ (s.definition s.fields).definition :: (between ++ behind))
  parse_parts : Document.parse s.parts =
    .ok (before ++ (s.definition s.kept).definition :: (between ++ s.added :: behind))

variable {s}

namespace Parsed

variable (d : s.Parsed)

/-- The definitions in the schema with all fields in one place. -/
def whole : List Document.Definition :=
  d.before ++ (s.definition s.fields).definition :: (d.between ++ d.behind)

def parts : List Document.Definition :=
  d.before ++ (s.definition s.kept).definition :: (d.between ++ s.added :: d.behind)

/-- Extensions give the operation types no other names. -/
theorem rootName_parts : Document.rootName d.parts = Document.rootName d.whole := by
  have hnone : ∀ root, d.parts.filterMap (Document.Definition.root? root) =
      d.whole.filterMap (Document.Definition.root? root) := fun root =>
    Reading.filterMap_moved ⟨rfl, rfl, rfl⟩ d.before d.between d.behind
  funext root
  rw [Document.rootName, Document.rootName, hnone]

/-- In a document, moving fields does to the view what it does to the view of parts. -/
theorem moves (source : List Document.Definition) :
    Moves s.name.string (s.kept.list.map Field.declaration) (s.moved.list.map Field.declaration)
      (Document.fieldsOf? d.before s.name.string ≠ none)
      (fun root => d.between.flatMap (Document.Definition.contribution
          (Document.rootName d.whole root)) = [] ∨ s.name.string ≠ Document.rootName d.whole root)
      (Document.view source d.whole) (Document.view source d.parts) := by
  rw [Document.view_eq_reading, Document.view_eq_reading, d.rootName_parts]
  refine ((s.divides_definitions (Document.rootName d.whole)).moves (Document.models source)
    d.before d.between d.behind).mono fun root hdirect => ?_
  rcases hdirect with hnone | hname
  · left
    rw [Document.reading, ← List.map_flatMap, hnone, List.map_nil]
  · exact .inr (congrArg (List.map Document.operationOf) (if_neg hname))

end Parsed

end Division

open Division in
/-- **If the fields of an object type are cut in two and the second part is moved to an extension
behind the definition**, both readings of the schema lose the fields of the type that were moved,
unless they find its fields before the definition.  All other declarations stay, and so do all
operations: in the same order if none is declared between the definition and the extension. -/
theorem moves_division (s : Division) (source : String) :
    Moves s.name.string (s.kept.list.map Field.declaration) (s.moved.list.map Field.declaration)
      (Loose.fieldsOf? (Loose.clean s.before) s.name.string ≠ none)
      (fun root => Loose.operations (Loose.clean s.between) root = [] ∨
        s.name.string ≠ root.typeName)
      (Loose.view source s.whole) (Loose.view source s.parts) ∧
    ∀ (d : s.Parsed) {definitions : List Document.Definition},
      Document.parse source = .ok definitions → ∃ whole parts,
        Document.viewOfTexts source s.whole = .ok whole ∧
        Document.viewOfTexts source s.parts = .ok parts ∧
        Moves s.name.string (s.kept.list.map Field.declaration)
          (s.moved.list.map Field.declaration)
          (Document.fieldsOf? d.before s.name.string ≠ none)
          (fun root => d.between.flatMap (Document.Definition.contribution
              (Document.rootName d.whole root)) = [] ∨
            s.name.string ≠ Document.rootName d.whole root) whole parts := by
  constructor
  · have hparts := s.view_definition s.kept (noList_extension s s.behind) source
    rw [clean_extension, blocks_extension] at hparts
    rw [Division.whole, Division.parts, s.view_definition s.fields s.noList_behind, hparts,
      Loose.fieldsOf?_eq_findSome?]
    refine (s.divides_blocks.moves _ _ _ _).mono fun root hdirect => ?_
    rcases hdirect with hnone | hname
    · exact .inl ((Loose.operations_eq_flatMap _ root).symm.trans hnone)
    · exact .inr ((operations_block s.extension rfl root).trans (if_neg hname))
  · exact fun d definitions hsource => ⟨_, _, Document.viewOfTexts_eq_ok hsource d.parse_whole,
      Document.viewOfTexts_eq_ok hsource d.parse_parts, d.moves definitions⟩

/-! ## The query type in two pieces -/

def intField (name : Name) : Field :=
  ⟨name, none, [], [Plain.blankFiller], ⟨.named "Int" false, by decide⟩, []⟩

/-- Fields with a space before and behind each of them. -/
def spacedItems (fields : List Field) : Items Field :=
  Plain.itemsOf (Plain.blankMargin [Plain.blankFiller]) (Plain.blankMargin [Plain.blankFiller])
    rfl rfl (Plain.blankMargin [Plain.blankFiller]) (List.cons_ne_nil _ _) fields

def firstField : Field := intField ⟨['k'], by decide⟩

def secondField : Field := intField ⟨['m'], by decide⟩

/-- Between the definition and the extension of the query type stands another type. -/
def queryDivision : Division where
  before := "enum E \x7b U \x7d".toList ++ ['\n']
  between := "\ntype A \x7b c: Int \x7d".toList ++ ['\n']
  behind := []
  name := ⟨"Query".toList, by decide⟩
  interfaces := none
  directives := []
  beforeName := Plain.oneSpace
  beforeBody := [Plain.blankFiller]
  fields := spacedItems [firstField, secondField]
  kept := spacedItems [firstField]
  moved := spacedItems [secondField]
  list_fields := rfl
  afterExtend := Plain.oneSpace
  extensionBeforeName := Plain.oneSpace
  extensionBeforeBody := [Plain.blankFiller]
  closed_before := .of_chunk (by decide +kernel)
  closed_between := .of_chunk (by decide +kernel)
  noList_behind h := by cases h

def queryParsed : queryDivision.Parsed where
  before := [.enum "E" ["U"]]
  between := [.object "A" [] [⟨"c", [], .named "Int" false, []⟩]]
  behind := []
  parse_whole := by decide +kernel
  parse_parts := by decide +kernel

def oneType : String := "type A \x7b a: Int b: Int \x7d"

def oneDocument : List Document.Definition :=
  [.object "A" [] [⟨"a", [], .named "Int" false, []⟩, ⟨"b", [], .named "Int" false, []⟩]]

theorem parse_oneType : Document.parse oneType = .ok oneDocument := by decide +kernel

/-- As a model the query type loses a field, but it loses no operation. -/
theorem moves_division_query :
    Document.parse oneType = .ok oneDocument ∧
    (Loose.view oneType queryDivision.parts).fields "Query" = .ok [firstField.declaration] ∧
    ∃ whole parts, Document.viewOfTexts oneType queryDivision.whole = .ok whole ∧
      Document.viewOfTexts oneType queryDivision.parts = .ok parts ∧
      whole.fields "Query" = .ok [firstField.declaration, secondField.declaration] ∧
      parts.fields "Query" = .ok [firstField.declaration] ∧
      parts.operations .query = whole.operations .query := by
  have hbefore : Loose.fieldsOf? (Loose.clean queryDivision.before) "Query" = none := by
    decide +kernel
  have hbetween : queryParsed.between.flatMap (Document.Definition.contribution
      (Document.rootName queryParsed.whole .query)) = [] := by decide +kernel
  obtain ⟨hmoves, hdocument⟩ := moves_division queryDivision oneType
  obtain ⟨whole, parts, hwhole, hparts, hmoved⟩ := hdocument queryParsed parse_oneType
  obtain ⟨hall, hkept⟩ := hmoved.fields (not_not.2 rfl)
  exact ⟨parse_oneType, (hmoves.fields (not_not.2 hbefore)).2, whole, parts, hwhole, hparts, hall,
    hkept, hmoved.operations_eq .query (.inl hbetween)⟩

/-! ## A model in two pieces -/

/-- The type of `oneType` in two pieces. -/
def extendedType : String := "type A \x7b a: Int \x7d\nextend type A \x7b b: Int \x7d"

def extendedDocument : List Document.Definition :=
  [.object "A" [] [⟨"a", [], .named "Int" false, []⟩],
    .extendObject "A" [⟨"b", [], .named "Int" false, []⟩]]

/-- Both readings lose the field in the extension. -/
theorem fields_extendedType_ne :
    (Loose.view oneType extendedType).fields "A" ≠ (Loose.view oneType oneType).fields "A" ∧
    ∃ one extended, Document.viewOfTexts oneType oneType = .ok one ∧
      Document.viewOfTexts oneType extendedType = .ok extended ∧
      extended.fields "A" ≠ one.fields "A" := by
  have hextended : Document.parse extendedType = .ok extendedDocument := by decide +kernel
  exact ⟨by decide +kernel, _, _, Document.viewOfTexts_eq_ok parse_oneType parse_oneType,
    Document.viewOfTexts_eq_ok parse_oneType hextended, by decide +kernel⟩

end Layout

end SchemaAccess
