import SchemaAccess.Document.View
import SchemaAccess.Proofs.Layout.CleanedText
import SchemaAccess.Proofs.Loose.Bodies
import SchemaAccess.Proofs.Loose.Chunks

/-!
# Schemas in parts

A build schema is a list of parts: of the blocks that are found in it, or of the definitions in it
as a document.  What it declares is what its parts declare, and it makes no difference how the parts
came about.

* `Reading` — what each part declares; `Reading.view` — what a list of parts declares.
* `Document.view_eq_reading`, `Loose.view_eq_reading` — the two views as views of lists of parts.
* `blocks_extend` — the blocks behind the word that begins an extension.
* `LeavesNothingOpen` — a text whose parts are found apart from those behind it.
-/

namespace SchemaAccess

/-! ## Parts of a build schema

A question to a build schema is answered part by part, and the answers are joined: the first one for
the fields of a model, all of them in order for the rest.  Both readers are of this form, so a
change of the parts can be followed in both with the same lemmas. -/

/-- What each part of a build schema, be it a block or a definition, declares. -/
structure Reading (α : Type) where
  /-- The fields of a model, if they are looked up in the part. -/
  fieldsOf? : String → α → Option (List FieldDeclaration)
  operations : OperationRoot → α → List OperationDeclaration
  input? : α → Option InputDeclaration
  enum? : α → Option EnumDeclaration

/-- The fields of a model are those in the first part that has any for it. -/
def Reading.view {α : Type} (r : Reading α) (models : List ModelDeclaration) (parts : List α) :
    SchemaView where
  models := .ok models
  fields model :=
    match parts.findSome? (r.fieldsOf? model) with
    | some list => .ok list
    | none => .error (.missingModel model)
  operations root := .ok (parts.flatMap (r.operations root))
  inputs := .ok (parts.filterMap r.input?)
  enums := .ok (parts.filterMap r.enum?)

namespace Document

/-- How a definition is read where the operation types have certain names. -/
def reading (names : OperationRoot → String) : Reading Definition where
  fieldsOf? := Definition.fieldsOf?
  operations root definition := (definition.contribution (names root)).map operationOf
  input?
    | .input name fields => some ⟨name, typedTable fields⟩
    | _ => none
  enum?
    | .enum name values => some ⟨name, values⟩
    | _ => none

/-- A document is read definition by definition, with the names that it gives its operation
types. -/
theorem view_eq_reading (source build : List Definition) :
    view source build = (reading (rootName build)).view (models source) build := by
  have hoperations : ∀ root, operations build root =
      build.flatMap ((reading (rootName build)).operations root) := fun root => List.map_flatMap
  rw [view, Reading.view, SchemaView.mk.injEq]
  exact ⟨rfl, rfl, funext fun root => congrArg Except.ok (hoperations root), rfl, rfl⟩

/-- The view of two texts that are documents. -/
theorem viewOfTexts_eq_ok {source build : String} {sources builds : List Definition}
    (hs : parse source = .ok sources) (hb : parse build = .ok builds) :
    viewOfTexts source build = .ok (view sources builds) := by
  rw [viewOfTexts, read, read, hs, hb]
  rfl

end Document

namespace Loose

open Text

/-- How a block is read. -/
def reading : Reading Block where
  fieldsOf? model block :=
    if block.keyword = .type && String.ofList block.name = model then
      some ((fields block.body).map fun field =>
        .ofRaw (String.ofList field.name) (String.ofList field.type))
    else none
  operations root block :=
    if block.keyword = .type && String.ofList block.name = root.typeName then
      (fields block.body).map operationOf
    else []
  input? block :=
    if block.keyword = .input then
      some ⟨String.ofList block.name,
        typedTable ((fields block.body).map fun field => (field.name, field.type))⟩
    else none
  enum? block :=
    if block.keyword = .enum then some ⟨String.ofList block.name, enumValues block.body⟩ else none

/-- A block of another name has no fields for the model. -/
theorem fieldsOf?_of_name_ne {block : Block} {model : String}
    (h : String.ofList block.name ≠ model) : reading.fieldsOf? model block = none := by
  simp only [reading, h, decide_false, Bool.and_false, Bool.false_eq_true, if_false]

theorem operations_of_name_ne {block : Block} {root : OperationRoot}
    (h : String.ofList block.name ≠ root.typeName) : reading.operations root block = [] := by
  simp only [reading, h, decide_false, Bool.and_false, Bool.false_eq_true, if_false]

def Block.model? (block : Block) : Option ModelDeclaration :=
  if block.keyword = .type && isModelHeader block.header then some (modelOf block) else none

section Lists

variable {α β : Type} (p : α → Bool)

/-- The questions of the loose view are put as searches and filters of blocks.  These three laws
make each of them a question to every block. -/
theorem map_find?_eq_findSome? (f : α → β) (list : List α) :
    (list.find? p).map f = list.findSome? fun a => if p a then some (f a) else none := by
  induction list with
  | nil => rfl
  | cons a list ih =>
    rw [List.find?_cons, List.findSome?_cons]
    cases p a with
    | false => exact ih
    | true => rfl

theorem flatMap_filter_eq_flatMap (f : α → List β) (list : List α) :
    (list.filter p).flatMap f = list.flatMap fun a => if p a then f a else [] := by
  induction list with
  | nil => rfl
  | cons a list ih =>
    rw [List.filter_cons, List.flatMap_cons, ← ih]
    cases p a <;> rfl

theorem map_filter_eq_filterMap (f : α → β) (list : List α) :
    (list.filter p).map f = list.filterMap fun a => if p a then some (f a) else none := by
  rw [← List.filterMap_eq_map, List.filterMap_filter]
  rfl

end Lists

section Questions

variable (text : List Char)

theorem models_eq_filterMap : models text = (blocks text).filterMap Block.model? :=
  map_filter_eq_filterMap _ _ _

theorem fieldsOf?_eq_findSome? (model : String) :
    fieldsOf? text model = (blocks text).findSome? (reading.fieldsOf? model) :=
  map_find?_eq_findSome? _ _ _

theorem operations_eq_flatMap (root : OperationRoot) :
    operations text root = (blocks text).flatMap (reading.operations root) :=
  flatMap_filter_eq_flatMap _ _ _

theorem inputs_eq_filterMap : inputs text = (blocks text).filterMap reading.input? := by
  rw [inputs, map_filter_eq_filterMap]
  simp only [decide_eq_true_eq]
  rfl

theorem enums_eq_filterMap : enums text = (blocks text).filterMap reading.enum? := by
  rw [enums, map_filter_eq_filterMap]
  simp only [decide_eq_true_eq]
  rfl

end Questions

/-- **A schema declares what the blocks of its cleaned text declare**, up to white space, since the
searches do not see how much of it there is. -/
theorem view_eq_reading {build : String} {text : List Char}
    (h : squeeze (clean build.toList) = squeeze text) (source : String) :
    view source build = reading.view (models (clean source.toList)) (blocks text) := by
  have hsame := SameBuild.of_squeeze h
  rw [view, Reading.view, SchemaView.mk.injEq, hsame.fields, hsame.operations, hsame.inputs,
    hsame.enums, funext (fieldsOf?_eq_findSome? text), funext (operations_eq_flatMap text),
    inputs_eq_filterMap, enums_eq_filterMap]
  exact ⟨rfl, rfl, rfl, rfl, rfl⟩

end Loose

/-! ## Words that begin no block

A search for blocks tries every place outside a word.  In front of a definition a word may stand,
such as the one that begins an extension, and the definition is found behind it all the same. -/

namespace Layout

/-- The word that begins an extension. -/
def extendWord : Name := ⟨['e', 'x', 't', 'e', 'n', 'd'], by decide⟩

end Layout

namespace Loose

open Text

/-- Inside a word no block begins. -/
theorem blocksFrom_inWord {s : List Char} (hs : ∀ c ∈ s, isWord c = true) (rest : List Char) :
    blocksFrom true (s ++ rest) = blocksFrom true rest := by
  induction s with
  | nil => rfl
  | cons c s ih =>
    rw [List.cons_append, blocksFrom_of_none (.inl rfl), hs c List.mem_cons_self]
    exact ih fun d hd => hs d (List.mem_cons_of_mem c hd)

/-- A word at which no block begins is passed over whole, since inside a word no block begins
either. -/
theorem blocksFrom_word {word rest : List Char} (hne : word ≠ [])
    (hword : ∀ c ∈ word, isWord c = true) (hnone : block? (word ++ rest) = none) :
    blocksFrom false (word ++ rest) = blocksFrom true rest := by
  obtain ⟨c, word, rfl⟩ := List.exists_cons_of_ne_nil hne
  rw [List.cons_append] at hnone ⊢
  rw [blocksFrom_of_none (.inr hnone), hword c List.mem_cons_self]
  exact blocksFrom_inWord (fun d hd => hword d (List.mem_cons_of_mem c hd)) rest

/-- White space ends a word. -/
theorem blocksFrom_behindWord {blank : List Char} (hne : blank ≠ [])
    (hblank : ∀ c ∈ blank, isBlank c = true) (rest : List Char) :
    blocksFrom true (blank ++ rest) = blocksFrom false rest := by
  obtain ⟨c, blank, rfl⟩ := List.exists_cons_of_ne_nil hne
  rw [List.cons_append, blocksFrom_of_none (.inl rfl),
    isWord_of_isBlank (hblank c List.mem_cons_self)]
  exact blocksFrom_between fun d hd => isWord_of_isBlank (hblank d (List.mem_cons_of_mem c hd))

/-- **An extension is found as if it was a definition.**  The word in front of it is passed over,
and the white space behind that word ends it. -/
theorem blocks_extend (space : Layout.Space) (rest : List Char) :
    blocks (Layout.extendWord.chars ++ (space.text .cleaned ++ rest)) = blocks rest := by
  have hne : Layout.extendWord.chars ≠ [] := List.cons_ne_nil _ _
  have hword : ∀ c ∈ Layout.extendWord.chars, isWord c = true := List.all_eq_true.1 rfl
  have hnone : ∀ more, block? (Layout.extendWord.chars ++ more) = none := fun more => rfl
  rw [blocks, blocksFrom_word hne hword (hnone _),
    blocksFrom_behindWord (Layout.text_space_ne_nil _) fun _ => Layout.isBlank_of_mem_space]
  rfl

/-! ## Texts that leave nothing open

Cleaning and searching go on from one text into the next if the first leaves something open: a
string, a list, or a block.  `LeavesNothingOpen` excludes all three, and the two lemmas give texts
of which it holds. -/

/-- A text that leaves nothing open: what stands behind it is cleaned for itself, up to white space
and unless it begins with an argument list, and searched for blocks for itself. -/
structure LeavesNothingOpen (s : List Char) : Prop where
  squeeze_clean : ∀ {rest}, NoList rest →
    squeeze (clean (s ++ rest)) = squeeze (clean s ++ clean rest)
  blocks : ∀ rest, blocks (clean s ++ rest) = Loose.blocks (clean s) ++ Loose.blocks rest

/-- A text whose cleaned text ends with a brace leaves nothing open behind the end of its last
line. -/
theorem LeavesNothingOpen.of_chunk {s : List Char} (h : (clean s).getLast? = some '\x7d') :
    LeavesNothingOpen (s ++ ['\n']) := by
  have hline : ∀ rest, clean (s ++ ['\n'] ++ rest) = clean s ++ '\n' :: clean rest := fun rest => by
    rw [List.append_assoc]
    refine clean_append_line (fun c hc => ?_) rest
    rw [h, Option.some.injEq] at hc
    exact hc.symm
  have hblocks : ∀ rest, Loose.blocks (clean s ++ '\n' :: rest) =
      Loose.blocks (clean s) ++ Loose.blocks rest := fun rest => by
    have hchunk : IsChunk (String.ofList s) := by rwa [IsChunk, String.toList_ofList]
    have happend := hchunk.blocks_append rest
    rwa [String.toList_ofList] at happend
  have hnil := hline []
  rw [List.append_nil, clean_nil] at hnil
  constructor
  · intro rest _
    rw [hline, hnil, List.append_assoc]
    rfl
  · intro rest
    rw [hnil, List.append_assoc, List.singleton_append, hblocks, hblocks, Loose.blocks,
      Loose.blocks, Loose.blocks, blocksFrom.eq_1, List.append_nil]

/-- Of a line feed nothing remains but white space. -/
theorem Place.isBlank_of_mem_step (p : Place) : ∀ c ∈ (p.step '\n').2, isBlank c = true := by
  have hbehind : ∀ around, ∀ c ∈ (stepBehind around '\n').2, isBlank c = true := by
    rintro (- | outer)
    · exact List.all_eq_true.1 rfl
    · exact List.all_eq_true.1 rfl
  cases p with
  | string around quote =>
    cases quote with
    | escaped => exact List.all_eq_true.1 rfl
    | block quotes => exact List.all_eq_true.1 rfl
    | opened => exact hbehind around
    | twice => exact hbehind around
    | inside => exact hbehind around
  | _ => exact List.all_eq_true.1 rfl

/-- A text that is squeezed like white space is white space. -/
theorem forall_isBlank_of_squeeze {s t : List Char} (h : squeeze s = squeeze t)
    (ht : ∀ c ∈ t, isBlank c = true) : ∀ c ∈ s, isBlank c = true := by
  have hdrop := congrArg (List.dropWhile isBlank) h
  rw [dropWhile_isBlank_squeeze, dropWhile_isBlank_squeeze, List.dropWhile_eq_nil_iff.2 ht] at hdrop
  refine List.dropWhile_eq_nil_iff.1 ?_
  cases hs : s.dropWhile isBlank with
  | nil => rfl
  | cons c more =>
    have hc := stops_dropWhile isBlank s c (by rw [hs]; rfl)
    rw [hs, squeeze_cons_of_not_blank hc] at hdrop
    cases hdrop

/-- A line without anything but white space, comments and strings, none of which goes on behind
it. -/
theorem LeavesNothingOpen.of_blank {s : List Char} (hblank : ∀ c ∈ clean s, isBlank c = true)
    (hplace : Place.text.after (s ++ ['\n']) = .text) : LeavesNothingOpen (s ++ ['\n']) := by
  have hline : ∀ c ∈ clean (s ++ ['\n']), isBlank c = true := by
    refine forall_isBlank_of_squeeze (Loose.squeeze_clean _) fun c hc => ?_
    rw [Place.output_append, List.mem_append] at hc
    rcases hc with hc | hc
    · exact forall_isBlank_of_squeeze (Loose.squeeze_clean s).symm hblank c hc
    · exact Place.isBlank_of_mem_step _ c (by simpa [Place.output] using hc)
  constructor
  · exact fun _ => squeeze_clean_append hplace _
  · intro rest
    have hword : ∀ c ∈ clean (s ++ ['\n']), isWord c = false := fun c hc =>
      isWord_of_isBlank (hline c hc)
    have hnil : Loose.blocks (clean (s ++ ['\n'])) = [] := by
      have hend := @blocksFrom_between _ [] hword
      rwa [List.append_nil, blocksFrom.eq_1] at hend
    rw [hnil, List.nil_append]
    exact blocksFrom_between hword

end Loose

end SchemaAccess
