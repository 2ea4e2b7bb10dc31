import SchemaAccess.Proofs.Loose.DirectiveLists
import SchemaAccess.Proofs.Views.Parts

/-!
# Definitions without a body

A definition needs no body, but the search for blocks knows none without.  Behind the name it takes
all up to the next brace for the header of the block, and whatever this brace opens for its body.
So a definition without a body takes the body of the definition behind it, which is found no longer.
Only where the next brace opens nothing, or what it opens declares nothing, can such a definition
stand in a schema as if it was not there.

* `Opening` — a text whose first brace opens a body.
* `blocks_plain_append` — what stands before other texts is passed over if it has no braces.
* `Insertion` — a schema with a definition without a body, and without that definition.
* `Insertion.blocks_line` — the block that takes the body of another.
* `Insertion.Harmless`, `sameButFor_insertion_iff` — the schemas that declare the same.
-/

namespace SchemaAccess.Loose

open Text Layout

/-! ## The first brace

What becomes of a definition without a body is a matter of the text behind it: whether its first
brace opens a body, and which. -/

/-- A text whose first brace opens a body, up to the next brace. -/
structure Opening (s : List Char) where
  header : List Char
  body : List Char
  behind : List Char
  plain_header : ∀ c ∈ header, isPlain c = true
  plain_body : ∀ c ∈ body, isPlain c = true
  eq_text : header ++ '\x7b' :: (body ++ '\x7d' :: behind) = s

section Openings

variable {s : List Char}

/-- The text up to the end of the body. -/
def Opening.front (o : Opening s) : List Char := o.header ++ '\x7b' :: (o.body ++ ['\x7d'])

/-- The blocks of such a text are those up to the end of the body, and those behind it. -/
theorem Opening.blocks_eq (o : Opening s) : blocks s = blocks o.front ++ blocks o.behind := by
  obtain ⟨header, body, behind, -, -, rfl⟩ := o
  have hfound := blocksFrom_append_closing false (header ++ '\x7b' :: body) behind
  rw [List.append_assoc, List.append_assoc, List.cons_append, List.cons_append] at hfound
  exact hfound

/-- Before a text whose first brace opens nothing, a text without braces is in no block. -/
theorem blocks_plain_append {plain : List Char} (hplain : ∀ c ∈ plain, isPlain c = true)
    (h : IsEmpty (Opening s)) : blocks (plain ++ s) = blocks s := by
  by_cases hs : ∀ c ∈ s, isPlain c = true
  · have hall : ∀ c ∈ plain ++ s, isPlain c = true := fun c hc =>
      (List.mem_append.1 hc).elim (hplain c) (hs c)
    rw [blocks, blocks, blocksFrom_eq_nil (not_mem_of_isPlain hall isPlain_opening),
      blocksFrom_eq_nil (not_mem_of_isPlain hs isPlain_opening)]
  · obtain ⟨header, brace, more, rfl, hheader, hbrace⟩ := exists_brace hs
    have hall : ∀ c ∈ plain ++ header, isPlain c = true := fun c hc =>
      (List.mem_append.1 hc).elim (hplain c) (hheader c)
    rw [← List.append_assoc]
    -- if the first brace opens, no brace closes it; otherwise it ends whatever stands before it
    rcases isPlain_eq_false_iff.1 hbrace with rfl | rfl
    · cases hbraced : braced? ('\x7b' :: more) with
      | none =>
        rw [blocks, blocks, blocksFrom_of_unclosed _ hall hbraced,
          blocksFrom_of_unclosed _ hheader hbraced]
      | some found =>
        obtain ⟨hbody, htext⟩ := append_of_braced? hbraced
        exact h.elim ⟨header, found.1, found.2, hheader, hbody, by rw [htext]⟩
    · rw [blocks_closing hall, blocks_closing hheader]

end Openings

/-! ## Declarations of one part

A definition without a body replaces some parts of a reading by one.  For each kind of question it
is asked when the answer stays the same: for lists, when nothing is lost and nothing is gained. -/

section Lists

variable {α β : Type} {before taken behind : List α} {part : α}

/-- A list of declarations stays the same only if the new part makes none and the parts that are
lost made none.  That a new one might equal a lost one is excluded by hypothesis. -/
theorem filterMap_taken_iff {f : α → Option β}
    (h : ∀ b, f part = some b → ∀ other ∈ taken, f other ≠ some b) :
    (before ++ part :: behind).filterMap f = (before ++ (taken ++ behind)).filterMap f ↔
      f part = none ∧ taken.filterMap f = [] := by
  simp only [List.filterMap_append, List.filterMap_cons, List.append_cancel_left_eq]
  cases hpart : f part with
  | none => simp [List.self_eq_append_left]
  | some b =>
    simp only [reduceCtorEq, false_and, iff_false]
    intro heq
    -- the two lists have the same end, so the part declares what one of those taken did
    have htaken : [b] = taken.filterMap f := (List.append_left_inj (behind.filterMap f)).1 heq
    have hb : b ∈ taken.filterMap f := htaken ▸ List.mem_singleton_self b
    obtain ⟨other, hother, hfound⟩ := List.mem_filterMap.1 hb
    exact h b hpart other hother hfound

/-- Joined lists stay the same only if the lost parts had nothing, should the new part have
nothing. -/
theorem flatMap_taken_iff {f : α → List β} (h : f part = []) :
    (before ++ part :: behind).flatMap f = (before ++ (taken ++ behind)).flatMap f ↔
      taken.flatMap f = [] := by
  simp only [List.flatMap_append, List.flatMap_cons, h, List.nil_append,
    List.append_cancel_left_eq, List.self_eq_append_left]

/-- What is found first stays the same if the lost parts had nothing, if it is found before them, or
if the same is found behind them. -/
theorem findSome?_taken_iff {f : α → Option β} (h : f part = none) :
    (before ++ part :: behind).findSome? f = (before ++ (taken ++ behind)).findSome? f ↔
      taken.findSome? f = none ∨ before.findSome? f ≠ none ∨
        behind.findSome? f = taken.findSome? f := by
  simp only [List.findSome?_append, List.findSome?_cons, h]
  cases before.findSome? f with
  | some b => simp
  | none =>
    cases taken.findSome? f with
    | none => simp
    | some b => simp

end Lists

section Names

variable {block : Block}

/-- A declaration has the name of its block, for each of the three kinds. -/
theorem name_of_model? {declared : ModelDeclaration} (h : block.model? = some declared) :
    declared.name = String.ofList block.name := by
  rw [Block.model?] at h
  split at h
  · cases h
    rfl
  · cases h

theorem name_of_input? {declared : InputDeclaration} (h : reading.input? block = some declared) :
    declared.name = String.ofList block.name := by
  simp only [reading] at h
  split at h
  · cases h
    rfl
  · cases h

theorem name_of_enum? {declared : EnumDeclaration} (h : reading.enum? block = some declared) :
    declared.name = String.ofList block.name := by
  simp only [reading] at h
  split at h
  · cases h
    rfl
  · cases h

/-- A block that declares no more than the fields of its type. -/
theorem undeclared_iff :
    (block.model? = none ∧ reading.input? block = none ∧ reading.enum? block = none) ↔
      block.keyword = .interface ∨ block.keyword = .type ∧ isModelHeader block.header = false := by
  obtain ⟨keyword, name, header, body⟩ := block
  cases keyword <;> simp [Block.model?, reading]

end Names

/-! ## Schemas that differ in one definition

The definition is put on a line of its own into any schema.  Two conditions keep other effects out:
nothing above it is left open, and the schema has no block of its name. -/

/-- Two schemas declare the same, but for the fields of one type. -/
structure SameButFor (type text other : String) : Prop where
  models : ∀ build, (view text build).models = (view other build).models
  fields : ∀ source model, model ≠ type →
    (view source text).fields model = (view source other).fields model
  operations : ∀ source, (view source text).operations = (view source other).operations
  inputs : ∀ source, (view source text).inputs = (view source other).inputs
  enums : ∀ source, (view source text).enums = (view source other).enums

theorem sameButFor_iff {type text other : String} {s t : List Char}
    (hs : squeeze (clean text.toList) = squeeze s) (ht : squeeze (clean other.toList) = squeeze t) :
    SameButFor type text other ↔ models s = models t ∧
      (∀ model, model ≠ type → fieldsOf? s model = fieldsOf? t model) ∧
      (∀ root, operations s root = operations t root) ∧ inputs s = inputs t ∧
      enums s = enums t := by
  have hmodels : ∀ {text : List Char} {s}, squeeze text = squeeze s → models text = models s :=
    fun h => by rw [← models_squeeze, h, models_squeeze]
  have hsame := SameBuild.of_squeeze hs
  have hsame' := SameBuild.of_squeeze ht
  have hfields : ∀ source model,
      (view source text).fields model = (view source other).fields model ↔
        fieldsOf? s model = fieldsOf? t model := by
    intro source model
    simp only [view, hsame.fields, hsame'.fields]
    cases fieldsOf? s model <;> cases fieldsOf? t model <;> simp
  constructor
  · rintro ⟨models, fields, operations, inputs, enums⟩
    have hmodel := models ""
    have hoperations := operations ""
    have hinputs := inputs ""
    have henums := enums ""
    simp only [view, hmodels hs, hmodels ht, hsame.operations, hsame'.operations, hsame.inputs,
      hsame'.inputs, hsame.enums, hsame'.enums, Except.ok.injEq]
      at hmodel hoperations hinputs henums
    exact ⟨hmodel, fun model hmodel => (hfields "" model).1 (fields "" model hmodel),
      fun root => Except.ok.inj (congrFun hoperations root), hinputs, henums⟩
  · rintro ⟨hmodel, hfield, hoperations, hinputs, henums⟩
    refine ⟨fun build => ?_, fun source model hne => (hfields source model).2 (hfield model hne),
      fun source => ?_, fun source => ?_, fun source => ?_⟩
    · simp only [view, hmodels hs, hmodels ht, hmodel]
    · simp only [view, hsame.operations, hsame'.operations, hoperations]
    · simp only [view, hsame.inputs, hsame'.inputs, hinputs]
    · simp only [view, hsame.enums, hsame'.enums, henums]

/-- The text ends in a body, or nothing is left of it and no string goes on behind its last line. -/
def IsFlush (s : List Char) : Prop :=
  (clean s).getLast? = some '\x7d' ∨
    (∀ c ∈ clean s, isBlank c = true) ∧ Place.text.after (s ++ ['\n']) = .text

/-- Behind a flush text a line can be put in, because no string, list or block goes on over it. -/
theorem IsFlush.leavesNothingOpen {s : List Char} (h : IsFlush s) :
    LeavesNothingOpen (s ++ ['\n']) := by
  rcases h with hlast | ⟨hblank, hplace⟩
  · exact .of_chunk hlast
  · exact .of_blank hblank hplace

/-- A definition without a body, or an extension without one, to be put between two parts of a
schema on a line of its own.  The schema has no block of its name. -/
structure Insertion where
  above : List Char
  isFlush : IsFlush above
  /-- What stands behind the word that begins an extension, if there is one. -/
  extension : Option Space
  keyword : Keyword
  beforeName : Space
  name : Name
  directives : List Tag
  below : List Char
  notModel : modelDirective ∉ tagNames directives
  noList : NoList below
  isFresh : ∀ block ∈ blocks (clean (above ++ '\n' :: below)), block.name ≠ name.chars
  notRoot : ∀ root : OperationRoot, name.string ≠ root.typeName

namespace Insertion

variable (i : Insertion)

def line (stage : Stage) : List Char :=
  (i.extension.map fun space => extendWord.chars ++ space.text stage).getD [] ++
    (keywordText i.keyword ++ (i.beforeName.text stage ++
      (i.name.chars ++ tagsText stage i.directives)))

/-- The schema without the definition. -/
def original : String := String.ofList (i.above ++ '\n' :: i.below)

/-- The schema with the definition. -/
def enlarged : String := String.ofList (i.above ++ '\n' :: (i.line .written ++ '\n' :: i.below))

/-- What is found above the definition. -/
def earlier : List Char := clean (i.above ++ ['\n'])

/-- The schema without the definition when it is cleaned, up to white space. -/
def cleanedOriginal : List Char := i.earlier ++ clean i.below

/-- The schema with the definition when it is cleaned, up to white space. -/
def cleanedEnlarged : List Char := i.earlier ++ (i.line .cleaned ++ '\n' :: clean i.below)

/-! ### Blocks -/

/-- The line is cleaned on its own. -/
theorem clean_line :
    clean (i.line .written ++ '\n' :: i.below) = i.line .cleaned ++ '\n' :: clean i.below := by
  have hseam : Seam ('\n' :: i.below) :=
    ⟨stops_cons (by decide) _, NoList.blank (by decide) i.noList⟩
  have hname : clean (keywordText i.keyword ++ (i.beforeName.text .written ++
      (i.name.chars ++ (tagsText .written i.directives ++ '\n' :: i.below)))) =
      keywordText i.keyword ++ (i.beforeName.text .cleaned ++
        (i.name.chars ++ (tagsText .cleaned i.directives ++ '\n' :: clean i.below))) := by
    rw [clean_name ⟨keywordText i.keyword, isName_keyword i.keyword⟩, clean_space, clean_name,
      clean_tags _ hseam, clean_char (by decide)]
  simp only [line, List.append_assoc]
  cases i.extension with
  | none => exact hname
  | some space =>
    simp only [Option.map_some, Option.getD_some, List.append_assoc]
    rw [clean_name, clean_space, hname]

theorem noList_line (rest : List Char) : NoList (i.line .written ++ rest) := by
  simp only [line, List.append_assoc]
  cases i.extension with
  | none => exact NoList.name (isName_keyword i.keyword) _
  | some space =>
    simp only [Option.map_some, Option.getD_some, List.append_assoc]
    exact NoList.name extendWord.isName _

/-- The schema without the definition is cleaned to its two parts, up to the white space between
them. -/
theorem squeeze_clean_original :
    squeeze (clean i.original.toList) = squeeze i.cleanedOriginal := by
  have htext : i.original.toList = (i.above ++ ['\n']) ++ i.below := by
    rw [original, String.toList_ofList, List.append_assoc, List.singleton_append]
  rw [htext, i.isFlush.leavesNothingOpen.squeeze_clean i.noList, cleanedOriginal, earlier]

theorem squeeze_clean_enlarged :
    squeeze (clean i.enlarged.toList) = squeeze i.cleanedEnlarged := by
  have htext : i.enlarged.toList = (i.above ++ ['\n']) ++ (i.line .written ++ '\n' :: i.below) := by
    rw [enlarged, String.toList_ofList, List.append_assoc, List.singleton_append]
  rw [htext, i.isFlush.leavesNothingOpen.squeeze_clean (i.noList_line _), clean_line,
    cleanedEnlarged, earlier]

/-- No brace is on the line, so it lies in the header of the block that its definition becomes. -/
theorem plain_line : ∀ c ∈ i.line .cleaned ++ ['\n'], isPlain c = true := by
  have hname : ∀ name : Name, ∀ c ∈ name.chars, isPlain c = true := fun name c hc =>
    isPlain_of_isNameChar (isNameChar_of_mem name.isName hc)
  have hspace : ∀ space : Space, ∀ c ∈ space.text .cleaned, isPlain c = true := fun space c hc =>
    isPlain_of_isBlank (isBlank_of_mem_space hc)
  intro c hc
  simp only [line, List.mem_append, List.mem_singleton] at hc
  rcases hc with (hc | hc | hc | hc | hc) | rfl
  · cases hextension : i.extension with
    | none => simp [hextension] at hc
    | some space =>
      simp only [hextension, Option.map_some, Option.getD_some, List.mem_append] at hc
      exact hc.elim (hname _ c) (hspace _ c)
  · exact hname ⟨_, isName_keyword i.keyword⟩ c hc
  · exact hspace _ c hc
  · exact hname _ c hc
  · exact (inert_of_mem_tags hc).2.2
  · decide

variable (o : Opening (clean i.below))

/-- The block that the definition becomes. -/
def block : Block :=
  ⟨i.keyword, i.name.chars, tagsText .cleaned i.directives ++ '\n' :: o.header, o.body⟩

/-- **The definition takes the body of the next one.**  Its block has all up to the brace for a
header, and the search goes on behind the body. -/
theorem blocks_line :
    blocks (i.line .cleaned ++ '\n' :: clean i.below) = i.block o :: blocks o.behind := by
  have hplain : ∀ c ∈ tagsText .cleaned i.directives ++ '\n' :: o.header, isPlain c = true := by
    intro c hc
    rw [List.mem_append, List.mem_cons] at hc
    rcases hc with hc | rfl | hc
    · exact (inert_of_mem_tags hc).2.2
    · decide
    · exact o.plain_header c hc
  have hstop : Stops isNameChar ((tagsText .cleaned i.directives ++ '\n' :: o.header) ++
      '\x7b' :: (o.body ++ '\x7d' :: o.behind)) := by
    rw [List.append_assoc, List.cons_append]
    exact stops_tags (fun _ => isNameChar_of_isBlank) (by decide) (by decide)
      (stops_cons (by decide) _)
  have hblock := block?_append (keyword?_append i.keyword) (text_space_ne_nil i.beforeName)
    (fun _ => isBlank_of_mem_space) i.name.isName hstop hplain o.plain_body
  have hfound : blocks (keywordText i.keyword ++ (i.beforeName.text .cleaned ++ (i.name.chars ++
      (tagsText .cleaned i.directives ++ '\n' :: clean i.below)))) =
      i.block o :: blocks o.behind := by
    simp only [List.append_assoc, List.cons_append, o.eq_text] at hblock
    exact blocksFrom_of_some hblock
  simp only [line, List.append_assoc]
  cases i.extension with
  | none => exact hfound
  | some space =>
    simp only [Option.map_some, Option.getD_some, List.append_assoc]
    rw [blocks_extend, hfound]

/-- The blocks of the schema without the definition, told by the same opening. -/
theorem blocks_original :
    blocks i.cleanedOriginal = blocks i.earlier ++ (blocks o.front ++ blocks o.behind) := by
  rw [cleanedOriginal, earlier, i.isFlush.leavesNothingOpen.blocks, o.blocks_eq]

/-- The blocks of the schema with it: one block has taken the place of those up to the end of the
body. -/
theorem blocks_enlarged :
    blocks i.cleanedEnlarged = blocks i.earlier ++ i.block o :: blocks o.behind := by
  rw [cleanedEnlarged, earlier, i.isFlush.leavesNothingOpen.blocks, i.blocks_line o]

variable {i o}

/-- Nothing that loses its body has the name of the definition. -/
theorem name_ne_of_mem {block : Block} (h : block ∈ blocks o.front) :
    block.name ≠ i.name.chars := by
  have hnames : (blocks (clean (i.above ++ '\n' :: i.below))).map Block.name =
      (blocks i.cleanedOriginal).map Block.name := by
    have hsqueeze : ∀ s, (blocks (squeeze s)).map Block.name = (blocks s).map Block.name := by
      intro s
      rw [blocks_squeeze, List.map_map]
      rfl
    have hclean := i.squeeze_clean_original
    rw [original, String.toList_ofList] at hclean
    rw [← hsqueeze, hclean, hsqueeze]
  have hmem : block.name ∈ (blocks i.cleanedOriginal).map Block.name := by
    rw [i.blocks_original o]
    exact List.mem_map_of_mem (by simp [h])
  rw [← hnames] at hmem
  obtain ⟨other, hother, hname⟩ := List.mem_map.1 hmem
  exact hname ▸ i.isFresh other hother

/-! ### Declarations -/

/-- The directives of the definition do not mark a model. -/
theorem isModelHeader_block : isModelHeader (i.block o).header = isModelHeader o.header := by
  have htags : isModelHeader (tagsText .cleaned i.directives) = false := by
    refine Bool.eq_false_iff.2 fun hmodel => i.notModel ?_
    rw [isModelHeader, List.contains_iff_mem, mem_words_tags (by decide)] at hmodel
    exact hmodel.mem
  have hheader : isModelHeader ('\n' :: o.header) = isModelHeader o.header := by
    rw [isModelHeader, isModelHeader, words, words, piecesWhere_separator (by decide)]
  rw [block, isModelHeader_append (by decide), htags, hheader, Bool.false_or]

/-- Declarations that are told apart by their names stay the same only if the definition makes none
and takes the body of none, since no block has its name. -/
theorem filterMap_enlarged_iff {β : Type} {f : Block → Option β} {nameOf : β → String}
    (hname : ∀ {block b}, f block = some b → nameOf b = String.ofList block.name) :
    (blocks i.cleanedEnlarged).filterMap f = (blocks i.cleanedOriginal).filterMap f ↔
      f (i.block o) = none ∧ (blocks o.front).filterMap f = [] := by
  rw [i.blocks_enlarged o, i.blocks_original o]
  refine filterMap_taken_iff fun b hb other hother hsame => ?_
  exact name_ne_of_mem hother (String.ofList_injective ((hname hsame).symm.trans (hname hb)))

/-- For models, input types and enumerations this says when each list stays the same. -/
theorem models_enlarged_iff :
    models i.cleanedEnlarged = models i.cleanedOriginal ↔
      (i.block o).model? = none ∧ models o.front = [] := by
  rw [models_eq_filterMap, models_eq_filterMap, models_eq_filterMap]
  exact filterMap_enlarged_iff name_of_model?

theorem inputs_enlarged_iff :
    inputs i.cleanedEnlarged = inputs i.cleanedOriginal ↔
      reading.input? (i.block o) = none ∧ inputs o.front = [] := by
  rw [inputs_eq_filterMap, inputs_eq_filterMap, inputs_eq_filterMap]
  exact filterMap_enlarged_iff name_of_input?

theorem enums_enlarged_iff :
    enums i.cleanedEnlarged = enums i.cleanedOriginal ↔
      reading.enum? (i.block o) = none ∧ enums o.front = [] := by
  rw [enums_eq_filterMap, enums_eq_filterMap, enums_eq_filterMap]
  exact filterMap_enlarged_iff name_of_enum?

/-- The operations of a root stay the same exactly if none was declared where the body is taken
from. -/
theorem operations_enlarged_iff (root : OperationRoot) :
    operations i.cleanedEnlarged root = operations i.cleanedOriginal root ↔
      operations o.front root = [] := by
  rw [operations_eq_flatMap, operations_eq_flatMap, operations_eq_flatMap, i.blocks_enlarged o,
    i.blocks_original o]
  exact flatMap_taken_iff (operations_of_name_ne (i.notRoot root))

theorem fieldsOf?_enlarged_iff {model : String} (hmodel : model ≠ i.name.string) :
    fieldsOf? i.cleanedEnlarged model = fieldsOf? i.cleanedOriginal model ↔
      fieldsOf? o.front model = none ∨ fieldsOf? i.earlier model ≠ none ∨
        fieldsOf? o.behind model = fieldsOf? o.front model := by
  simp only [fieldsOf?_eq_findSome?, i.blocks_enlarged o, i.blocks_original o]
  exact findSome?_taken_iff (fieldsOf?_of_name_ne hmodel.symm)

/-- The definition of the name has no fields where the body is taken from. -/
theorem fieldsOf?_front : fieldsOf? o.front i.name.string = none := by
  rw [fieldsOf?_eq_findSome?, List.findSome?_eq_none_iff]
  exact fun block hblock => fieldsOf?_of_name_ne fun hname =>
    name_ne_of_mem hblock (String.ofList_injective hname)

/-- It does no harm that the definition takes a body: what becomes of it declares no more than
fields of its own type, and what had the body before declared nothing, or only fields that do not
count. -/
structure Harmless (i : Insertion) (o : Opening (clean i.below)) : Prop where
  keyword : i.keyword = .interface ∨ i.keyword = .type ∧ isModelHeader o.header = false
  models : models o.front = []
  fields : ∀ model, fieldsOf? o.front model = none ∨ fieldsOf? i.earlier model ≠ none ∨
    fieldsOf? o.behind model = fieldsOf? o.front model
  operations : ∀ root, operations o.front root = []
  inputs : inputs o.front = []
  enums : enums o.front = []

/-- **If the next brace opens a body, the schemas declare the same exactly if it does no harm that
it is taken.**  The questions are put one by one, each with its law above. -/
theorem sameButFor_iff_harmless :
    SameButFor i.name.string i.enlarged i.original ↔ i.Harmless o := by
  rw [sameButFor_iff i.squeeze_clean_enlarged i.squeeze_clean_original,
    models_enlarged_iff (o := o), inputs_enlarged_iff (o := o), enums_enlarged_iff (o := o)]
  constructor
  · rintro ⟨⟨hmodel, hmodels⟩, hfields, hoperations, ⟨hinput, hinputs⟩, henum, henums⟩
    have hkeyword := undeclared_iff.1 ⟨hmodel, hinput, henum⟩
    rw [isModelHeader_block] at hkeyword
    refine ⟨hkeyword, hmodels, fun model => ?_,
      fun root => (operations_enlarged_iff root).1 (hoperations root), hinputs, henums⟩
    by_cases hname : model = i.name.string
    · exact .inl (hname ▸ fieldsOf?_front)
    · exact (fieldsOf?_enlarged_iff hname).1 (hfields model hname)
  · rintro ⟨hkeyword, hmodels, hfields, hoperations, hinputs, henums⟩
    rw [← isModelHeader_block (o := o)] at hkeyword
    obtain ⟨hmodel, hinput, henum⟩ := (@undeclared_iff (i.block o)).2 hkeyword
    exact ⟨⟨hmodel, hmodels⟩, fun model hname => (fieldsOf?_enlarged_iff hname).2 (hfields model),
      fun root => (operations_enlarged_iff root).2 (hoperations root), ⟨hinput, hinputs⟩, henum,
      henums⟩

/-- If it opens none, the definition is passed over. -/
theorem sameButFor_of_isEmpty (h : IsEmpty (Opening (clean i.below))) :
    SameButFor i.name.string i.enlarged i.original := by
  have hblocks : blocks i.cleanedEnlarged = blocks i.cleanedOriginal := by
    have hline := blocks_plain_append i.plain_line h
    rw [List.append_assoc, List.singleton_append] at hline
    rw [cleanedEnlarged, cleanedOriginal, earlier, i.isFlush.leavesNothingOpen.blocks,
      i.isFlush.leavesNothingOpen.blocks, hline]
  have hsame := SameBuild.of_blocks hblocks
  rw [sameButFor_iff i.squeeze_clean_enlarged i.squeeze_clean_original]
  refine ⟨?_, fun model _ => congrFun hsame.fields model, congrFun hsame.operations, hsame.inputs,
    hsame.enums⟩
  rw [models, models, hblocks]

end Insertion

/-- **A definition without a body can stand in a schema as if it was not there** exactly if the next
brace opens no body, or if it does no harm that the definition takes that body. -/
theorem sameButFor_insertion_iff (i : Insertion) :
    SameButFor i.name.string i.enlarged i.original ↔
      ∀ o : Opening (clean i.below), i.Harmless o := by
  constructor
  · exact fun h o => Insertion.sameButFor_iff_harmless.1 h
  · intro h
    rcases isEmpty_or_nonempty (Opening (clean i.below)) with hempty | ⟨⟨o⟩⟩
    · exact Insertion.sameButFor_of_isEmpty hempty
    · exact Insertion.sameButFor_iff_harmless.2 (h o)

/-! ## A type above a type with fields -/

/-- A type without a body, on the line above a type that has one. -/
def typeAbove : Insertion where
  above := []
  isFlush := .inr ⟨by simp [clean_nil], rfl⟩
  extension := none
  keyword := .type
  beforeName := ⟨.blank ' ' isBlank_space, []⟩
  name := ⟨['N'], by decide⟩
  directives := []
  below := "type A \x7b x: Int \x7d".toList
  notModel := List.not_mem_nil
  noList := NoList.cons (by decide) (by decide) _
  isFresh := by decide +kernel
  notRoot root := by cases root <;> decide

/-- The type below has lost its fields. -/
theorem not_sameButFor_typeAbove :
    ¬ SameButFor typeAbove.name.string typeAbove.enlarged typeAbove.original := by
  intro hsame
  have hfields := hsame.fields "" "A" (by decide +kernel)
  exact absurd hfields (by decide +kernel)

end SchemaAccess.Loose
