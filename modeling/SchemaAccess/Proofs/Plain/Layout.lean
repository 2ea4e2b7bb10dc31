import SchemaAccess.Proofs.Plain.Syntax

/-!
# The layout of a plain schema

A plain schema as it is printed is one layout of what it defines: the line ends and spaces become
gaps and margins.

* `marginOf`, `itemsOf` — a margin without strings, and items with one margin between them.
* `Schema.layout` — the layout; `text_layout` and `definitions_layout` say that it has the printed
  text and the same definitions.
-/

namespace SchemaAccess.Plain

open Layout

/-! ## Margins and items

A plain schema is printed with fixed white space: one space, one line feed with an indent, a comma
with a space.  Each is a margin or a gap of a layout, and a list that is printed with the same
margin between any two items is a list of items in the sense of layouts. -/

def blankFiller : Filler := .blank ' ' (by decide)

def lineFiller : Filler := .blank '\n' (by decide)

def oneSpace : Space := ⟨blankFiller, []⟩

/-- A margin without strings. -/
def marginOf (marks : List Mark) (allowed : ∀ c, Mark.char c ∈ marks → (c == ',') = true)
    (plain : ∀ m ∈ marks, m.isLiteral = false) : Margin where
  marks := marks
  allowed := allowed
  apart := by
    induction marks with
    | nil => exact .nil
    | cons m marks ih =>
      have ih := ih (fun c hc => allowed c (List.mem_cons_of_mem m hc))
        fun n hn => plain n (List.mem_cons_of_mem m hn)
      cases marks with
      | nil => exact .singleton m
      | cons n marks => exact .cons_cons (fun _ => plain n (by simp)) ih

def blankMargin (fillers : List Filler) : Margin :=
  marginOf (fillers.map .filler) (by simp) (by simp [Mark.isLiteral])

def lineMargin (style : Style) : Margin :=
  blankMargin (lineFiller :: List.replicate style.indent blankFiller)

def commaMargin : Margin :=
  marginOf [.char ',', .filler blankFiller] (by simp) (by simp [Mark.isLiteral])

/-- A margin of white space does not begin with a string, so it may stand behind any item. -/
theorem beginsQuoted_blankMargin (fillers : List Filler) :
    (blankMargin fillers).beginsQuoted = false := by
  cases fillers with
  | nil => rfl
  | cons f fillers => rfl

theorem beginsQuoted_lineMargin (style : Style) : (lineMargin style).beginsQuoted = false :=
  beginsQuoted_blankMargin _

theorem marks_lineMargin (style : Style) : (lineMargin style).marks ≠ [] := List.cons_ne_nil _ _

theorem beginsQuoted_commaMargin : commaMargin.beginsQuoted = false := rfl

theorem marks_commaMargin : commaMargin.marks ≠ [] := List.cons_ne_nil _ _

/-- The text of a margin of white space is that of a gap. -/
theorem text_blankMargin (stage : Stage) (fillers : List Filler) :
    (blankMargin fillers).text stage = Gap.text stage fillers := by
  change (fillers.map Mark.filler).flatMap (Mark.text stage) = _
  rw [List.flatMap_map]
  rfl

theorem text_replicate {f : Filler} {c : Char} (h : f.text .written = [c]) (n : Nat) :
    Gap.text .written (List.replicate n f) = List.replicate n c := by
  induction n with
  | zero => rfl
  | succ n ih =>
    rw [Gap.text] at ih
    rw [Gap.text, List.replicate_succ, List.flatMap_cons, ih, h]
    rfl

/-- The margin between two fields is the line end of the style, with its indent. -/
theorem text_lineMargin (style : Style) : (lineMargin style).text .written = style.line := by
  rw [lineMargin, text_blankMargin, Gap.text, List.flatMap_cons]
  exact congrArg _ (text_replicate rfl style.indent)

section Items

variable {α : Type} [Item α] (between last : Margin) (hb : between.beginsQuoted = false)
  (hl : last.beginsQuoted = false)

/-- Items with one margin between them and another behind the last. -/
def entriesOf : List α → List (Entry α)
  | [] => []
  | [a] => [⟨a, last, fun _ => hl⟩]
  | a :: b :: as => ⟨a, between, fun _ => hb⟩ :: entriesOf (b :: as)

/-- Between any two items stands something, as lists of items demand. -/
theorem separated_entriesOf (hne : between.marks ≠ []) : ∀ as : List α,
    (entriesOf between last hb hl as).IsChain fun a _ => a.after.marks ≠ []
  | [] => .nil
  | [_] => .singleton _
  | [_, _] => .cons_cons hne (.singleton _)
  | _ :: b :: c :: as => .cons_cons hne (separated_entriesOf hne (b :: c :: as))

/-- A list of items in which one margin stands between any two. -/
def itemsOf (before : Margin) (hne : between.marks ≠ []) (as : List α) : Items α where
  before := before
  entries := entriesOf between last hb hl as
  separated := separated_entriesOf between last hb hl hne as

/-- The items are those that were given, in order. -/
theorem map_entriesOf : ∀ as : List α,
    (entriesOf between last hb hl as).map Entry.item = as
  | [] => rfl
  | [_] => rfl
  | a :: b :: as => congrArg (a :: ·) (map_entriesOf (b :: as))

theorem list_itemsOf (before : Margin) (hne : between.marks ≠ []) (as : List α) :
    (itemsOf between last hb hl before hne as).list = as := map_entriesOf between last hb hl as

/-- The text of items with one margin between them, as it is printed: the first item, and each other
one behind a margin.  By induction on the items behind the first. -/
theorem text_entriesOf (stage : Stage) (a : α) : ∀ as : List α,
    (entriesOf between last hb hl (a :: as)).flatMap (Entry.text stage) =
      Item.text stage a ++ as.flatMap (fun b => between.text stage ++ Item.text stage b) ++
        last.text stage := by
  intro as
  induction as generalizing a with
  | nil => simp only [entriesOf, List.flatMap_cons, List.flatMap_nil, List.append_nil, Entry.text]
  | cons b as ih =>
    rw [entriesOf, List.flatMap_cons, ih b, Entry.text, List.flatMap_cons]
    simp only [List.append_assoc]

/-- **The text of a list of items** as it is printed, with the margins before and behind it. -/
theorem text_itemsOf (stage : Stage) (before : Margin) (hne : between.marks ≠ []) (a : α)
    (as : List α) :
    (itemsOf between last hb hl before hne (a :: as)).text stage =
      before.text stage ++ (Item.text stage a ++
        as.flatMap (fun b => between.text stage ++ Item.text stage b) ++ last.text stage) :=
  congrArg _ (text_entriesOf between last hb hl stage a as)

end Items

/-! ## Nodes

Each node of a plain schema has a layout with its text, `text_…`, and with what it defines,
`definition_…` and its like.  The pairs of laws go from directives and arguments over fields to
bodies. -/

def directiveLayout (d : Name) : Directive := ⟨oneSpace, d, none⟩

theorem text_directiveLayout (d : Name) :
    (directiveLayout d).text .written = ' ' :: '@' :: d.chars := by
  simp [Directive.text, directiveLayout, oneSpace, Space.text, Gap.text, blankFiller, Filler.text]

/-- Directives are laid out with one space before each and no arguments. -/
theorem text_directives (ds : List Name) :
    Layout.directivesText .written (ds.map directiveLayout) = directivesText ds := by
  rw [Layout.directivesText, List.flatMap_map, directivesText]
  simp only [text_directiveLayout]

theorem directiveNames_layout (ds : List Name) :
    directiveNames (ds.map directiveLayout) = ds.map Name.string := by
  rw [directiveNames, List.map_map]
  rfl

def Argument.layout (a : Argument) : InputValue where
  name := a.name
  beforeColon := []
  afterColon := [blankFiller]
  type := a.type.toTypeUse
  defaultValue := none
  directives := []

theorem Argument.text_layout (a : Argument) : Item.text .written a.layout = a.text := by
  simp [Item.text, Argument.layout, Argument.text, Gap.text, blankFiller, Filler.text,
    Layout.directivesText]

def commaItems (as : List Argument) : Items InputValue :=
  itemsOf commaMargin (blankMargin []) beginsQuoted_commaMargin (beginsQuoted_blankMargin [])
    (blankMargin []) marks_commaMargin (as.map Argument.layout)

/-- Arguments are laid out with a comma and a space between any two, as they are printed. -/
theorem text_commaItems (a : Argument) (as : List Argument) :
    (commaItems (a :: as)).text .written = commaText ((a :: as).map Argument.text) := by
  have hcomma : commaMargin.text .written = [',', ' '] := rfl
  have hnone : (blankMargin []).text .written = [] := rfl
  rw [commaItems, List.map_cons, text_itemsOf, hcomma, hnone, List.flatMap_map, List.map_cons,
    commaText, List.flatMap_map, List.append_nil, List.nil_append, Argument.text_layout]
  simp only [Argument.text_layout]

def argumentsLayout : List Argument → Option Arguments
  | [] => none
  | a :: as => some ⟨[], commaItems (a :: as)⟩

/-- An empty argument list has no parentheses; any other has the text that is printed. -/
theorem text_argumentsLayout (as : List Argument) :
    ((argumentsLayout as).map (·.text .written)).getD [] = argumentsText as := by
  cases as with
  | nil => rfl
  | cons a as =>
    rw [argumentsLayout, Option.map_some, Option.getD_some, Arguments.text, text_commaItems,
      argumentsText]
    rfl

/-- The arguments of the layout are those of the field, with their types. -/
theorem typedName_argumentsLayout (as : List Argument) :
    (match argumentsLayout as with
      | some list => list.values.list.map InputValue.typedName
      | none => []) = as.map Argument.typedName := by
  cases as with
  | nil => rfl
  | cons a as =>
    change (commaItems (a :: as)).list.map InputValue.typedName = _
    rw [commaItems, list_itemsOf, List.map_map]
    rfl

def Field.layout (f : Field) : Layout.Field where
  name := f.name
  arguments := argumentsLayout f.arguments
  beforeColon := []
  afterColon := [blankFiller]
  type := f.type.toTypeUse
  directives := f.directives.map directiveLayout

/-- **A field has the text that is printed**: its name, its arguments if it has some, its type and
its directives. -/
theorem Field.text_layout (f : Field) : Item.text .written f.layout = f.text := by
  simp only [Item.text, Field.layout, text_argumentsLayout, text_directives, Field.text]
  simp [Gap.text, blankFiller, Filler.text]

theorem Field.definition_layout (f : Field) : f.layout.definition = f.definition := by
  rw [Layout.Field.definition, Field.layout, Field.definition, directiveNames_layout]
  exact congrArg (fun as => (⟨f.name.string, as, f.type.type, f.directives.map Name.string⟩ :
    Document.FieldDefinition)) (typedName_argumentsLayout f.arguments)

def valueLayout (v : Name) : EnumValue := ⟨v, []⟩

def bodyLayout {α β : Type} [Item β] (style : Style) (layout : α → β) (list : List α) : Items β :=
  itemsOf (lineMargin style) (blankMargin [lineFiller]) (beginsQuoted_lineMargin style)
    (beginsQuoted_blankMargin _) (lineMargin style) (marks_lineMargin style) (list.map layout)

/-- A body has the text that is printed, if each of its items has.  Stated for any kind of items, so
fields, input fields and values need not be told apart. -/
theorem text_bodyLayout {α β : Type} [Item β] (style : Style) {layout : α → β}
    {text : α → List Char} (h : ∀ a, Item.text .written (layout a) = text a)
    (list : Filled α) : '\x7b' :: (bodyLayout style layout list.1).text .written ++ ['\x7d'] =
      bodyText style (list.1.map text) := by
  obtain ⟨list, hne⟩ := list
  cases list with
  | nil => exact absurd rfl hne
  | cons a as =>
    have hline : (blankMargin [lineFiller]).text .written = ['\n'] := rfl
    rw [bodyLayout, List.map_cons, text_itemsOf, text_lineMargin, hline, List.flatMap_map, bodyText,
      List.flatMap_map, List.flatMap_cons, h]
    simp only [h, List.append_assoc, List.cons_append, List.nil_append]

theorem list_bodyLayout {α β : Type} [Item β] (style : Style) (layout : α → β) (list : List α) :
    (bodyLayout style layout list).list = list.map layout := list_itemsOf _ _ _ _ _ _ _

/-! ## Definitions

A definition of any kind has one form: a keyword, a name, directives and a body with lines.  The
common part is `text_definition`, and each kind only has to give its body. -/

def Definition.layout (style : Style) : Definition → Layout.Definition
  | .object name directives fields =>
    ⟨oneSpace, name, directives.map directiveLayout, [blankFiller],
      .object none (bodyLayout style Field.layout fields.1)⟩
  | .input name fields =>
    ⟨oneSpace, name, [], [blankFiller], .input (bodyLayout style Argument.layout fields.1)⟩
  | .enum name values =>
    ⟨oneSpace, name, [], [blankFiller], .enum (bodyLayout style valueLayout values.1)⟩

theorem text_oneSpace : oneSpace.text .written = [' '] := rfl

theorem text_valueLayout (v : Name) : Item.text .written (valueLayout v) = v.chars :=
  List.append_nil v.chars

/-- A definition without interfaces has the text that is printed if its body has. -/
theorem text_definition (style : Style) (name : Name) (ds : List Name) {body : Body}
    {texts : List (List Char)} (hi : body.interfaces = none)
    (hb : '\x7b' :: body.text .written ++ ['\x7d'] = bodyText style texts) :
    (⟨oneSpace, name, ds.map directiveLayout, [blankFiller], body⟩ : Layout.Definition).text
        .written = definitionText style body.keyword name ds texts := by
  rw [Layout.Definition.text, Layout.Definition.header, hi, text_directives, text_oneSpace,
    definitionText, ← hb]
  simp only [Option.map_none, Option.getD_none, Gap.text, blankFiller, Filler.text,
    List.flatMap_cons, List.flatMap_nil, List.append_assoc, List.cons_append, List.nil_append]

/-- **A definition has the text that is printed**, in each style.  One case for each kind of
definition, all by `text_definition`. -/
theorem Definition.text_layout (style : Style) (d : Definition) :
    (d.layout style).text .written = d.text style := by
  cases d with
  | object name directives fields =>
    exact text_definition style name directives rfl (text_bodyLayout style Field.text_layout fields)
  | input name fields =>
    exact text_definition style name [] rfl (text_bodyLayout style Argument.text_layout fields)
  | enum name values =>
    exact text_definition style name [] rfl (text_bodyLayout style text_valueLayout values)

/-- A definition is laid out as what it defines, so the grammar reads it as the definition that the
plain schema has. -/
theorem Definition.definition_layout (style : Style) (d : Definition) :
    (d.layout style).definition = d.definition := by
  cases d with
  | object name directives fields =>
    simp only [Definition.layout, Layout.Definition.definition, directiveNames_layout,
      list_bodyLayout, List.map_map, Definition.definition]
    congr 1
    exact List.map_congr_left fun f _ => f.definition_layout
  | input name fields =>
    simp only [Definition.layout, Layout.Definition.definition, list_bodyLayout, List.map_map,
      Definition.definition]
    rfl
  | enum name values =>
    simp only [Definition.layout, Layout.Definition.definition, list_bodyLayout, List.map_map,
      Definition.definition]
    rfl

/-! ## Schemas

A schema is printed with a separator between its definitions and behind the last one.  A layout has
its margins before the definitions, so the first one gets an empty margin and the last separator
stands at the end. -/

/-- What stands between two definitions. -/
def gapMargin (style : Style) : Margin :=
  blankMargin (List.replicate (style.between + 1) lineFiller)

/-- The margin between two definitions is the separator of the style. -/
theorem text_gapMargin (style : Style) : (gapMargin style).text .written = style.separator := by
  rw [gapMargin, text_blankMargin]
  exact text_replicate rfl _

/-- The layout of a schema.  What stands behind a definition comes before the next one. -/
def Schema.layout (style : Style) (s : Schema) : Layout.Schema where
  parts :=
    match s.1 with
    | [] => []
    | d :: ds =>
      (blankMargin [], d.layout style) :: ds.map fun d => (gapMargin style, d.layout style)
  last := gapMargin style
  ending := none

/-- **A plain schema has the text of its layout**, by induction on the definitions behind the
first. -/
theorem Schema.text_layout (style : Style) (s : Schema) :
    (s.layout style).text .written = s.text style := by
  have hparts : ∀ ds : List Definition,
      (ds.map fun d => (gapMargin style, d.layout style)).flatMap
          (fun part => part.1.text .written ++ part.2.text .written) ++ style.separator =
        style.separator ++ ds.flatMap fun d => d.text style ++ style.separator := by
    intro ds
    induction ds with
    | nil => exact (List.append_nil _).symm
    | cons d ds ih =>
      rw [List.map_cons, List.flatMap_cons, List.flatMap_cons, List.append_assoc, ih,
        text_gapMargin, Definition.text_layout]
      simp only [List.append_assoc]
  obtain ⟨ds, hne⟩ := s
  cases ds with
  | nil => exact absurd rfl hne
  | cons d ds =>
    have hnone : (blankMargin []).text .written = [] := rfl
    simp only [Layout.Schema.text, Schema.layout, Schema.text, List.flatMap_cons, text_gapMargin,
      hnone, Definition.text_layout, Option.map_none, Option.getD_none, List.append_nil,
      List.nil_append, List.append_assoc, hparts]

theorem Schema.print_layout (style : Style) (s : Schema) :
    (s.layout style).print = s.print style := by
  rw [Layout.Schema.print, Schema.text_layout, Schema.print]

/-- The layout has the definitions of the plain schema, in order.  Together with
`Schema.print_layout` this makes what is proved of layouts a statement about plain schemas. -/
theorem Schema.definitions_layout (style : Style) (s : Schema) :
    (s.layout style).definitions = s.definitions := by
  obtain ⟨ds, hne⟩ := s
  cases ds with
  | nil => rfl
  | cons d ds =>
    simp only [Layout.Schema.definitions, Schema.layout, Schema.definitions, List.map_cons,
      List.map_map, Definition.definition_layout]
    congr 1
    exact List.map_congr_left fun d _ => d.definition_layout style

end SchemaAccess.Plain
