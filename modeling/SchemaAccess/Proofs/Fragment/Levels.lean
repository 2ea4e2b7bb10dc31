import SchemaAccess.Proofs.Fragment.Rendering

/-!
# The level below a field

A nested selection is checked against the model that the type of its field names, through all
lists.  It is composed against what is left of the type when one list is taken off.  The two are the
same for single models and for lists, and differ for lists of lists: there every key is left out
with a warning although its model is built.

* `RendersAgainst` — a selection is composed against a model: every key is one of its fields and
  has its block, and no warning is about a key of the selection itself.
* `IsComposedAgainst` — what is selected below a field is composed against a model.
* `rendersAgainst_compose` — a level whose model is built is composed against that model.
* `isComposedAgainst_iff` — an accepted selection is composed against the model that the type names
  exactly if the type is at most one list deep, or nothing is nested directly in it.
-/

namespace SchemaAccess

/-! ## Composing against a model -/

/-- Every entry of a selection has what belongs to it: a bare name its line, and a key, which is a
field of the model, its block.  All warnings come from inside the blocks. -/
inductive RendersAgainst (g : ModelGraph) (target : Model) :
    List Selection → List Outline → List Warning → Prop
  | nil : RendersAgainst g target [] [] []
  | bare {name : String} {rest : List Selection} {outlines : List Outline}
      {warnings : List Warning} (tail : RendersAgainst g target rest outlines warnings) :
      RendersAgainst g target (.field name :: rest) (.line name :: outlines) warnings
  | done {rest : List Selection} {outlines : List Outline} {warnings : List Warning}
      (tail : RendersAgainst g target rest outlines warnings) :
      RendersAgainst g target (.nested [] :: rest) outlines warnings
  | block {key type : String} {below rest : List Selection}
      {branches : List (String × List Selection)} {outlines : List Outline}
      {warnings : List Warning} (isField : target.fieldType? key = some type)
      (tail : RendersAgainst g target (.nested branches :: rest) outlines warnings) :
      RendersAgainst g target (.nested ((key, below) :: branches) :: rest)
        (fieldBlock (isPaged g type) key (compose g (targetType type) below).outlines :: outlines)
        ((compose g (targetType type) below).warnings ++ warnings)

/-- What is selected below a field of that type is composed against the target. -/
def IsComposedAgainst (g : ModelGraph) (model field type : String) (target : Model)
    (below : List Selection) : Prop :=
  ∃ body, (compose g model [.nested [(field, below)]]).outlines =
      [fieldBlock (isPaged g type) field body] ∧
    RendersAgainst g target below body (compose g model [.nested [(field, below)]]).warnings

variable {g : ModelGraph} {owner : String} {target : Model}

/-! ## A level whose model is built

A key of a known selection is a field of the model, so at a level where that model is built it has
its block.  The relation has no case for a warning, and here none is needed. -/

/-- The branches of an entry are composed against the model, in front of what is composed for the
rest. -/
theorem rendersAgainst_composeBranches (howner : g.find? owner = some target)
    {rest : List Selection} {outlines : List Outline} {warnings : List Warning}
    (hrest : RendersAgainst g target rest outlines warnings)
    (branches : List (String × List Selection)) (hk : g.KnowsBranches target branches) :
    RendersAgainst g target (.nested branches :: rest)
      ((composeBranches g owner branches).outlines ++ outlines)
      ((composeBranches g owner branches).warnings ++ warnings) := by
  induction branches with
  | nil =>
    rw [composeBranches_nil]
    exact .done hrest
  | cons branch branches ih =>
    obtain ⟨key, below⟩ := branch
    rw [ModelGraph.KnowsBranches] at hk
    obtain ⟨⟨type, htype, -⟩, hbranches⟩ := hk
    rw [composeBranches_cons_of_built howner htype, Composed.outlines_append,
      Composed.warnings_append, List.append_assoc, List.append_assoc]
    exact .block htype (ih hbranches)

/-- **A level whose model is built is composed against that model**, by induction on the
selection. -/
theorem rendersAgainst_compose (howner : g.find? owner = some target) :
    ∀ selection : List Selection, g.Knows target selection →
      RendersAgainst g target selection (compose g owner selection).outlines
        (compose g owner selection).warnings
  | [], _ => by
      rw [compose_nil]
      exact .nil
  | .field name :: rest, hk => by
      rw [ModelGraph.Knows] at hk
      rw [compose_cons, composeEntry_field]
      exact .bare (rendersAgainst_compose howner rest hk.2)
  | .nested branches :: rest, hk => by
      rw [ModelGraph.Knows, ModelGraph.KnowsEntry] at hk
      rw [compose_cons, composeEntry_nested]
      exact rendersAgainst_composeBranches howner (rendersAgainst_compose howner rest hk.2)
        branches hk.1

/-! ## Levels without keys, and with some

At a level whose model is not built bare names have their lines all the same.  So only a key can
tell such a level from one that is composed against a model. -/

/-- Without keys it does not matter which model a selection is composed against. -/
theorem rendersAgainst_of_keys_eq_nil : ∀ selection : List Selection,
    Selection.keys selection = [] →
      RendersAgainst g target selection (compose g owner selection).outlines
        (compose g owner selection).warnings
  | [], _ => by
      rw [compose_nil]
      exact .nil
  | .field name :: rest, h => by
      rw [compose_cons, composeEntry_field]
      exact .bare (rendersAgainst_of_keys_eq_nil rest h)
  | .nested [] :: rest, h => by
      rw [compose_cons, composeEntry_nested, composeBranches_nil]
      exact .done (rendersAgainst_of_keys_eq_nil rest h)
  | .nested (_ :: _) :: _, h => by
      cases h

/-- If there are keys, a selection that is composed against a model has a block. -/
theorem exists_block_of_rendersAgainst {selection : List Selection} {outlines : List Outline}
    {warnings : List Warning} (h : RendersAgainst g target selection outlines warnings)
    (hkeys : Selection.keys selection ≠ []) : ∃ head body, .block head body ∈ outlines := by
  induction h with
  | nil => exact absurd rfl hkeys
  | bare _ ih =>
    obtain ⟨head, body, hmem⟩ := ih hkeys
    exact ⟨head, body, List.mem_cons_of_mem _ hmem⟩
  | done _ ih => exact ih hkeys
  | @block key type _ _ _ _ _ _ _ _ =>
    rw [fieldBlock]
    split
    · exact ⟨_, _, List.mem_cons_self⟩
    · exact ⟨_, _, List.mem_cons_self⟩

/-! ## Below a field

The level below a field is found in two ways: by the name in its type, and by what is left of the
type without one list.  For types of at most one list these are the same model. -/

/-- The block of a field tells what is inside. -/
theorem fieldBlock_inj {paged : Bool} {field : String} {a b : List Outline}
    (h : fieldBlock paged field a = fieldBlock paged field b) : a = b := by
  cases paged <;> simpa [fieldBlock] using h

/-- The block of a field is composed against a model if its body is. -/
theorem isComposedAgainst_iff_rendersAgainst {model field type : String} {first : Model}
    {below : List Selection} (hmodel : g.find? model = some first)
    (hfield : first.fieldType? field = some type) :
    IsComposedAgainst g model field type target below ↔
      RendersAgainst g target below (compose g (targetType type) below).outlines
        (compose g (targetType type) below).warnings := by
  have hcompose : compose g model [.nested [(field, below)]] =
      ⟨[fieldBlock (isPaged g type) field (compose g (targetType type) below).outlines],
        (compose g (targetType type) below).warnings⟩ := by
    rw [compose_cons, composeEntry_nested, composeBranches_cons_of_built hmodel hfield,
      composeBranches_nil, compose_nil]
    show Composed.mk (_ ++ [] ++ []) (_ ++ [] ++ []) = _
    simp only [List.append_nil]
  rw [IsComposedAgainst, hcompose]
  constructor
  · rintro ⟨body, hbody, hrenders⟩
    rwa [fieldBlock_inj (List.head_eq_of_cons_eq hbody)]
  · exact fun hrenders => ⟨_, rfl, hrenders⟩

mutual

/-- A warning is about a key below a name that no model has: where a model is built, a key of it is
a field or is left out. -/
theorem find?_eq_none_of_mem_warnings : ∀ (selection : List Selection) {owner : String},
    ∀ warning ∈ (compose g owner selection).warnings,
      ∃ name key, warning = .excludedConnection name key ∧ g.find? name = none
  | [], owner, warning, h => by
      rw [compose_nil] at h
      exact absurd h List.not_mem_nil
  | .field _ :: rest, owner, warning, h => by
      rw [compose_cons, composeEntry_field] at h
      exact find?_eq_none_of_mem_warnings rest warning h
  | .nested branches :: rest, owner, warning, h => by
      rw [compose_cons, composeEntry_nested] at h
      rcases List.mem_append.1 h with h | h
      · exact find?_eq_none_of_mem_composeBranches branches warning h
      · exact find?_eq_none_of_mem_warnings rest warning h

theorem find?_eq_none_of_mem_composeBranches :
    ∀ (branches : List (String × List Selection)) {owner : String},
      ∀ warning ∈ (composeBranches g owner branches).warnings,
        ∃ name key, warning = .excludedConnection name key ∧ g.find? name = none
  | [], owner, warning, h => by
      rw [composeBranches_nil] at h
      exact absurd h List.not_mem_nil
  | (key, below) :: branches, owner, warning, h => by
      cases howner : g.find? owner with
      | none =>
        rw [composeBranches_cons_of_unbuilt howner] at h
        rcases List.mem_cons.1 h with rfl | h
        · exact ⟨owner, key, rfl, howner⟩
        · exact find?_eq_none_of_mem_composeBranches branches warning h
      | some model =>
        cases htype : model.fieldType? key with
        | none =>
          rw [composeBranches_cons_of_missing howner htype] at h
          exact find?_eq_none_of_mem_composeBranches branches warning h
        | some type =>
          rw [composeBranches_cons_of_built howner htype] at h
          rcases List.mem_append.1 h with h | h
          · exact find?_eq_none_of_mem_warnings below warning h
          · exact find?_eq_none_of_mem_composeBranches branches warning h

end

section Field

variable {model field key : String} {first : Model} {t : TypeRef} {below : List Selection}
  {after : ModelGraph}

/-- **Below a field whose type names a built model, an accepted selection is composed against that
model if the type is at most one list deep.**  If it is deeper this holds of selections without keys
alone, where the models have names for names.  In any case a warning is about a name that no built
model has. -/
theorem isComposedAgainst_iff (hmodel : g.find? model = some first)
    (hfield : first.fieldType? field = some t.print) (hname : Text.IsName t.baseName.toList)
    (htarget : g.find? t.baseName = some target)
    (haccepted : g.addFragment model key [.nested [(field, below)]] = .ok after) :
    (t.depth ≤ 1 → IsComposedAgainst g model field t.print target below) ∧
      (g.HasNames → (IsComposedAgainst g model field t.print target below ↔
        t.depth ≤ 1 ∨ Selection.keys below = [])) ∧
      ∀ warning ∈ (compose g model [.nested [(field, below)]]).warnings,
        ∃ name key, warning = .excludedConnection name key ∧ g.find? name = none := by
  rw [isComposedAgainst_iff_rendersAgainst hmodel hfield]
  have hknown : g.Knows target below := by
    obtain ⟨other, hother, hknows, -⟩ := ModelGraph.addFragment_eq_ok_iff.1 haccepted
    obtain rfl : first = other := Option.some.inj (hmodel.symm.trans hother)
    rw [ModelGraph.Knows, ModelGraph.KnowsEntry, ModelGraph.KnowsBranches] at hknows
    obtain ⟨⟨⟨type, htype, hbelow⟩, -⟩, -⟩ := hknows
    obtain rfl : t.print = type := Option.some.inj (hfield.symm.trans htype)
    exact hbelow target (by rw [TypeText.baseName_print hname, htarget])
  have hshallow : t.depth ≤ 1 → RendersAgainst g target below
      (compose g (targetType t.print) below).outlines
      (compose g (targetType t.print) below).warnings := fun hd => by
    rw [(targetType_print_eq_iff hname).2 hd]
    exact rendersAgainst_compose htarget below hknown
  refine ⟨hshallow, fun hnames => ⟨fun hrenders => ?_, ?_⟩, find?_eq_none_of_mem_warnings _⟩
  · by_contra hneither
    obtain ⟨hdeep, hkeys⟩ := not_or.1 hneither
    have hunbuilt : g.find? (targetType t.print) = none := by
      by_contra hbuilt
      obtain ⟨other, hother⟩ := Option.ne_none_iff_exists'.1 hbuilt
      exact targetType_print_ne hname (by omega)
        (hnames other (List.mem_of_find?_eq_some hother)) (ModelGraph.name_eq_of_find? hother).symm
    obtain ⟨head, body, hblock⟩ := exists_block_of_rendersAgainst hrenders hkeys
    rw [compose_of_unbuilt hunbuilt] at hblock
    obtain ⟨name, -, hline⟩ := List.mem_map.1 hblock
    cases hline
  · rintro (hd | hkeys)
    · exact hshallow hd
    · exact rendersAgainst_of_keys_eq_nil below hkeys

end Field

/-- Blogs that have others below them, and others around them in rows. -/
def gridBlog : Model :=
  Model.ofFields "Blog"
    (Table.ofList [("id", "ID!"), ("children", "[Blog!]!"), ("grid", "[[Blog]]")]) []

def gridGraph : ModelGraph := ⟨[gridBlog], ["Blog"]⟩

def childrenType : TypeRef := .list (.named "Blog" true) true

def gridType : TypeRef := .list (.list (.named "Blog" false) false) false

/-- A selection of blogs with a key. -/
def childIds : List Selection := [.field "id", .nested [("children", [.field "id"])]]

theorem find?_gridGraph : gridGraph.find? "Blog" = some gridBlog := rfl

theorem isComposedAgainst_iff_children :
    gridGraph.find? "Blog" = some gridBlog ∧
      gridBlog.fieldType? "children" = some childrenType.print ∧
      Text.IsName childrenType.baseName.toList ∧
      gridGraph.find? childrenType.baseName = some gridBlog ∧
      gridGraph.addFragment "Blog" "Tree" [.nested [("children", childIds)]] =
        .ok (gridGraph.update "Blog" (·.setFragment "Tree" [.nested [("children", childIds)]])) ∧
      childrenType.depth ≤ 1 ∧
      IsComposedAgainst gridGraph "Blog" "children" childrenType.print gridBlog childIds := by
  have haccepted : gridGraph.addFragment "Blog" "Tree" [.nested [("children", childIds)]] =
      .ok (gridGraph.update "Blog" (·.setFragment "Tree" [.nested [("children", childIds)]])) := rfl
  exact ⟨find?_gridGraph, rfl, by decide, rfl, haccepted, by decide,
    (isComposedAgainst_iff find?_gridGraph rfl (by decide) rfl haccepted).1 (by decide)⟩

/-- An accepted selection below a list of lists is not composed against the model that the type
names: its key is left out with a warning, as if the model were not built. -/
theorem not_isComposedAgainst_grid :
    gridGraph.find? "Blog" = some gridBlog ∧
      gridBlog.fieldType? "grid" = some gridType.print ∧
      Text.IsName gridType.baseName.toList ∧
      gridGraph.find? gridType.baseName = some gridBlog ∧
      gridGraph.addFragment "Blog" "Grid" [.nested [("grid", childIds)]] =
        .ok (gridGraph.update "Blog" (·.setFragment "Grid" [.nested [("grid", childIds)]])) ∧
      (compose gridGraph "Blog" [.nested [("grid", childIds)]]).warnings =
        [.excludedConnection "[Blog]" "children"] ∧
      ¬ IsComposedAgainst gridGraph "Blog" "grid" gridType.print gridBlog childIds := by
  refine ⟨find?_gridGraph, rfl, by decide, rfl, rfl, rfl, fun h => ?_⟩
  have hrenders := (isComposedAgainst_iff_rendersAgainst find?_gridGraph rfl).1 h
  have hkeys : Selection.keys childIds ≠ [] := by decide
  obtain ⟨head, body, hblock⟩ := exists_block_of_rendersAgainst hrenders hkeys
  cases List.mem_singleton.1 hblock

end SchemaAccess
