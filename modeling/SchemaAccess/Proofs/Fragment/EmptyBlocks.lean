import SchemaAccess.Proofs.Fragment.Blocks
import SchemaAccess.Proofs.Fragment.Rendering

/-!
# Which fragments have an empty block

A key of a built model opens its block before it is known whether anything below it is rendered.
Below a model that is not built no key is, so a block is empty if nothing but keys is selected
there.  This is the only way in which an accepted fragment comes to an empty block.

* `Selection.listIsFull` — nothing is empty in a selection, at any level.
* `KeepsSome` — below every key that has its block something is rendered.
* `allFilled_compose_iff` — then, and only then, every block of the outline has something inside.
* `keepsSome_iff_of_checked` — for checked selections it is enough that the model below each key is
  built or a bare name is selected there.
* `hasNoEmptyBlock_renderFragment_iff` — both, of an accepted fragment and of the lines of its body.
-/

namespace SchemaAccess

open Outline (AllFilled IsFilled allTexts layoutAll)

/-! ## Selections -/

namespace Selection

mutual

/-- The names and keys of an entry, at every level. -/
def names : Selection → List String
  | field name => [name]
  | nested branches => branchesNames branches

/-- The names and keys of a selection, at every level. -/
def listNames : List Selection → List String
  | [] => []
  | entry :: entries => entry.names ++ listNames entries

/-- The names and keys of branches, at every level. -/
def branchesNames : List (String × List Selection) → List String
  | [] => []
  | (key, below) :: branches => key :: listNames below ++ branchesNames branches

end

mutual

/-- The entry nests something, if it nests, and nothing below it is empty. -/
def IsFull : Selection → Prop
  | field _ => True
  | nested branches => branches ≠ [] ∧ branchesAreFull branches

/-- Nothing is empty in any entry. -/
def entriesAreFull : List Selection → Prop
  | [] => True
  | entry :: entries => entry.IsFull ∧ entriesAreFull entries

/-- Nothing is empty below any branch. -/
def branchesAreFull : List (String × List Selection) → Prop
  | [] => True
  | (_, below) :: branches => (below ≠ [] ∧ entriesAreFull below) ∧ branchesAreFull branches

end

/-- Nothing is empty in a selection, at any level. -/
def listIsFull (selection : List Selection) : Prop := selection ≠ [] ∧ entriesAreFull selection

end Selection

open Selection (bareNames keys entriesAreFull branchesAreFull listIsFull listNames branchesNames)

/-! ## What is rendered below a key

A block is opened for a key as soon as its model has the field.  Whether something comes inside is a
question about the level below: a bare name is rendered at any level, a key only where the model is
built and has it. -/

section KeepsSome

variable (g : ModelGraph)

/-- Something of a selection is rendered at a level: a bare name, or a key that is a field of the
model of the level. -/
def IsShown (owner : String) (selection : List Selection) : Prop :=
  bareNames selection ≠ [] ∨
    ∃ model, g.find? owner = some model ∧ ∃ key ∈ keys selection, model.fieldType? key ≠ none

/-- Below a key that has its block the selection is of a kind, together with its level. -/
def HoldsBelow (p : String → List Selection → Prop) (owner key : String)
    (below : List Selection) : Prop :=
  ∀ type, keyType? g.find? owner key = some type → p (targetType type) below

/-- Below every key that has its block something is rendered. -/
def KeepsSome : String → List Selection → Prop := ForKeys g.find? (HoldsBelow g (IsShown g))

/-- The model of a level is built, or a bare name is selected there. -/
def IsBuiltOrBare (owner : String) (selection : List Selection) : Prop :=
  g.isBuilt owner = true ∨ bareNames selection ≠ []

end KeepsSome

/-! ## What is written

The texts of what is composed come from the selection, apart from the two fields of a page.  So a
condition on names is one on texts. -/

section Compose

variable {g : ModelGraph}

/-- The texts of a field's block are its name, those inside, and the two of a page. -/
theorem forall_mem_texts_fieldBlock {p : String → Prop} (hitems : p "items")
    (htoken : p "nextToken") (paged : Bool) {field : String} {body : List Outline}
    (hfield : p field) (hbody : ∀ text ∈ allTexts body, p text) :
    ∀ text ∈ (fieldBlock paged field body).texts, p text := by
  cases paged <;>
    simpa [fieldBlock, Outline.texts, allTexts, or_imp, forall_and, hfield, hitems, htoken]
      using hbody

mutual

/-- Nothing is written but what is selected and the two fields of a page. -/
theorem forall_mem_texts_compose {p : String → Prop} (hitems : p "items") (htoken : p "nextToken") :
    ∀ (selection : List Selection) (owner : String), (∀ name ∈ listNames selection, p name) →
      ∀ text ∈ allTexts (compose g owner selection).outlines, p text
  | [], owner, _ => by
      rw [compose_nil, Composed.outlines_empty, allTexts]
      exact List.forall_mem_nil p
  | .field name :: rest, owner, h => by
      rw [listNames, List.forall_mem_append, Selection.names] at h
      rw [compose_cons, composeEntry_field, Composed.outlines_append, List.singleton_append,
        allTexts, List.forall_mem_append, Outline.texts]
      exact ⟨h.1, forall_mem_texts_compose hitems htoken rest owner h.2⟩
  | .nested branches :: rest, owner, h => by
      rw [listNames, List.forall_mem_append, Selection.names] at h
      rw [compose_cons, composeEntry_nested, Composed.outlines_append, Outline.allTexts_append,
        List.forall_mem_append]
      exact ⟨forall_mem_texts_composeBranches hitems htoken branches owner h.1,
        forall_mem_texts_compose hitems htoken rest owner h.2⟩

theorem forall_mem_texts_composeBranches {p : String → Prop} (hitems : p "items")
    (htoken : p "nextToken") :
    ∀ (branches : List (String × List Selection)) (owner : String),
      (∀ name ∈ branchesNames branches, p name) →
        ∀ text ∈ allTexts (composeBranches g owner branches).outlines, p text
  | [], owner, _ => by
      rw [composeBranches_nil, Composed.outlines_empty, allTexts]
      exact List.forall_mem_nil p
  | (key, below) :: branches, owner, h => by
      rw [branchesNames, List.forall_mem_append, List.forall_mem_cons] at h
      obtain ⟨⟨hkey, hbelow⟩, hbranches⟩ := h
      have ih := forall_mem_texts_composeBranches hitems htoken branches owner hbranches
      cases howner : g.find? owner with
      | none => rwa [composeBranches_cons_of_unbuilt howner]
      | some model =>
        cases htype : model.fieldType? key with
        | none => rwa [composeBranches_cons_of_missing howner htype]
        | some type =>
          rw [composeBranches_cons_of_built howner htype, Composed.outlines_append,
            List.singleton_append, allTexts, List.forall_mem_append]
          exact ⟨forall_mem_texts_fieldBlock hitems htoken _ hkey
            (forall_mem_texts_compose hitems htoken below _ hbelow), ih⟩

end

/-! ## Blocks with something inside

For a single block it is asked whether anything is composed below its key; for all blocks of an
outline this is asked at every key of the selection. -/

/-- The block of a field is filled if there is something inside and all of that is filled; the
envelope of a page is never empty itself. -/
theorem isFilled_fieldBlock {paged : Bool} {field : String} {body : List Outline} :
    (fieldBlock paged field body).IsFilled ↔ body ≠ [] ∧ AllFilled body := by
  cases paged <;> simp [fieldBlock, IsFilled, AllFilled]

theorem outlines_composeBranches_eq_nil_iff {owner : String} {model : Model}
    (howner : g.find? owner = some model) (branches : List (String × List Selection)) :
    (composeBranches g owner branches).outlines = [] ↔
      ∀ key ∈ Entries.keys branches, model.fieldType? key = none := by
  induction branches with
  | nil => simp [Entries.keys]
  | cons branch branches ih =>
    obtain ⟨key, below⟩ := branch
    have hkeys : Entries.keys ((key, below) :: branches) = key :: Entries.keys branches := rfl
    rw [hkeys, List.forall_mem_cons, ← ih]
    cases htype : model.fieldType? key with
    | none => simp [composeBranches_cons_of_missing howner htype]
    | some type => simp [composeBranches_cons_of_built howner htype]

/-- Of a selection at a built model nothing is composed if it has no bare name and none of its keys
is a field. -/
theorem outlines_compose_eq_nil_iff {owner : String} {model : Model}
    (howner : g.find? owner = some model) : ∀ selection : List Selection,
      (compose g owner selection).outlines = [] ↔
        bareNames selection = [] ∧ ∀ key ∈ keys selection, model.fieldType? key = none
  | [] => by simp [bareNames, keys]
  | .field name :: rest => by
      rw [compose_cons, composeEntry_field]
      simp [bareNames]
  | .nested branches :: rest => by
      rw [compose_cons, composeEntry_nested, Composed.outlines_append, List.append_eq_nil_iff,
        outlines_composeBranches_eq_nil_iff howner, outlines_compose_eq_nil_iff howner rest, keys,
        List.forall_mem_append, bareNames, and_left_comm]

/-- What is shown of a selection are its outlines. -/
theorem outlines_compose_ne_nil_iff {owner : String} {selection : List Selection} :
    (compose g owner selection).outlines ≠ [] ↔ IsShown g owner selection := by
  cases howner : g.find? owner with
  | none =>
    rw [compose_of_unbuilt howner, IsShown, howner]
    simp
  | some model =>
    rw [IsShown, howner, Ne, outlines_compose_eq_nil_iff howner, not_and_or]
    simp

mutual

/-- **Every block has something inside exactly if something is rendered below every key that has its
block.**  By induction on the selection, with its branches, at every level. -/
theorem allFilled_compose_iff : ∀ (selection : List Selection) {owner : String},
    AllFilled (compose g owner selection).outlines ↔ KeepsSome g owner selection
  | [], owner => by
      rw [compose_nil, KeepsSome, ForKeys, Composed.outlines_empty, AllFilled]
  | .field name :: rest, owner => by
      rw [compose_cons, composeEntry_field, Composed.outlines_append, List.singleton_append,
        AllFilled, IsFilled, KeepsSome, ForKeys, EntryForKeys, allFilled_compose_iff rest,
        KeepsSome]
  | .nested branches :: rest, owner => by
      rw [compose_cons, composeEntry_nested, Composed.outlines_append, Outline.allFilled_append,
        KeepsSome, ForKeys, EntryForKeys, allFilled_composeBranches_iff branches,
        allFilled_compose_iff rest, KeepsSome]

theorem allFilled_composeBranches_iff :
    ∀ (branches : List (String × List Selection)) {owner : String},
      AllFilled (composeBranches g owner branches).outlines ↔
        BranchesForKeys g.find? (HoldsBelow g (IsShown g)) owner branches
  | [], owner => by
      rw [composeBranches_nil, BranchesForKeys, Composed.outlines_empty, AllFilled]
  | (key, below) :: branches, owner => by
      rw [BranchesForKeys, ← allFilled_composeBranches_iff branches, HoldsBelow]
      cases howner : g.find? owner with
      | none =>
        rw [composeBranches_cons_of_unbuilt howner, Composed.outlines_append, List.nil_append]
        simp [keyType?, howner]
      | some model =>
        cases htype : model.fieldType? key with
        | none =>
          rw [composeBranches_cons_of_missing howner htype]
          simp [keyType?, howner, htype]
        | some type =>
          rw [composeBranches_cons_of_built howner htype, Composed.outlines_append,
            List.singleton_append, AllFilled, isFilled_fieldBlock, outlines_compose_ne_nil_iff,
            allFilled_compose_iff below, KeepsSome]
          simp [keyType?, howner, htype]

end

/-! ## Checked selections

A key of a checked selection is a field of its model, so it is rendered if the model is built.  What
remains is the one case in which nothing is: the model is not built, and only keys are selected. -/

/-- Of a checked selection in which nothing is empty something is rendered, if its model is built or
it has a bare name. -/
theorem isShown_iff_of_checked {owner : String} {selection : List Selection}
    (hk : g.Checked owner selection) (hfull : listIsFull selection) :
    IsShown g owner selection ↔ IsBuiltOrBare g owner selection := by
  constructor
  · rintro (hbare | ⟨model, howner, -⟩)
    · exact .inr hbare
    · exact .inl (by rw [ModelGraph.isBuilt, howner, Option.isSome_some])
  · rintro (hbuilt | hbare)
    · obtain ⟨model, howner⟩ := Option.isSome_iff_exists.1 hbuilt
      obtain ⟨hne, hentries⟩ := hfull
      match selection with
      | [] => exact absurd rfl hne
      | .field name :: rest => exact .inl (List.cons_ne_nil _ _)
      | .nested [] :: rest =>
        rw [entriesAreFull, Selection.IsFull] at hentries
        exact absurd rfl hentries.1.1
      | .nested ((key, below) :: branches) :: rest =>
        have hbranches := hk.branches model howner
        rw [ModelGraph.KnowsBranches] at hbranches
        obtain ⟨⟨type, htype, -⟩, -⟩ := hbranches
        refine .inr ⟨model, howner, key, List.mem_cons_self, ?_⟩
        rw [htype]
        exact Option.some_ne_none type
    · exact .inl hbare

mutual

/-- **For a checked selection in which nothing is empty** it is enough that below every key that has
its block the model is built or a bare name is selected. -/
theorem keepsSome_iff_of_checked (hnames : g.HasNames) :
    ∀ (selection : List Selection) {owner : String}, g.Checked owner selection →
      entriesAreFull selection →
        (KeepsSome g owner selection ↔
          ForKeys g.find? (HoldsBelow g (IsBuiltOrBare g)) owner selection)
  | [], owner, _, _ => by
      rw [KeepsSome, ForKeys, ForKeys]
  | .field name :: rest, owner, hk, hfull => by
      rw [entriesAreFull] at hfull
      rw [KeepsSome, ForKeys, ForKeys, EntryForKeys, EntryForKeys, ← KeepsSome,
        keepsSome_iff_of_checked hnames rest hk.tail hfull.2]
  | .nested branches :: rest, owner, hk, hfull => by
      rw [entriesAreFull, Selection.IsFull] at hfull
      rw [KeepsSome, ForKeys, ForKeys, EntryForKeys, EntryForKeys, ← KeepsSome,
        keepsSome_iff_of_checked hnames rest hk.tail hfull.2,
        branchesKeepSome_iff_of_checked hnames branches hk.branches hfull.1.2]

theorem branchesKeepSome_iff_of_checked (hnames : g.HasNames) :
    ∀ (branches : List (String × List Selection)) {owner : String},
      g.CheckedBranches owner branches → branchesAreFull branches →
        (BranchesForKeys g.find? (HoldsBelow g (IsShown g)) owner branches ↔
          BranchesForKeys g.find? (HoldsBelow g (IsBuiltOrBare g)) owner branches)
  | [], owner, _, _ => by
      rw [BranchesForKeys, BranchesForKeys]
  | (key, below) :: branches, owner, hk, hfull => by
      rw [branchesAreFull] at hfull
      have hchecked : ∀ type, keyType? g.find? owner key = some type →
          g.Checked (targetType type) below := fun type h => by
        obtain ⟨model, howner, htype⟩ := Option.bind_eq_some_iff.1 h
        obtain ⟨other, hother, hbelow⟩ := hk.checked hnames howner
        rwa [Option.some.inj (htype.symm.trans hother)]
      rw [BranchesForKeys, BranchesForKeys]
      refine and_congr (and_congr ?_ ?_)
        (branchesKeepSome_iff_of_checked hnames branches hk.tail hfull.2)
      · exact forall₂_congr fun type h => isShown_iff_of_checked (hchecked type h) hfull.1
      · exact forall₂_congr fun type h =>
          keepsSome_iff_of_checked hnames below (hchecked type h) hfull.1.2

end

end Compose

/-! ## Accepted fragments

An accepted fragment is a checked selection of the graph that it has been added to, so the sections
above apply to it. -/

namespace ModelGraph

variable {g after : ModelGraph} {model key : String} {selection : List Selection}

/-- Adding a fragment leaves the bare models as they are. -/
theorem map_bare_of_addFragment (h : g.addFragment model key selection = .ok after) :
    g.models.map Model.bare = after.models.map Model.bare := by
  obtain ⟨_, -, -, rfl⟩ := addFragment_eq_ok_iff.1 h
  exact (map_bare_updateFirst fun owner _ => Model.bare_setFragment owner key selection).symm

/-- An accepted selection is known at its level. -/
theorem checked_of_addFragment (h : g.addFragment model key selection = .ok after) :
    after.Checked model selection := by
  have hb := map_bare_of_addFragment h
  obtain ⟨owner, howner, hknows, -⟩ := addFragment_eq_ok_iff.1 h
  intro other hother
  obtain ⟨first, hfirst, hbare⟩ := find?_of_bare_eq hb hother
  obtain rfl : owner = first := Option.some.inj (howner.symm.trans hfirst)
  exact hknows.of_bare_eq hb hbare

end ModelGraph

section Accepted

variable {g after : ModelGraph} {model key : String} {selection : List Selection}

/-- **An accepted selection in which nothing is empty is rendered without an empty block exactly if
below every key that has its block something is rendered.**  Where names have no braces, this can be
seen in the lines of the body.  Where models have names for names, something is rendered below a key
exactly if the model there is built or a bare name is selected. -/
theorem hasNoEmptyBlock_renderFragment_iff
    (haccepted : g.addFragment model key selection = .ok after) (hfull : listIsFull selection) :
    (AllFilled (compose after model selection).outlines ↔ KeepsSome after model selection) ∧
      ((∀ name ∈ listNames selection, IsPlain name) →
        (HasNoEmptyBlock (renderFragment after model key selection).lines ↔
          KeepsSome after model selection)) ∧
      (g.HasNames → (KeepsSome after model selection ↔
        ForKeys after.find? (HoldsBelow after (IsBuiltOrBare after)) model selection)) := by
  refine ⟨allFilled_compose_iff selection, fun hplain => ?_, fun hnames => ?_⟩
  · have htexts : ∀ text ∈ allTexts (compose after model selection).outlines, IsPlain text :=
      forall_mem_texts_compose (by decide) (by decide) selection model hplain
    rw [← allFilled_compose_iff, ← Outline.hasNoEmptyBlock_layoutAll_iff 1 htexts,
      lines_renderFragment_of_plain htexts]
    rfl
  · exact keepsSome_iff_of_checked
      (hnames.of_bare_eq (ModelGraph.map_bare_of_addFragment haccepted)) selection
      (ModelGraph.checked_of_addFragment haccepted) hfull.2

end Accepted

theorem hasNoEmptyBlock_renderFragment_iff_deepBlogs :
    blogsAlone.addFragment "Blog" "Deep" deepSelection = .ok deepBlogs ∧
      listIsFull deepSelection ∧ blogsAlone.HasNames ∧
      (∀ name ∈ listNames deepSelection, IsPlain name) ∧
      HasNoEmptyBlock (renderFragment deepBlogs "Blog" "Deep" deepSelection).lines := by
  have haccepted : blogsAlone.addFragment "Blog" "Deep" deepSelection = .ok deepBlogs := rfl
  have hfull : listIsFull deepSelection := by
    simp [listIsFull, deepSelection, entriesAreFull, Selection.IsFull, branchesAreFull]
  have hplain : ∀ name ∈ listNames deepSelection, IsPlain name := by decide
  obtain ⟨-, hlines, hbuilt⟩ := hasNoEmptyBlock_renderFragment_iff haccepted hfull
  refine ⟨haccepted, hfull, hasNames_blogsAlone, hplain, (hlines hplain).2 <|
    (hbuilt hasNames_blogsAlone).2 ?_⟩
  have hposts : keyType? deepBlogs.find? "Blog" "posts" = some "[Post]" := rfl
  simp [deepSelection, ForKeys, EntryForKeys, BranchesForKeys, HoldsBelow, IsBuiltOrBare, bareNames,
    hposts]

/-- The blog of each post of a blog, and nothing else of the posts. -/
def backSelection : List Selection :=
  [.field "id", .nested [("posts", [.nested [("blog", [.field "id"])]])]]

/-- The graph of blogs with that selection as a fragment. -/
def backBlogs : ModelGraph := blogsAlone.update "Blog" (·.setFragment "Back" backSelection)

/-- In the graph of blogs alone the fragment is accepted, and its page of posts has no fields. -/
theorem not_hasNoEmptyBlock_backBlogs :
    ModelGraph.build blogSchema ["Blog"] blogDeclarations [] = .ok blogsAlone ∧
      blogsAlone.addFragment "Blog" "Back" backSelection = .ok backBlogs ∧
      listIsFull backSelection ∧
      (renderFragment backBlogs "Blog" "Back" backSelection).lines =
        ["  id", "  posts \x7b", "    items \x7b", "    \x7d", "    nextToken", "  \x7d"].map
          String.toList ∧
      ¬ HasNoEmptyBlock (renderFragment backBlogs "Blog" "Back" backSelection).lines := by
  have hlines : (renderFragment backBlogs "Blog" "Back" backSelection).lines =
      ["  id", "  posts \x7b", "    items \x7b", "    \x7d", "    nextToken", "  \x7d"].map
        String.toList := rfl
  have hfull : listIsFull backSelection := by
    simp [listIsFull, backSelection, entriesAreFull, Selection.IsFull, branchesAreFull]
  refine ⟨build_blogsAlone, rfl, hfull, hlines, fun h => ?_⟩
  rw [hlines] at h
  have hopens : opensBlock "    items \x7b".toList = true := rfl
  have hcloses : closesBlock "    \x7d".toList = true := rfl
  exact h.not_infix hopens hcloses
    ⟨["  id", "  posts \x7b"].map String.toList, ["    nextToken", "  \x7d"].map String.toList, rfl⟩

end SchemaAccess
