import SchemaAccess.Proofs.Fragment.Composition
import SchemaAccess.Proofs.Graph.Runs
import SchemaAccess.Proofs.Types.Targets

/-!
# Nothing is dropped silently

A fragment is checked when it is attached and composed when it is rendered, and the two go through
its selection on their own.  What a checked fragment is composed to is said here by a relation that
has no case for a field that its model does not have.

* `Renders` — the lines and the warnings of a selection, with one case for each thing that may
  become of an entry.
* `ModelGraph.Checked` — a selection is known at a level, if the model of the level is built.
* `renders_compose` — a checked selection is composed to what the relation says.
* `renders_fragments` — so is every fragment of a graph that was built and then changed.
-/

namespace SchemaAccess

open Outline (indented layoutAll)

/-! ## What becomes of a selection

Each entry of a selection must leave a trace: a line, a block or a warning.  `Renders` has a case
for each, and its lines and warnings are in the order of the selection because every case puts its
own in front. -/

/-- The lines at a depth and the warnings, both in the order of the selection, of a selection at a
level.  The level has a name under which a model may be built: for the level below a field that is
what `targetType` finds in the type of the field. -/
inductive Renders (g : ModelGraph) :
    (owner : String) → (depth : Nat) → List Selection → List String → List Warning → Prop
  | nil {owner : String} {depth : Nat} : Renders g owner depth [] [] []
  /-- A bare name has its line, whether the model of the level is built or not. -/
  | bare {owner : String} {depth : Nat} {name : String} {rest : List Selection}
      {lines : List String} {warnings : List Warning}
      (tail : Renders g owner depth rest lines warnings) :
      Renders g owner depth (.field name :: rest) (indented depth name :: lines) warnings
  /-- An entry without keys, or behind its last key. -/
  | done {owner : String} {depth : Nat} {rest : List Selection} {lines : List String}
      {warnings : List Warning} (tail : Renders g owner depth rest lines warnings) :
      Renders g owner depth (.nested [] :: rest) lines warnings
  /-- Where the model of the level is built, a key is one of its fields and has its block. -/
  | block {owner : String} {depth : Nat} {model : Model} {key type : String}
      {below rest : List Selection} {branches : List (String × List Selection)}
      {inner lines : List String} {innerWarnings warnings : List Warning}
      (built : g.find? owner = some model) (isField : model.fieldType? key = some type)
      (inside : Renders g (targetType type) (innerDepth (isPaged g type) depth) below inner
        innerWarnings)
      (tail : Renders g owner depth (.nested branches :: rest) lines warnings) :
      Renders g owner depth (.nested ((key, below) :: branches) :: rest)
        (framed (isPaged g type) depth key inner ++ lines) (innerWarnings ++ warnings)
  /-- Where it is not built, a key has no line and one warning with the name of the level. -/
  | omitted {owner : String} {depth : Nat} {key : String} {below rest : List Selection}
      {branches : List (String × List Selection)} {lines : List String} {warnings : List Warning}
      (unbuilt : g.find? owner = none)
      (tail : Renders g owner depth (.nested branches :: rest) lines warnings) :
      Renders g owner depth (.nested ((key, below) :: branches) :: rest) lines
        (.excludedConnection owner key :: warnings)

/-! ## Checked selections

A selection is checked against the model of its level, and at each key against the model below, as
long as the models are built.  So at every level that is composed, either the model is not built or
the selection was checked against it. -/

namespace ModelGraph

variable {g : ModelGraph} {owner : String}

/-- The selection is known at a level, if the model of the level is built. -/
def Checked (g : ModelGraph) (owner : String) (selection : List Selection) : Prop :=
  ∀ model, g.find? owner = some model → g.Knows model selection

/-- Branches are known at a level, if the model of the level is built. -/
def CheckedBranches (g : ModelGraph) (owner : String)
    (branches : List (String × List Selection)) : Prop :=
  ∀ model, g.find? owner = some model → g.KnowsBranches model branches

/-- What is left of a checked selection is checked. -/
theorem Checked.tail {entry : Selection} {rest : List Selection}
    (h : g.Checked owner (entry :: rest)) : g.Checked owner rest := fun model hm => by
  have hmodel := h model hm
  rw [Knows] at hmodel
  exact hmodel.2

/-- The branches of an entry of a checked selection are checked. -/
theorem Checked.branches {branches : List (String × List Selection)} {rest : List Selection}
    (h : g.Checked owner (.nested branches :: rest)) : g.CheckedBranches owner branches :=
  fun model hm => by
    have hmodel := h model hm
    rw [Knows, KnowsEntry] at hmodel
    exact hmodel.1

namespace CheckedBranches

variable {key : String} {below : List Selection} {branches : List (String × List Selection)}

theorem tail (h : g.CheckedBranches owner ((key, below) :: branches)) :
    g.CheckedBranches owner branches := fun model hm => by
  have hmodel := h model hm
  rw [KnowsBranches] at hmodel
  exact hmodel.2

/-- A key of a built model is one of its fields.  Whenever the model of the level below it is built,
that level was checked against it. -/
theorem checked (hnames : g.HasNames) (h : g.CheckedBranches owner ((key, below) :: branches))
    {model : Model} (howner : g.find? owner = some model) :
    ∃ type, model.fieldType? key = some type ∧ g.Checked (targetType type) below := by
  have hmodel := h model howner
  rw [KnowsBranches] at hmodel
  obtain ⟨⟨type, htype, hbelow⟩, -⟩ := hmodel
  refine ⟨type, htype, fun target htarget => hbelow target ?_⟩
  have hname : targetType type = target.name := (name_eq_of_find? htarget).symm
  rw [baseName_eq_of_targetType (hnames target (List.mem_of_find?_eq_some htarget)) hname, ← hname]
  exact htarget

end CheckedBranches

end ModelGraph

/-! ## Checked selections are rendered

The composition goes through a selection without looking at what was checked.  Where it would drop a
field silently, the check has excluded the case. -/

section Compose

open ModelGraph

variable {g : ModelGraph}

mutual

/-- **A checked selection is composed to what the relation says.**  By induction on the selection,
with its branches, at every level and depth at once. -/
theorem renders_compose (hnames : g.HasNames) :
    ∀ (selection : List Selection) {owner : String} (depth : Nat), g.Checked owner selection →
      Renders g owner depth selection (layoutAll depth (compose g owner selection).outlines)
        (compose g owner selection).warnings
  | [], owner, depth, _ => by
      rw [compose_nil]
      exact .nil
  | .field name :: rest, owner, depth, hk => by
      rw [compose_cons, composeEntry_field]
      exact .bare (renders_compose hnames rest depth hk.tail)
  | .nested branches :: rest, owner, depth, hk => by
      rw [compose_cons, composeEntry_nested, Composed.outlines_append, Composed.warnings_append,
        Outline.layoutAll_append]
      exact renders_composeBranches hnames branches depth hk.branches
        (renders_compose hnames rest depth hk.tail)

/-- The branches of an entry are composed to what the relation says in front of the entries behind
it. -/
theorem renders_composeBranches (hnames : g.HasNames) :
    ∀ (branches : List (String × List Selection)) {owner : String} (depth : Nat)
      {rest : List Selection} {lines : List String} {warnings : List Warning},
      g.CheckedBranches owner branches → Renders g owner depth rest lines warnings →
      Renders g owner depth (.nested branches :: rest)
        (layoutAll depth (composeBranches g owner branches).outlines ++ lines)
        ((composeBranches g owner branches).warnings ++ warnings)
  | [], owner, depth, rest, lines, warnings, _, hrest => by
      rw [composeBranches_nil]
      exact .done hrest
  | (key, below) :: branches, owner, depth, rest, lines, warnings, hk, hrest => by
      have htail := renders_composeBranches hnames branches depth hk.tail hrest
      cases howner : g.find? owner with
      | none =>
        rw [composeBranches_cons_of_unbuilt howner]
        exact .omitted howner htail
      | some model =>
        obtain ⟨type, htype, hbelow⟩ := hk.checked hnames howner
        rw [composeBranches_cons_of_built howner htype]
        simp only [Composed.outlines_append, Composed.warnings_append, Outline.layoutAll_append,
          Outline.layoutAll_cons, Outline.layoutAll_nil, List.append_nil, layout_fieldBlock,
          List.append_assoc]
        exact .block howner htype (renders_compose hnames below _ hbelow) htail

end

end Compose

/-! ## Fragments of a graph

The fragments of a graph have been checked when they were attached, but against the graph of that
time.  What has been attached since does not change fields, so they are checked against the graph of
now as well. -/

namespace ModelGraph

variable {start g : ModelGraph}

/-- Models of one name have the same fields, also after changes. -/
theorem KeepsBuild.fields_eq (h : KeepsBuild start g)
    (hs : ∀ m ∈ start.models, ∀ n ∈ start.models, m.name = n.name → m.fields = n.fields)
    {model other : Model} (hm : model ∈ g.models) (ho : other ∈ g.models)
    (hname : model.name = other.name) : model.fields = other.fields := by
  have hbare : ∀ m ∈ g.models, ∃ first ∈ start.models, first.bare = m.bare := fun m hm =>
    List.mem_map.1 (h.bare ▸ List.mem_map_of_mem hm)
  obtain ⟨first, hf, hfirst⟩ := hbare model hm
  obtain ⟨second, hsecond, heq⟩ := hbare other ho
  rw [← Model.fields_eq_of_bare_eq hfirst, ← Model.fields_eq_of_bare_eq heq]
  refine hs first hf second hsecond ?_
  rw [Model.name_eq_of_bare_eq hfirst, Model.name_eq_of_bare_eq heq, hname]

end ModelGraph

section Fragments

variable {view : SchemaView} {buildSet : List String} {declarations : List ModelDeclaration}
  {enums : List String} {start g : ModelGraph}

/-- Whatever is attached to a graph that was built, every fragment of every model is rendered
without a silent omission: each bare name has its line, each key of a built model its block, and
each key below anything else its one warning, in the order of the selection. -/
theorem renders_fragments (hbuild : ModelGraph.build view buildSet declarations enums = .ok start)
    (hnames : start.HasNames) (changes : List Change) (warnings : List Warning)
    (hg : (runChanges changes ⟨start, warnings⟩).graph = g) :
    ∀ model ∈ g.models, ∀ fragment ∈ model.fragments.entries, ∀ depth : Nat,
      Renders g model.name depth fragment.2 (selectionLines g model.name fragment.2 depth)
        (compose g model.name fragment.2).warnings := by
  have hkeeps : start.KeepsBuild g :=
    hg ▸ (ModelGraph.IsFresh.built hbuild).keepsBuild.run changes
  intro model hm fragment hf depth
  have hnamed : g.HasNames := hnames.of_bare_eq hkeeps.bare.symm
  refine renders_compose hnamed fragment.2 depth fun owner howner => ?_
  have hknown := (hkeeps.sound model hm).fragments fragment hf
  -- Another model of the same name may be found in place of this one.
  have hfields := hkeeps.fields_eq
    (fun _ hm _ hn => ModelGraph.fields_eq_of_build hbuild hm hn) hm
    (List.mem_of_find?_eq_some howner) (ModelGraph.name_eq_of_find? howner).symm
  exact hknown.mono (fun _ target htarget => ⟨target, htarget, rfl⟩) hfields

/-- Blogs and their posts. -/
def blogDeclarations : List ModelDeclaration := [⟨"Blog", ["posts"]⟩, ⟨"Post", ["blog"]⟩]

def blogSchema : SchemaView :=
  .ofLists blogDeclarations
    [("Blog", [("id", "ID!"), ("posts", "ModelPostConnection")]),
      ("Post", [("id", "ID!"), ("blog", "Blog")])]
    (fun _ => []) [] []

/-- The graph of blogs alone, which knows of posts that there are such models. -/
def blogsAlone : ModelGraph where
  models := [ModelGraph.modelOf ⟨"Blog", ["posts"]⟩ []
    [.ofRaw "id" "ID!", .ofRaw "posts" "ModelPostConnection"]]
  discovered := ["Blog", "Post"]

theorem build_blogsAlone :
    ModelGraph.build blogSchema ["Blog"] blogDeclarations [] = .ok blogsAlone := by
  refine ModelGraph.build_eq_ok_iff.2 ⟨by decide, blogsAlone.models, ?_, ?_⟩
  · exact .cons ⟨_, rfl, rfl⟩ .nil
  · exact congrArg (ModelGraph.mk · ["Blog", "Post"]) (List.mergeSort_singleton _).symm

theorem hasNames_blogsAlone : blogsAlone.HasNames := by
  intro model hm
  obtain rfl := List.mem_singleton.1 hm
  decide

/-- The blog of each post of a blog, in two entries. -/
def deepSelection : List Selection :=
  [.nested [("posts", [.nested [("blog", [.field "id"])], .field "id"])], .field "id"]

/-- The graph of blogs with that selection as a fragment. -/
def deepBlogs : ModelGraph := blogsAlone.update "Blog" (·.setFragment "Deep" deepSelection)

theorem renders_fragments_deepBlogs :
    ModelGraph.build blogSchema ["Blog"] blogDeclarations [] = .ok blogsAlone ∧
      blogsAlone.HasNames ∧
      (runChanges [.addFragment "Blog" "Deep" deepSelection] ⟨blogsAlone, []⟩).graph = deepBlogs ∧
      ∃ blog ∈ deepBlogs.models, ("Deep", deepSelection) ∈ blog.fragments.entries ∧
        Renders deepBlogs blog.name 1 deepSelection
          ["  posts \x7b", "    items \x7b", "      id", "    \x7d", "    nextToken", "  \x7d",
            "  id"]
          [.excludedConnection "Post" "blog"] := by
  refine ⟨build_blogsAlone, hasNames_blogsAlone, rfl, _, List.mem_cons_self,
    List.mem_cons_of_mem _ List.mem_cons_self, ?_⟩
  exact renders_fragments build_blogsAlone hasNames_blogsAlone
    [.addFragment "Blog" "Deep" deepSelection] [] rfl _ List.mem_cons_self ("Deep", deepSelection)
    (List.mem_cons_of_mem _ List.mem_cons_self) 1

end Fragments

end SchemaAccess
