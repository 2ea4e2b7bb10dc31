import SchemaAccess.Proofs.Fragment.Restriction
import SchemaAccess.Proofs.Generation.Run
import SchemaAccess.Proofs.Session.Restriction

/-!
# Generating for fewer models

A build set restricts a generation to some of the models.  Where all models can be generated those
can, and nothing is generated for them that is not generated for all: their collections are the same
but for the lines of fragments that lie below keys of models that are left out.

* `Collection.Narrows` — what a build set may change about a collection.
* `narrows_generate` — a build set changes nothing else, and leaves out no model that is in it.
-/

namespace SchemaAccess

open ModelGraph (Restricts)

/-! ## Models by name -/

/-- The models that are generated, by name. -/
def Generation.model? (generation : Generation) (name : String) : Option Model :=
  (generation.find? name).map Collection.model

/-- They are those of the graph. -/
theorem Generation.model?_ofState (state : Session.State) (enums : List EnumDeclaration)
    (inputs : List InputDeclaration) :
    (Generation.ofState state enums inputs).model? = state.graph.find? := by
  funext name
  rw [model?, find?, ofState, List.find?_map, Option.map_map]
  show Option.map id _ = _
  rw [Option.map_id, id]
  rfl

/-! ## Collections -/

/-- `part` is `full` with fragments that may have lost lines.  Models are found under their names,
and some of them are kept. -/
structure Collection.Narrows (kept : List String) (find? : String → Option Model)
    (part full : Collection) : Prop where
  /-- The name, the fields and their classes, the connections, accessors and hooks are the same. -/
  model : part.model = full.model
  /-- Both have the fragments of the model in order. -/
  keys : part.fragments.map RenderedFragment.key = full.model.fragments.keys ∧
    full.fragments.map RenderedFragment.key = full.model.fragments.keys
  /-- A fragment has some of the lines of its body, and all where no key lies under a model that is
  not kept. -/
  fragments : ∀ fragment ∈ full.model.fragments.entries,
    ∃ narrow ∈ part.fragments, ∃ whole ∈ full.fragments,
      narrow.key = fragment.1 ∧ whole.key = fragment.1 ∧ narrow.identifier = whole.identifier ∧
        narrow.lines.Sublist whole.lines ∧
        (AvoidsExcluded kept find? full.model.name fragment.2 → narrow = whole)

section Collections

variable {kept : List String} {full part : ModelGraph} {model : Model}

/-- A model that is found under its name has the same collection in a part of the graph, but for the
lines of its fragments. -/
theorem narrows_collectionOf (h : Restricts kept full part)
    (hm : part.find? model.name = some model) :
    Collection.Narrows kept full.find? (collectionOf part model) (collectionOf full model) := by
  have hpart := renderFragments_of_find? hm
  have hfull := renderFragments_of_find? (h.find?_full hm)
  have hkeys : ∀ g : ModelGraph,
      (model.fragments.entries.map fun fragment =>
        renderFragment g model.name fragment.1 fragment.2).map RenderedFragment.key =
      model.fragments.keys := fun g => List.map_map
  refine ⟨rfl, ⟨?_, ?_⟩, fun fragment hf => ?_⟩
  · show (renderFragments part model.name).map RenderedFragment.key = model.fragments.keys
    rw [hpart, hkeys]
  · show (renderFragments full model.name).map RenderedFragment.key = model.fragments.keys
    rw [hfull, hkeys]
  · refine ⟨renderFragment part model.name fragment.1 fragment.2, ?_,
      renderFragment full model.name fragment.1 fragment.2, ?_, rfl, rfl, rfl, ?_, ?_⟩
    · show _ ∈ renderFragments part model.name
      rw [hpart]
      exact List.mem_map_of_mem hf
    · show _ ∈ renderFragments full model.name
      rw [hfull]
      exact List.mem_map_of_mem hf
    · exact lines_renderFragment_sublist _ _ h fragment.2
    · exact renderFragment_eq_of_avoidsExcluded _ _ h

end Collections

/-! ## The run -/

section Run

variable {view : SchemaView} {fragments : FragmentOverrides} {hooks : HookOverrides}

/-- The run goes through in a part of a graph whose names are apart, and leaves a part. -/
theorem exists_restricts_of_prepare {kept : List String} {full part after : Session.State}
    (hapart : full.graph.NamesApart) (h : Restricts kept full.graph part.graph)
    (hrun : (prepare view fragments hooks).execute full = (.ok (), after)) :
    ∃ rest, (prepare view fragments hooks).execute part = (.ok (), rest) ∧
      Restricts kept after.graph rest.graph := by
  obtain ⟨_, classified, hclassify, hrest⟩ := Session.execute_bind_eq_ok_iff.1 hrun
  obtain ⟨fewer, hfewer, hf⟩ := Session.exists_restricts_of_classify hapart h hclassify
  obtain ⟨rest, hmerge, hr⟩ := Session.Narrows.bind (Session.narrows_mergeFragments fragments)
    (Session.narrows_mergeHooks hooks) classified fewer after hf hrest
  exact ⟨rest, Session.execute_bind_eq_ok_iff.2 ⟨_, fewer, hfewer, hmerge⟩, hr⟩

variable {declarations : List ModelDeclaration} {kept : List String} {full : Generation}

/-- Where all models can be generated, so can those in a build set.  They have the collections that
they have among all models, but for the lines of fragments that lie below keys of models outside of
the build set. -/
theorem narrows_generate (hmodels : view.models = .ok declarations)
    (hnodup : (declarations.map ModelDeclaration.name).Nodup)
    (hnames : ∀ declaration ∈ declarations, Text.IsName declaration.name.toList)
    (hpages : ∀ declaration ∈ declarations, ∀ other ∈ declarations,
      declaration.name ≠ "Model" ++ other.name ++ "Connection")
    (hkept : kept ≠ []) (hdeclared : ∀ name ∈ kept, name ∈ declarations.map ModelDeclaration.name)
    (hfull : generate view [] fragments hooks = .ok full) :
    ∃ part, generate view kept fragments hooks = .ok part ∧
      List.Forall₂ (Collection.Narrows kept full.model?) part.collections
        (full.collections.filter fun collection => kept.contains collection.model.name) := by
  obtain ⟨_, enums, graph, state, inputs, hm, henums, hgraph, hrun, hinputs, rfl⟩ :=
    generate_eq_ok_iff.1 hfull
  obtain rfl : declarations = _ := Except.ok.inj (hmodels.symm.trans hm)
  obtain ⟨fewer, hfewer, hf⟩ :=
    ModelGraph.exists_restricts_of_build hnodup hkept hdeclared hgraph
  have hperm := ModelGraph.map_name_perm_of_build hgraph
  have hapart : graph.NamesApart := .of_perm hperm hnodup (List.forall_mem_map.2 hnames)
    (List.forall_mem_map.2 fun declaration hd => List.forall_mem_map.2 (hpages declaration hd))
  have hstart : Restricts kept (Session.State.mk graph []).graph
      (Session.State.mk fewer []).graph := hf
  obtain ⟨rest, hrest, hr⟩ := exists_restricts_of_prepare hapart hstart hrun
  refine ⟨_, generate_eq_ok_iff.2
    ⟨declarations, enums, fewer, rest, inputs, hmodels, henums, hfewer, hrest, hinputs, rfl⟩, ?_⟩
  have hdistinct : (rest.graph.models.map Model.name).Nodup := by
    have hkeeps := keepsBuild_of_prepare (ModelGraph.IsFresh.built hgraph).keepsBuild hrun
    rw [hr.models]
    refine List.Nodup.sublist (List.filter_sublist.map Model.name) ?_
    rw [ModelGraph.map_name_eq_of_bare_eq hkeeps.bare]
    exact hapart.nodup
  have hcollections : (Generation.ofState state enums inputs).collections.filter
      (fun collection => kept.contains collection.model.name) =
        rest.graph.models.map (collectionOf state.graph) := by
    rw [Generation.ofState, List.filter_map, hr.models]
    rfl
  rw [hcollections, Generation.model?_ofState]
  refine List.forall₂_map_left_iff.2 (List.forall₂_map_right_iff.2 (List.forall₂_same.2 ?_))
  exact fun model hm => narrows_collectionOf hr (ModelGraph.find?_eq_some_of_nodup hdistinct hm)

end Run

/-- The graph of blogs and their posts. -/
def blogsAndPosts : ModelGraph where
  models :=
    [ModelGraph.modelOf ⟨"Blog", ["posts"]⟩ []
        [.ofRaw "id" "ID!", .ofRaw "posts" "ModelPostConnection"],
      ModelGraph.modelOf ⟨"Post", ["blog"]⟩ [] [.ofRaw "id" "ID!", .ofRaw "blog" "Blog"]]
  discovered := ["Blog", "Post"]

theorem build_blogsAndPosts :
    ModelGraph.build blogSchema [] blogDeclarations [] = .ok blogsAndPosts := by
  have hordered : blogsAndPosts.models.Pairwise fun a b => decide (a.name ≤ b.name) = true := by
    decide
  refine ModelGraph.build_eq_ok_iff.2 ⟨by simp, blogsAndPosts.models, ?_, ?_⟩
  · exact .cons ⟨_, rfl, rfl⟩ (.cons ⟨_, rfl, rfl⟩ .nil)
  · exact congrArg (ModelGraph.mk · ["Blog", "Post"]) (List.mergeSort_of_pairwise hordered).symm

/-- A fragment of blogs with a key below their posts. -/
def deepFragments : FragmentOverrides :=
  Table.ofList [("Blog", Table.ofList [("Deep", deepSelection)])]

theorem narrows_generate_blogs :
    blogSchema.models = .ok blogDeclarations ∧
      (blogDeclarations.map ModelDeclaration.name).Nodup ∧
      (∀ declaration ∈ blogDeclarations, Text.IsName declaration.name.toList) ∧
      (∀ declaration ∈ blogDeclarations, ∀ other ∈ blogDeclarations,
        declaration.name ≠ "Model" ++ other.name ++ "Connection") ∧
      ["Blog"] ≠ [] ∧ (∀ name ∈ ["Blog"], name ∈ blogDeclarations.map ModelDeclaration.name) ∧
      ∃ full part, generate blogSchema [] deepFragments Table.empty = .ok full ∧
        generate blogSchema ["Blog"] deepFragments Table.empty = .ok part ∧
        List.Forall₂ (Collection.Narrows ["Blog"] full.model?) part.collections
          (full.collections.filter fun collection => ["Blog"].contains collection.model.name) := by
  have hnodup : (blogDeclarations.map ModelDeclaration.name).Nodup := by decide
  have hnames : ∀ declaration ∈ blogDeclarations, Text.IsName declaration.name.toList := by decide
  have hpages : ∀ declaration ∈ blogDeclarations, ∀ other ∈ blogDeclarations,
      declaration.name ≠ "Model" ++ other.name ++ "Connection" := by decide
  have hdeclared : ∀ name ∈ ["Blog"], name ∈ blogDeclarations.map ModelDeclaration.name := by
    decide
  have hfull : generate blogSchema [] deepFragments Table.empty = .ok (.ofState
      ⟨blogsAndPosts.update "Blog" (·.setFragment "Deep" deepSelection), []⟩ [] []) :=
    generate_eq_ok_iff.2 ⟨blogDeclarations, [], blogsAndPosts, _, [], rfl, rfl,
      build_blogsAndPosts, rfl, rfl, rfl⟩
  obtain ⟨part, hpart, hnarrows⟩ :=
    narrows_generate rfl hnodup hnames hpages (List.cons_ne_nil _ _) hdeclared hfull
  exact ⟨rfl, hnodup, hnames, hpages, List.cons_ne_nil _ _, hdeclared, _, part, hfull, hpart,
    hnarrows⟩

end SchemaAccess
