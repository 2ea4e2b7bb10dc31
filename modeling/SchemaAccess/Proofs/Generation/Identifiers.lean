import Mathlib.Data.List.Pairwise
import SchemaAccess.Proofs.Generation.Run
import SchemaAccess.Proofs.Graph.Restriction
import SchemaAccess.Proofs.Session.Registry

/-!
# The names of fragments in the generated code

A fragment is called by the name of its model with its key behind it.  Nothing marks where the name
ends and the key begins, so two models may call two fragments the same, although no two models have
one name and no model has two fragments of one key.

* `Generation.identifiers` — what the fragments of a generation are called.
* `ComesWith` — the keys of the fragments of a model, by the document of the user.
* `hasFragment_of_prepare` — these are the keys that a model has in the end.
* `append_eq_append_iff` — two names with keys are the same if one goes on where the other ends.
* `nodup_identifiers_iff` — when no two fragments are called the same.
* `not_nodup_identifiers_blogPosts` — a blog and a blog post with such fragments.
-/

namespace SchemaAccess

/-- What the fragments of a generation are called in the generated code. -/
def Generation.identifiers (generation : Generation) : List String :=
  generation.collections.flatMap fun collection =>
    collection.fragments.map RenderedFragment.identifier

/-- A model comes with a fragment of a key: the default one, or one that the document has for it. -/
def ComesWith (fragments : FragmentOverrides) (model key : String) : Prop :=
  key = Model.defaultFragment ∨
    ∃ overrides, (model, overrides) ∈ fragments.entries ∧ key ∈ overrides.keys

/-! ## The keys of a model -/

section Keys

variable {view : SchemaView} {buildSet enums : List String} {fragments : FragmentOverrides}
  {hooks : HookOverrides} {declarations : List ModelDeclaration} {start : ModelGraph}

/-- A model is built with the default fragment alone. -/
theorem hasFragment_of_build
    (h : ModelGraph.build view buildSet declarations enums = .ok start) (name key : String) :
    start.HasFragment name key ↔ start.isBuilt name = true ∧ key = Model.defaultFragment := by
  rw [ModelGraph.HasFragment, ModelGraph.isBuilt]
  cases hm : start.find? name with
  | none => simp
  | some model =>
    obtain ⟨declaration, scanned, -, rfl⟩ :=
      ModelGraph.exists_builtFrom_of_build h (List.mem_of_find?_eq_some hm)
    obtain ⟨connections, hc⟩ := ModelGraph.exists_connections_modelOf declaration enums scanned
    have hkeys : (ModelGraph.modelOf declaration enums scanned).fragments.keys =
        [Model.defaultFragment] := by
      rw [hc]
      rfl
    simp [hkeys]

/-- In the end a built model has the fragments that it comes with. -/
theorem hasFragment_of_prepare {after : Session.State}
    (h : ModelGraph.build view buildSet declarations enums = .ok start)
    (hrun : (prepare view fragments hooks).execute ⟨start, []⟩ = (.ok (), after))
    (name key : String) :
    after.graph.HasFragment name key ↔
      after.graph.isBuilt name = true ∧ ComesWith fragments name key := by
  obtain ⟨_, classified, hclassify, hrest⟩ := Session.execute_bind_eq_ok_iff.1 hrun
  obtain ⟨_, merged, hmerge, hhooks⟩ := Session.execute_bind_eq_ok_iff.1 hrest
  have hall := (Session.registers_classify hclassify).trans
    ((Session.registers_mergeFragments hmerge).trans (Session.registers_mergeHooks hhooks))
  rw [hall.hasFragment, hall.isBuilt, hasFragment_of_build h, ComesWith, ← and_or_left]
  simp only [false_or, or_false]

end Keys

/-! ## Names with keys behind them -/

/-- Two names with keys are the same exactly if one of the names goes on where the other one ends,
and the key behind the shorter one makes up for it. -/
theorem append_eq_append_iff {name other key last : String} :
    name ++ key = other ++ last ↔
      (∃ rest, other = name ++ rest ∧ key = rest ++ last) ∨
        ∃ rest, name = other ++ rest ∧ last = rest ++ key := by
  constructor
  · intro h
    have hchars := congrArg String.toList h
    rw [String.toList_append, String.toList_append] at hchars
    rcases List.append_eq_append_iff.1 hchars with ⟨rest, ho, hk⟩ | ⟨rest, hn, hl⟩
    · refine .inl ⟨String.ofList rest, String.ext ?_, String.ext ?_⟩
      · simpa using ho
      · simpa using hk
    · refine .inr ⟨String.ofList rest, String.ext ?_, String.ext ?_⟩
      · simpa using hn
      · simpa using hl
  · rintro (⟨rest, rfl, rfl⟩ | ⟨rest, rfl, rfl⟩)
    · rw [String.append_assoc]
    · rw [String.append_assoc]

/-- Only the empty text leaves a name as it is. -/
theorem eq_empty_of_append_eq {name rest : String} (h : name ++ rest = name) : rest = "" :=
  (String.append_right_inj name).1 (by rw [h, String.append_empty])

/-- Models with distinct names call no two fragments the same exactly if, wherever the name of one
goes on where that of another ends, the other has no key that goes on like this with a key of the
first. -/
theorem nodup_flatMap_append_iff {models : List Model} (h : (models.map Model.name).Nodup) :
    (models.flatMap fun model => model.fragments.keys.map (model.name ++ ·)).Nodup ↔
      ∀ model ∈ models, ∀ longer ∈ models, ∀ rest, rest ≠ "" → longer.name = model.name ++ rest →
        ∀ key ∈ longer.fragments.keys, rest ++ key ∉ model.fragments.keys := by
  have hown : ∀ model ∈ models, (model.fragments.keys.map (model.name ++ ·)).Nodup :=
    fun model _ => model.fragments.nodup_keys.map fun _ _ hkeys =>
      (String.append_right_inj model.name).1 hkeys
  rw [List.nodup_flatMap, and_iff_right hown]
  constructor
  · intro hpairs model hm longer hl rest hrest hname key hkey hshort
    have hne : model ≠ longer := by
      rintro rfl
      exact hrest (eq_empty_of_append_eq hname.symm)
    have : Std.Symm (Function.onFun List.Disjoint fun model : Model =>
        model.fragments.keys.map (model.name ++ ·)) :=
      ⟨fun _ _ h _ hleft hright => h hright hleft⟩
    refine hpairs.forall hm hl hne (List.mem_map_of_mem hshort) ?_
    rw [← String.append_assoc, ← hname]
    exact List.mem_map_of_mem hkey
  · intro hall
    have hdistinct : models.Pairwise fun model other => model.name ≠ other.name :=
      List.pairwise_map.1 h
    refine hdistinct.imp_of_mem fun {model other} hm ho hne identifier hleft hright => ?_
    obtain ⟨key, hkey, rfl⟩ := List.mem_map.1 hleft
    obtain ⟨last, hlast, heq⟩ := List.mem_map.1 hright
    rcases append_eq_append_iff.1 heq with ⟨rest, hname, rfl⟩ | ⟨rest, hname, rfl⟩
    · exact hall other ho model hm rest (fun hr => hne (by rw [hname, hr, String.append_empty]))
        hname key hkey hlast
    · exact hall model hm other ho rest
        (fun hr => hne.symm (by rw [hname, hr, String.append_empty])) hname last hlast hkey

/-! ## Generations -/

/-- With distinct names the fragments of all models are called by their names and keys. -/
theorem identifiers_ofState {state : Session.State}
    (h : (state.graph.models.map Model.name).Nodup) (enums : List EnumDeclaration)
    (inputs : List InputDeclaration) :
    (Generation.ofState state enums inputs).identifiers =
      state.graph.models.flatMap fun model => model.fragments.keys.map (model.name ++ ·) := by
  rw [Generation.identifiers, Generation.ofState, List.flatMap_map]
  refine List.flatMap_congr fun model hm => ?_
  show (renderFragments state.graph model.name).map RenderedFragment.identifier = _
  rw [renderFragments_of_find? (ModelGraph.find?_eq_some_of_nodup h hm), List.map_map, Table.keys,
    Entries.keys, List.map_map]
  rfl

section Generation

variable {view : SchemaView} {buildSet : List String} {fragments : FragmentOverrides}
  {hooks : HookOverrides} {declarations : List ModelDeclaration} {generation : Generation}

/-- No two fragments of a generation are called the same exactly if no generated model has a name
that begins with the name of another one, so that the other one comes with a key that consists of
what is left of the longer name and a key of the model with that name. -/
theorem nodup_identifiers_iff (hmodels : view.models = .ok declarations)
    (hnodup : (declarations.map ModelDeclaration.name).Nodup)
    (h : generate view buildSet fragments hooks = .ok generation) :
    generation.identifiers.Nodup ↔
      ∀ model ∈ selectedNames buildSet declarations, ∀ rest, rest ≠ "" →
        model ++ rest ∈ selectedNames buildSet declarations →
        ∀ key, ComesWith fragments (model ++ rest) key →
          ¬ ComesWith fragments model (rest ++ key) := by
  have hperm := modelNames_perm_of_generate hmodels h
  obtain ⟨_, enums, start, state, inputs, hm, -, hbuilt, hrun, -, rfl⟩ := generate_eq_ok_iff.1 h
  obtain rfl : declarations = _ := Except.ok.inj (hmodels.symm.trans hm)
  rw [modelNames_ofState] at hperm
  have hnames : (state.graph.models.map Model.name).Nodup :=
    hperm.nodup_iff.2 (hnodup.sublist (List.filter_sublist.map _))
  have hkeys : ∀ model ∈ state.graph.models, ∀ key,
      key ∈ model.fragments.keys ↔ ComesWith fragments model.name key := by
    intro model hm key
    have hfind := ModelGraph.find?_eq_some_of_nodup hnames hm
    have hhas := hasFragment_of_prepare hbuilt hrun model.name key
    simpa [ModelGraph.HasFragment, ModelGraph.isBuilt, hfind] using hhas
  rw [identifiers_ofState hnames, nodup_flatMap_append_iff hnames]
  constructor
  · intro hall name hname rest hrest hlonger key hkey hshort
    obtain ⟨model, hm, rfl⟩ := List.mem_map.1 (hperm.mem_iff.2 hname)
    obtain ⟨longer, hl, hlname⟩ := List.mem_map.1 (hperm.mem_iff.2 hlonger)
    refine hall model hm longer hl rest hrest hlname key ?_ ((hkeys model hm _).2 hshort)
    rw [hkeys longer hl, hlname]
    exact hkey
  · intro hall model hm longer hl rest hrest hname key hkey hshort
    refine hall model.name (hperm.mem_iff.1 (List.mem_map_of_mem hm)) rest hrest ?_ key ?_
      ((hkeys model hm _).1 hshort)
    · rw [← hname]
      exact hperm.mem_iff.1 (List.mem_map_of_mem hl)
    · rw [← hname]
      exact (hkeys longer hl key).1 hkey

end Generation

/-! ## Blogs and blog posts -/

def blogPostDeclarations : List ModelDeclaration := [⟨"Blog", []⟩, ⟨"BlogPost", []⟩]

/-- Two models, where the name of one goes on where that of the other ends. -/
def blogPostSchema : SchemaView :=
  .ofLists blogPostDeclarations [("Blog", [("id", "ID!")]), ("BlogPost", [("id", "ID!")])]
    (fun _ => []) [] []

def blogPostGraph : ModelGraph where
  models := [ModelGraph.modelOf ⟨"Blog", []⟩ [] [.ofRaw "id" "ID!"],
    ModelGraph.modelOf ⟨"BlogPost", []⟩ [] [.ofRaw "id" "ID!"]]
  discovered := ["Blog", "BlogPost"]

theorem build_blogPostGraph :
    ModelGraph.build blogPostSchema [] blogPostDeclarations [] = .ok blogPostGraph := by
  have hordered : blogPostGraph.models.Pairwise fun a b => decide (a.name ≤ b.name) = true := by
    decide
  refine ModelGraph.build_eq_ok_iff.2 ⟨by simp, blogPostGraph.models, ?_, ?_⟩
  · exact .cons ⟨_, rfl, rfl⟩ (.cons ⟨_, rfl, rfl⟩ .nil)
  · exact congrArg (ModelGraph.mk · ["Blog", "BlogPost"])
      (List.mergeSort_of_pairwise hordered).symm

/-- The posts of a blog, and a blog post by its number. -/
def apartFragments : FragmentOverrides :=
  Table.ofList [("Blog", Table.ofList [("Post", [.field "id"])]),
    ("BlogPost", Table.ofList [("Id", [.field "id"])])]

theorem comesWith_apartFragments_iff (model key : String) :
    ComesWith apartFragments model key ↔
      key = "FragmentDefault" ∨
        model = "Blog" ∧ key = "Post" ∨ model = "BlogPost" ∧ key = "Id" := by
  have hentries : apartFragments.entries =
      [("Blog", Table.ofList [("Post", [.field "id"])]),
        ("BlogPost", Table.ofList [("Id", [.field "id"])])] := rfl
  have hpost : (Table.ofList [("Post", [Selection.field "id"])]).keys = ["Post"] := rfl
  have hid : (Table.ofList [("Id", [Selection.field "id"])]).keys = ["Id"] := rfl
  simp [ComesWith, hentries, Model.defaultFragment, or_and_right, exists_or, and_assoc, hpost, hid]

theorem nodup_identifiers_iff_apart :
    blogPostSchema.models = .ok blogPostDeclarations ∧
      (blogPostDeclarations.map ModelDeclaration.name).Nodup ∧
      ∃ generation, generate blogPostSchema [] apartFragments Table.empty = .ok generation ∧
        generation.identifiers.Nodup := by
  have hnodup : (blogPostDeclarations.map ModelDeclaration.name).Nodup := by decide
  have hgenerate : generate blogPostSchema [] apartFragments Table.empty = .ok (.ofState
      ⟨(blogPostGraph.update "Blog" (·.setFragment "Post" [.field "id"])).update "BlogPost"
        (·.setFragment "Id" [.field "id"]), []⟩ [] []) :=
    generate_eq_ok_iff.2 ⟨blogPostDeclarations, [], blogPostGraph, _, [], rfl, rfl,
      build_blogPostGraph, rfl, rfl, rfl⟩
  refine ⟨rfl, hnodup, _, hgenerate, (nodup_identifiers_iff rfl hnodup hgenerate).2 ?_⟩
  intro model hm rest hrest hlonger key hkey hshort
  have hnames : selectedNames [] blogPostDeclarations = ["Blog", "BlogPost"] := rfl
  rw [hnames, List.mem_pair] at hm hlonger
  rcases hm with rfl | rfl
  · rcases hlonger with heq | heq
    · exact hrest (eq_empty_of_append_eq heq)
    · -- Behind the name of a blog the name of a blog post has the key of a fragment of blogs.
      obtain rfl : rest = "Post" := (String.append_right_inj "Blog").1 heq
      rw [comesWith_apartFragments_iff] at hkey hshort
      rcases hkey with rfl | ⟨-, rfl⟩ | ⟨-, rfl⟩ <;> revert hshort <;> decide
  · rcases hlonger with heq | heq
    · have hlength := congrArg String.length heq
      rw [String.length_append, show "BlogPost".length = 8 from rfl,
        show "Blog".length = 4 from rfl] at hlength
      omega
    · exact hrest (eq_empty_of_append_eq heq)

/-- A fragment of blogs whose key ends like the name of the default fragment of blog posts. -/
def clashingFragments : FragmentOverrides :=
  Table.ofList [("Blog", Table.ofList [("PostFragmentDefault", [.field "id"])])]

/-- That fragment of blogs and the default fragment of blog posts are called the same. -/
theorem not_nodup_identifiers_blogPosts :
    blogPostSchema.models = .ok blogPostDeclarations ∧
      (blogPostDeclarations.map ModelDeclaration.name).Nodup ∧
      ∃ generation, generate blogPostSchema [] clashingFragments Table.empty = .ok generation ∧
        ¬ generation.identifiers.Nodup := by
  have hgenerate : generate blogPostSchema [] clashingFragments Table.empty = .ok (.ofState
      ⟨blogPostGraph.update "Blog" (·.setFragment "PostFragmentDefault" [.field "id"]), []⟩
      [] []) :=
    generate_eq_ok_iff.2 ⟨blogPostDeclarations, [], blogPostGraph, _, [], rfl, rfl,
      build_blogPostGraph, rfl, rfl, rfl⟩
  exact ⟨rfl, by decide, _, hgenerate, by decide⟩

end SchemaAccess
