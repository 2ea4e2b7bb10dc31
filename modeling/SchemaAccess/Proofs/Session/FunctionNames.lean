import SchemaAccess.Proofs.Graph.Building
import SchemaAccess.Proofs.Session.Classification
import SchemaAccess.Proofs.Text.Replacing

/-!
# When generated functions are called the same

A listing operation is called by two functions, one of which iterates over the pages; its name is
made from that of the operation by putting `iterate` for the first `list`, or in front.  Different
operations can come to the same name in that way, and the name can be that of another operation.

* `Accessor.iterateName`, `iterateName_eq_iff` — the name for iterating, and which two operations
  have the same one.
* `Merges` — the pairs of names that do.
* `Model.functionNames`, `functionNames_attached_perm` — the functions of a model behind what
  is attached to it.
* `CallsApart`, `nodup_functionNames_iff` — when they are all called differently.
-/

namespace SchemaAccess

namespace Accessor

/-! ## Names for iterating

The function that iterates over the pages of a listing is called by the name of the operation with
its first `list` replaced by `iterate`.  `Merges` lists the ways in which two names come to the same
one. -/

/-- The name of the function that iterates over what an operation lists. -/
def iterateName (operation : String) : String := functionName ⟨.iterate, operation, Table.empty⟩

variable {operation other : String} {front middle back : List Char}

/-- In a name with `list` the first one is replaced. -/
theorem toList_iterateName_of_isFirst
    (h : operation.toList = front ++ "list".toList ++ back)
    (hfirst : Text.IsFirst "list".toList front back) :
    (iterateName operation).toList = front ++ "iterate".toList ++ back := by
  rw [iterateName, functionName, if_pos rfl, h, Text.replaceFirst?_of_isFirst hfirst,
    Option.getD_some, String.toList_ofList]

/-- A name without `list` is put behind `iterate`. -/
theorem toList_iterateName_of_not_mem (h : ¬ "list".toList <:+: operation.toList) :
    (iterateName operation).toList = "iterate".toList ++ operation.toList := by
  rw [iterateName, functionName, if_pos rfl, Text.replaceFirst?_eq_none_iff.2 h, Option.getD_none,
    String.toList_ofList]

/-- Two names that come to the same name for iterating, taken apart where they are changed. -/
inductive Merges : List Char → List Char → Prop
  /-- The second name is the first one behind `list`. -/
  | prefixed {name : List Char} (apart : ¬ "list".toList <:+: name) :
      Merges name ("list".toList ++ name)
  /-- One name has `iterate` where the first `list` of the other one stands, and conversely. -/
  | crossed {front middle back : List Char}
      (first : Text.IsFirst "list".toList front (middle ++ "iterate".toList ++ back))
      (second : Text.IsFirst "list".toList (front ++ "iterate".toList ++ middle) back) :
      Merges (front ++ "list".toList ++ (middle ++ "iterate".toList ++ back))
        (front ++ "iterate".toList ++ middle ++ "list".toList ++ back)
  /-- The first name has no `list`, and the second one begins with `iterate` and has its first
  `list` where the first name has `iterate`. -/
  | behind {middle back : List Char}
      (apart : ¬ "list".toList <:+: middle ++ "iterate".toList ++ back)
      (second : Text.IsFirst "list".toList ("iterate".toList ++ middle) back) :
      Merges (middle ++ "iterate".toList ++ back)
        ("iterate".toList ++ middle ++ "list".toList ++ back)

/-- Names that merge come to the same name for iterating. -/
theorem iterateName_eq_of_merges (h : Merges operation.toList other.toList) :
    iterateName operation = iterateName other := by
  rw [← String.toList_inj]
  generalize hs : operation.toList = s at h
  generalize ht : other.toList = t at h
  cases h with
  | prefixed apart =>
    rw [← hs] at apart ht
    rw [toList_iterateName_of_not_mem apart,
      toList_iterateName_of_isFirst (by exact ht) (Text.isFirst_nil _ _)]
    rfl
  | crossed first second =>
    rw [toList_iterateName_of_isFirst hs first, toList_iterateName_of_isFirst ht second]
    simp only [List.append_assoc]
  | behind apart second =>
    rw [toList_iterateName_of_not_mem (hs ▸ apart), hs,
      toList_iterateName_of_isFirst ht second]
    simp only [List.append_assoc]

/-- What is before and behind the place where a name was changed, if the same came of both. -/
theorem append_iterate_eq_iff {front back before after : List Char} :
    front ++ "iterate".toList ++ back = before ++ "iterate".toList ++ after ↔
      front = before ∧ back = after ∨
        (∃ middle, before = front ++ "iterate".toList ++ middle ∧
          back = middle ++ "iterate".toList ++ after) ∨
        ∃ middle, front = before ++ "iterate".toList ++ middle ∧
          after = middle ++ "iterate".toList ++ back := by
  have hfirst : 'i' ∉ "terate".toList := by decide
  exact Text.append_word_eq_iff hfirst

/-- A name with `list` and one without it merge if they come to the same name for iterating. -/
theorem merges_of_iterate_eq {name : List Char} (hfirst : Text.IsFirst "list".toList front back)
    (hname : ¬ "list".toList <:+: name)
    (h : front ++ "iterate".toList ++ back = "iterate".toList ++ name) :
    Merges name (front ++ "list".toList ++ back) := by
  have hsplit : front ++ "iterate".toList ++ back = [] ++ "iterate".toList ++ name := h
  obtain ⟨rfl, rfl⟩ | ⟨middle, hnil, -⟩ | ⟨middle, rfl, rfl⟩ := append_iterate_eq_iff.1 hsplit
  · exact .prefixed hname
  · have hlength := congrArg List.length hnil
    simp at hlength
  · exact .behind hname hfirst

/-- Two operations have one name for iterating only if they are the same or merge. -/
theorem merges_of_iterateName_eq (h : iterateName operation = iterateName other) :
    operation = other ∨ Merges operation.toList other.toList ∨
      Merges other.toList operation.toList := by
  rw [← String.toList_inj] at h ⊢
  by_cases hlist : "list".toList <:+: operation.toList
  · obtain ⟨front, back, hop, hfirst⟩ := Text.exists_isFirst hlist
    rw [toList_iterateName_of_isFirst hop hfirst] at h
    rw [hop]
    by_cases hother : "list".toList <:+: other.toList
    · obtain ⟨before, after, hot, hsecond⟩ := Text.exists_isFirst hother
      rw [toList_iterateName_of_isFirst hot hsecond] at h
      rw [hot]
      obtain ⟨rfl, rfl⟩ | ⟨middle, rfl, rfl⟩ | ⟨middle, rfl, rfl⟩ := append_iterate_eq_iff.1 h
      · exact .inl rfl
      · exact .inr (.inl (.crossed hfirst hsecond))
      · exact .inr (.inr (.crossed hsecond hfirst))
    · rw [toList_iterateName_of_not_mem hother] at h
      exact .inr (.inr (merges_of_iterate_eq hfirst hother h))
  · rw [toList_iterateName_of_not_mem hlist] at h
    by_cases hother : "list".toList <:+: other.toList
    · obtain ⟨before, after, hot, hsecond⟩ := Text.exists_isFirst hother
      rw [toList_iterateName_of_isFirst hot hsecond] at h
      rw [hot]
      exact .inr (.inl (merges_of_iterate_eq hsecond hlist h.symm))
    · rw [toList_iterateName_of_not_mem hother] at h
      exact .inl (List.append_cancel_left h)

/-- No name merges with itself. -/
theorem Merges.ne {s t : List Char} (h : Merges s t) : s ≠ t := by
  cases h with
  | prefixed apart =>
    intro heq
    have hlength := congrArg List.length heq
    simp at hlength
    omega
  | crossed first second =>
    intro heq
    simp only [List.append_assoc, List.append_cancel_left_eq] at heq
    exact absurd (List.cons.inj heq).1 (by decide)
  | behind apart second =>
    intro heq
    have hlength := congrArg List.length heq
    simp only [List.length_append] at hlength
    have hlist : "list".toList.length = 4 := by decide
    omega

/-- **When two operations are iterated under one name.**  The new name is the same only for names
that merge. -/
theorem iterateName_eq_iff : iterateName operation = iterateName other ↔
    operation = other ∨ Merges operation.toList other.toList ∨
      Merges other.toList operation.toList := by
  refine ⟨merges_of_iterateName_eq, ?_⟩
  rintro (rfl | h | h)
  · rfl
  · exact iterateName_eq_of_merges h
  · exact (iterateName_eq_of_merges h).symm

/-- A name for iterating says so. -/
theorem iterate_infix_iterateName (operation : String) :
    "iterate".toList <:+: (iterateName operation).toList := by
  by_cases hlist : "list".toList <:+: operation.toList
  · obtain ⟨front, back, hop, hfirst⟩ := Text.exists_isFirst hlist
    rw [toList_iterateName_of_isFirst hop hfirst]
    exact List.infix_append front "iterate".toList back
  · rw [toList_iterateName_of_not_mem hlist]
    exact (List.prefix_append _ _).isInfix

/-- Names merge only if the first one has no `list` or an `iterate`. -/
theorem Merges.iterate_infix_left {s t : List Char} (h : Merges s t)
    (hlist : "list".toList <:+: s) : "iterate".toList <:+: s := by
  cases h with
  | prefixed apart => exact absurd hlist apart
  | crossed first second =>
    rw [← List.append_assoc, ← List.append_assoc]
    exact List.infix_append _ "iterate".toList _
  | behind apart second => exact absurd hlist apart

end Accessor

/-! ## The functions of a model -/

/-- The names of the functions that are generated for a model, in order. -/
def Model.functionNames (model : Model) : List String :=
  model.accessors.map Accessor.functionName

namespace Session

open Accessor (iterateName Merges)

theorem operationsAt_append (models : List Model) (place : Nat)
    (first second : List OperationDeclaration) :
    operationsAt models place (first ++ second) =
      operationsAt models place first ++ operationsAt models place second :=
  List.filter_append ..

/-- The operations that return a page of the model. -/
def listing (model : String) (operations : List OperationDeclaration) :
    List OperationDeclaration :=
  operations.filter fun operation =>
    TypeText.unmarked operation.returns = "Model" ++ model ++ "Connection"

/-- The queries of a model are called by their own names, and those for pages by their names for
iterating, too. -/
theorem functionNames_queries_perm (model : String) (queries : List OperationDeclaration) :
    ((queries.flatMap (imageOn model .query)).map Accessor.functionName).Perm
      (queries.map OperationDeclaration.name ++
        ((listing model queries).map OperationDeclaration.name).map iterateName) := by
  induction queries with
  | nil => exact .nil
  | cons operation queries ih =>
    rw [List.flatMap_cons, List.map_append, List.map_cons, List.cons_append, imageOn, listing,
      List.filter_cons]
    by_cases hpage : TypeText.unmarked operation.returns = "Model" ++ model ++ "Connection"
    · rw [if_pos hpage, if_pos (decide_eq_true hpage)]
      exact .cons _ ((ih.cons (iterateName operation.name)).trans List.perm_middle.symm)
    · rw [if_neg hpage, if_neg (by simpa using hpage)]
      exact ih.cons _

theorem functionNames_mutations (model : String) (mutations : List OperationDeclaration) :
    (mutations.flatMap (imageOn model .mutation)).map Accessor.functionName =
      mutations.map OperationDeclaration.name := by
  induction mutations with
  | nil => rfl
  | cons operation mutations ih =>
    rw [List.flatMap_cons, List.map_append, ih]
    rfl

/-- What the functions of a model are called behind its queries and its mutations. -/
theorem functionNames_attached_perm (model : Model)
    (queries mutations : List OperationDeclaration) :
    (Model.functionNames { model with accessors := model.accessors ++
      (queries.flatMap (imageOn model.name .query) ++
        mutations.flatMap (imageOn model.name .mutation)) }).Perm
      (model.functionNames ++ ((queries ++ mutations).map OperationDeclaration.name ++
        ((listing model.name queries).map OperationDeclaration.name).map iterateName)) := by
  rw [Model.functionNames, List.map_append, List.map_append,
    functionNames_mutations, List.map_append]
  refine .append_left _ (((functionNames_queries_perm _ _).append_right _).trans ?_)
  rw [List.append_assoc, List.append_assoc]
  exact .append_left _ List.perm_append_comm

/-- The functions that a model had, those called like the attached operations, and those that
iterate over what is listed are all called differently. -/
structure CallsApart (had attached listed : List String) : Prop where
  nodup : had.Nodup
  /-- No attached operation has the name of a function that was there. -/
  not_had : ∀ name ∈ attached, name ∉ had
  /-- No name for iterating is the name of a function that was there. -/
  iterate_not_had : ∀ name ∈ listed, iterateName name ∉ had
  /-- No name for iterating is the name of an attached operation. -/
  iterate_not_attached : ∀ name ∈ listed, iterateName name ∉ attached
  /-- No two listed names come to the same name for iterating. -/
  not_merges : ∀ name ∈ listed, ∀ other ∈ listed, ¬ Merges name.toList other.toList

/-- The three kinds of names are apart from each other, given that no two attached operations and no
two listed ones share a name. -/
theorem nodup_calls_iff {had attached listed : List String} (ha : attached.Nodup)
    (hl : listed.Nodup) :
    (had ++ (attached ++ listed.map iterateName)).Nodup ↔ CallsApart had attached listed := by
  have hmerges : (listed.map iterateName).Nodup ↔
      ∀ name ∈ listed, ∀ other ∈ listed, ¬ Merges name.toList other.toList := by
    rw [List.nodup_map_iff_inj_on hl]
    constructor
    · intro hinj name hname other hother h
      exact h.ne (congrArg String.toList
        (hinj name hname other hother (Accessor.iterateName_eq_of_merges h)))
    · intro hapart name hname other hother h
      obtain rfl | h | h := Accessor.iterateName_eq_iff.1 h
      · rfl
      · exact absurd h (hapart name hname other hother)
      · exact absurd h (hapart other hother name hname)
  rw [List.nodup_append', List.nodup_append', hmerges, List.disjoint_append_right]
  constructor
  · rintro ⟨hhad, ⟨-, hapart, hoperations⟩, hattached, hiterated⟩
    exact {
      nodup := hhad
      not_had := fun name hname h => hattached h hname
      iterate_not_had := fun name hname h => hiterated h (List.mem_map_of_mem hname)
      iterate_not_attached := fun name hname h => hoperations h (List.mem_map_of_mem hname)
      not_merges := hapart }
  · intro h
    have hoperations : attached.Disjoint (listed.map iterateName) := by
      intro name hname hmem
      obtain ⟨operation, hlisted, rfl⟩ := List.mem_map.1 hmem
      exact h.iterate_not_attached operation hlisted hname
    have hhad : had.Disjoint (listed.map iterateName) := by
      intro name hname hmem
      obtain ⟨operation, hlisted, rfl⟩ := List.mem_map.1 hmem
      exact h.iterate_not_had operation hlisted hname
    exact ⟨h.nodup, ⟨ha, h.not_merges, hoperations⟩,
      fun name hname hmem => h.not_had name hmem hname, hhad⟩

/-- Names are apart on a model without functions if every listed one has `list` in it and no
attached one has `iterate`. -/
theorem callsApart_of_listNames {attached listed : List String}
    (hlisted : ∀ name ∈ listed, name ∈ attached ∧ "list".toList <:+: name.toList)
    (hattached : ∀ name ∈ attached, ¬ "iterate".toList <:+: name.toList) :
    CallsApart [] attached listed where
  nodup := List.nodup_nil
  not_had _ _ := List.not_mem_nil
  iterate_not_had _ _ := List.not_mem_nil
  iterate_not_attached name _ hmem :=
    hattached _ hmem (Accessor.iterate_infix_iterateName name)
  not_merges name hname _ _ h :=
    hattached name (hlisted name hname).1 (h.iterate_infix_left (hlisted name hname).2)

section Run

variable {view : SchemaView} {queries mutations : List OperationDeclaration}

/-- If no two operations have the same name, the functions of a model are called differently
exactly if what they are made from is apart. -/
theorem nodup_functionNames_iff (hqueries : view.operations .query = .ok queries)
    (hmutations : view.operations .mutation = .ok mutations)
    (hnodup : ((queries ++ mutations).map OperationDeclaration.name).Nodup) (before : State) :
    ∃ after, (classify view).execute before = (.ok (), after) ∧
      after.graph.models.length = before.graph.models.length ∧
      ∀ place model attached, before.graph.models[place]? = some model →
        after.graph.models[place]? = some attached →
        (attached.functionNames.Nodup ↔
          CallsApart model.functionNames
            ((operationsAt before.graph.models place (queries ++ mutations)).map
              OperationDeclaration.name)
            ((listing model.name (operationsAt before.graph.models place queries)).map
              OperationDeclaration.name)) := by
  have hclassified := classified_stateBehind before queries mutations
  refine ⟨_, execute_classify_eq_ok_iff.2 ⟨queries, mutations, hqueries, hmutations, hclassified⟩,
    ?_, ?_⟩
  · simpa using congrArg List.length (map_name_stateBehind .mutation mutations)
  · intro place model attached hmodel hattached
    rw [hclassified.models, hmodel, Option.map_some, Option.some.injEq] at hattached
    subst hattached
    have hattached : (operationsAt before.graph.models place (queries ++ mutations)).Sublist
        (queries ++ mutations) := List.filter_sublist
    have hlisted : (listing model.name (operationsAt before.graph.models place queries)).Sublist
        (queries ++ mutations) :=
      List.filter_sublist.trans (List.filter_sublist.trans (List.sublist_append_left _ _))
    rw [(functionNames_attached_perm model _ _).nodup_iff, ← operationsAt_append]
    exact nodup_calls_iff (hnodup.sublist (hattached.map _)) (hnodup.sublist (hlisted.map _))

end Run

end Session

/-! ## Posts -/

/-- The model of posts, without operations. -/
def postGraph : ModelGraph :=
  ⟨[ModelGraph.modelOf ⟨"Post", []⟩ [] [.ofRaw "id" "ID!"]], ["Post"]⟩

/-- A schema of posts with these operations. -/
def postSchema (queries mutations : List OperationDeclaration) : SchemaView :=
  .ofLists [⟨"Post", []⟩] [("Post", [("id", "ID!")])]
    (fun | .query => queries | .mutation => mutations) [] []

theorem build_postGraph (queries mutations : List OperationDeclaration) :
    ModelGraph.build (postSchema queries mutations) [] [⟨"Post", []⟩] [] = .ok postGraph := by
  refine ModelGraph.build_eq_ok_iff.2
    ⟨by simp, postGraph.models, .cons ⟨_, rfl, rfl⟩ .nil, ?_⟩
  exact congrArg (ModelGraph.mk · ["Post"]) (List.mergeSort_singleton _).symm

/-- All posts page by page. -/
def listPosts : OperationDeclaration :=
  ⟨"listPosts", Table.ofList [("limit", "Int")], "ModelPostConnection"⟩

/-- One post. -/
def getPost : OperationDeclaration := ⟨"getPost", Table.ofList [("id", "ID!")], "Post"⟩

/-- A new post. -/
def createPost : OperationDeclaration :=
  ⟨"createPost", Table.ofList [("input", "CreatePostInput!")], "Post"⟩

/-- One post, by a name that reads as if it iterated. -/
def iteratePosts : OperationDeclaration :=
  ⟨"iteratePosts", Table.ofList [("id", "ID!")], "Post"⟩

theorem nodup_functionNames_listPosts :
    (postSchema [listPosts, getPost] [createPost]).operations .query =
        .ok [listPosts, getPost] ∧
      (postSchema [listPosts, getPost] [createPost]).operations .mutation = .ok [createPost] ∧
      (([listPosts, getPost] ++ [createPost]).map OperationDeclaration.name).Nodup ∧
      ∃ after, (Session.classify (postSchema [listPosts, getPost] [createPost])).execute
          ⟨postGraph, []⟩ = (.ok (), after) ∧
        ∀ model ∈ after.graph.models, model.functionNames.Nodup := by
  have hnodup : (([listPosts, getPost] ++ [createPost]).map OperationDeclaration.name).Nodup := by
    decide
  have hqueries : (postSchema [listPosts, getPost] [createPost]).operations .query =
      .ok [listPosts, getPost] := rfl
  obtain ⟨after, hrun, hlength, hiff⟩ :=
    Session.nodup_functionNames_iff hqueries rfl hnodup ⟨postGraph, []⟩
  refine ⟨hqueries, rfl, hnodup, after, hrun, fun model hm => ?_⟩
  obtain ⟨place, hplace⟩ := List.mem_iff_getElem?.1 hm
  obtain ⟨hlt, -⟩ := List.getElem?_eq_some_iff.1 hplace
  obtain rfl : place = 0 := by
    have hone : after.graph.models.length = 1 := hlength
    omega
  refine (hiff 0 _ model rfl hplace).2 (Session.callsApart_of_listNames ?_ ?_)
  · decide
  · decide

/-- The function that iterates over the listed posts is called like another query of the model. -/
theorem not_nodup_functionNames_iteratePosts :
    ModelGraph.build (postSchema [listPosts, iteratePosts] []) [] [⟨"Post", []⟩] [] =
        .ok postGraph ∧
      (([listPosts, iteratePosts] ++ []).map OperationDeclaration.name).Nodup ∧
      ∃ after, (Session.classify (postSchema [listPosts, iteratePosts] [])).execute
          ⟨postGraph, []⟩ = (.ok (), after) ∧
        ∃ model ∈ after.graph.models, ¬ model.functionNames.Nodup :=
  ⟨build_postGraph _ _, by decide, _, rfl, _, List.mem_cons_self, by decide⟩

end SchemaAccess
