import SchemaAccess.Model.Session
import SchemaAccess.Proofs.Graph.KnownFields
import SchemaAccess.Proofs.Table.Entries
import SchemaAccess.Proofs.Text.Classes

/-!
# The model that a return type belongs to

Each model claims three return types, and where two models claim the same one the first has it.
Whether that happens is a matter of the names.  If it does not, the owner of a return type does not
depend on the order of the models, nor on models that have nothing to do with it.

* `ModelGraph.NamesApart` — distinct names, none of which is the page type of another one.
* `nodup_returns` — models with such names claim no return type twice.
* `owner?_filter` — in a part of such models a return type has the same owner or none.
-/

namespace SchemaAccess

/-! ## Names that are apart -/

/-- The models have distinct names, and none has the name of the page type of another one. -/
structure ModelGraph.NamesApart (g : ModelGraph) : Prop where
  nodup : (g.models.map Model.name).Nodup
  hasNames : g.HasNames
  pages : ∀ model ∈ g.models, ∀ other ∈ g.models,
    model.name ≠ "Model" ++ other.name ++ "Connection"

/-- Whether the names of models are apart depends on the names alone. -/
theorem ModelGraph.NamesApart.of_perm {g : ModelGraph} {names : List String}
    (hperm : (g.models.map Model.name).Perm names) (hnodup : names.Nodup)
    (hnames : ∀ name ∈ names, Text.IsName name.toList)
    (hpages : ∀ name ∈ names, ∀ other ∈ names, name ≠ "Model" ++ other ++ "Connection") :
    g.NamesApart where
  nodup := hperm.nodup_iff.2 hnodup
  hasNames _ hm := hnames _ (hperm.mem_iff.1 (List.mem_map_of_mem hm))
  pages _ hm _ ho := hpages _ (hperm.mem_iff.1 (List.mem_map_of_mem hm)) _
    (hperm.mem_iff.1 (List.mem_map_of_mem ho))

namespace Session

/-- The return types that a model claims. -/
def returns (model : String) : List String :=
  [model, "Model" ++ model ++ "Connection", "[" ++ model ++ "]"]

/-- A name is not a list of anything. -/
theorem ne_bracketed {name : String} (h : Text.IsName name.toList) (other : String) :
    name ≠ "[" ++ other ++ "]" := by
  rintro rfl
  have hbracket : '[' ∈ ("[" ++ other ++ "]").toList := by simp
  exact absurd (Loose.isNameChar_of_mem h hbracket) (by decide)

theorem page_ne_bracketed (model other : String) :
    "Model" ++ model ++ "Connection" ≠ "[" ++ other ++ "]" := by
  intro h
  have := congrArg (fun s => s.toList.head?) h
  simp at this

theorem page_inj {model other : String}
    (h : "Model" ++ model ++ "Connection" = "Model" ++ other ++ "Connection") : model = other := by
  rwa [String.append_left_inj, String.append_right_inj] at h

/-- Lists of different models are different return types. -/
theorem bracketed_inj {model other : String} (h : "[" ++ model ++ "]" = "[" ++ other ++ "]") :
    model = other := by
  rwa [String.append_left_inj, String.append_right_inj] at h

/-- A model claims no return type twice. -/
theorem nodup_returns {model : String} (h : Text.IsName model.toList) : (returns model).Nodup := by
  have hpage : model ≠ "Model" ++ model ++ "Connection" := fun heq => by
    have hlength : ("Model" ++ model ++ "Connection").length = 5 + model.length + 10 := by
      rw [String.length_append, String.length_append]
      rfl
    rw [← heq] at hlength
    omega
  simp only [returns, List.nodup_cons, List.mem_cons, List.not_mem_nil, or_false, not_or,
    not_false_eq_true, List.nodup_nil, and_true]
  exact ⟨⟨hpage, ne_bracketed h model⟩, page_ne_bracketed model model⟩

/-- Two models whose names are apart claim no return type both. -/
theorem disjoint_returns {model other : String} (hm : Text.IsName model.toList)
    (ho : Text.IsName other.toList) (hne : model ≠ other)
    (hmo : model ≠ "Model" ++ other ++ "Connection")
    (hom : other ≠ "Model" ++ model ++ "Connection") :
    (returns model).Disjoint (returns other) := by
  intro type htype hother
  simp only [returns, List.mem_cons, List.not_mem_nil, or_false] at htype hother
  rcases htype with rfl | rfl | rfl
  · exact hother.elim hne (Or.rec hmo (ne_bracketed hm other))
  · rcases hother with h | h | h
    · exact hom h.symm
    · exact hne (page_inj h)
    · exact page_ne_bracketed model other h
  · rcases hother with h | h | h
    · exact ne_bracketed ho model h.symm
    · exact page_ne_bracketed other model h.symm
    · exact hne (bracketed_inj h)

/-- Models whose names are apart claim no return type twice. -/
theorem nodup_keys_returnTypes {g : ModelGraph} (h : g.NamesApart) :
    (Entries.keys (g.models.flatMap fun model => returnTypes model.name)).Nodup := by
  rw [Entries.keys, List.map_flatMap]
  refine List.nodup_flatMap.2 ⟨fun model hm => nodup_returns (h.hasNames model hm), ?_⟩
  have hapart : g.models.Pairwise fun model other => model.name ≠ other.name :=
    List.pairwise_map.1 h.nodup
  refine hapart.imp_of_mem fun {model other} hm ho hne => ?_
  exact disjoint_returns (h.hasNames model hm) (h.hasNames other ho) hne
    (h.pages model hm other ho) (h.pages other ho model hm)

/-- The models in a part claim what is claimed in their names. -/
theorem flatMap_returnTypes_filter (p : String → Bool) (models : List Model) :
    (models.filter fun model => p model.name).flatMap (fun model => returnTypes model.name) =
      (models.flatMap fun model => returnTypes model.name).filter fun entry => p entry.2.1 := by
  induction models with
  | nil => rfl
  | cons model models ih =>
    have hown : (returnTypes model.name).filter (fun entry => p entry.2.1) =
        if p model.name then returnTypes model.name else [] := by
      cases hp : p model.name <;> simp [returnTypes, hp]
    rw [List.flatMap_cons, List.filter_append, hown, ← ih, List.filter_cons]
    split
    · rw [List.flatMap_cons]
    · rw [List.nil_append]

/-- In a part of models whose names are apart a return type has the same owner, or none if that
model is not in the part. -/
theorem owner?_filter {full part : ModelGraph} (h : full.NamesApart) (p : String → Bool)
    (hpart : part.models = full.models.filter fun model => p model.name) (type : String) :
    owner? part type = (owner? full type).filter fun owner => p owner.1 := by
  rw [owner?, owner?, hpart, flatMap_returnTypes_filter]
  exact Entries.get?_filter (fun owner => p owner.1) type (nodup_keys_returnTypes h)

end Session

end SchemaAccess
