import SchemaAccess.Proofs.Types.Pages

/-!
# The text of a type and its tree

Every question about a type is answered on its text.  For the spelling of a type reference the
answers are those of the tree, and a type that has been normalized once stays as it is, in whatever
way it was written.

* `TypeRef.element?`, `TypeRef.IsPage` — what is asked of the tree.
* `AgreesWithTree` — what is answered on the spelling of a tree.
* `normalize_normalize`, `isConnection_iff_normalize_ne` — what normalizing does to any text.
* `agrees_and_normalizes` — both.
-/

namespace SchemaAccess

open Text

namespace TypeRef

/-- The element of a list. -/
def element? : TypeRef → Option TypeRef
  | named _ _ => none
  | list element _ => some element

/-- The type is the page type of a model, required or not.  The name of the model is a word. -/
def IsPage (model : String) (t : TypeRef) : Prop :=
  t.unmarked = page model ∧ model ≠ "" ∧ ∀ c ∈ model.toList, isNameChar c = true

end TypeRef

namespace TypeText

/-! ## Type references -/

variable {t : TypeRef}

/-- The text of a type gives the answers of the tree. -/
structure AgreesWithTree (t : TypeRef) : Prop where
  baseName : TypeText.baseName t.print = t.baseName
  unmarked : TypeText.unmarked t.print = t.unmarked.print
  element : TypeText.element? t.print = t.element?.map fun inner => (inner.withRequired false).print
  isConnection : TypeText.isConnection t.print = true ↔ ∃ model, t.IsPage model
  normalizePage : ∀ model, t.IsPage model → normalize t.print = "[" ++ model ++ "]"
  normalizeOther : (¬ ∃ model, t.IsPage model) → normalize t.print = t.print

/-- The model of a page type is found in the text. -/
theorem connectionModel?_chars_iff_isPage (h : IsName t.baseName.toList) {model : String} :
    connectionModel? t.chars = some model.toList ↔ t.IsPage model := by
  rw [connectionModel?_chars_eq_some_iff h, String.ofList_toList, TypeRef.IsPage]
  refine and_congr_right fun hpage => ?_
  have hbase : (TypeRef.page model).baseName = t.baseName := hpage ▸ t.baseName_unmarked
  have hname : IsName ("Model" ++ model ++ "Connection").toList := by
    rw [← hbase] at h
    exact h
  have hword : ∀ c ∈ model.toList, isNameChar c = true := fun c hc =>
    Loose.isNameChar_of_mem hname (by simp [hc])
  rw [and_iff_left hword, ne_eq, ne_eq, ← String.toList_eq_nil_iff]

/-- A tree is a page type of some model exactly if its text is told to be one. -/
theorem exists_isPage_iff (h : IsName t.baseName.toList) :
    (∃ model, t.IsPage model) ↔ ∃ model, connectionModel? t.chars = some model := by
  constructor
  · rintro ⟨model, hmodel⟩
    exact ⟨model.toList, (connectionModel?_chars_iff_isPage h).2 hmodel⟩
  · rintro ⟨model, hmodel⟩
    refine ⟨String.ofList model, (connectionModel?_chars_iff_isPage h).1 ?_⟩
    rwa [String.toList_ofList]

/-- **All questions about a spelled type have the answer of its tree.** -/
theorem agreesWithTree (h : IsName t.baseName.toList) : AgreesWithTree t where
  baseName := baseName_print h
  unmarked := unmarked_print h
  element := by
    rw [element?_print h]
    cases t <;> rfl
  isConnection := by
    rw [isConnection, TypeRef.chars_print, trim_chars h, Option.isSome_iff_exists,
      exists_isPage_iff h]
  normalizePage model hmodel := by
    rw [normalize, TypeRef.chars_print, trim_chars h,
      (connectionModel?_chars_iff_isPage h).2 hmodel,
      ← String.toList_inj]
    simp
  normalizeOther hother := by
    have hnone : connectionModel? t.chars = none :=
      Option.eq_none_iff_forall_ne_some.2 fun model hmodel =>
        hother ((exists_isPage_iff h).2 ⟨model, hmodel⟩)
    rw [normalize, TypeRef.chars_print, trim_chars h, hnone, TypeRef.print]

/-! ## Any text -/

theorem isNameChar_of_connectionModel? {s model : List Char} (h : connectionModel? s = some model) :
    ∀ c ∈ model, isNameChar c = true := by
  simp only [connectionModel?, bind, Option.bind_eq_some_iff, Option.ite_none_right_eq_some,
    Option.some.injEq] at h
  obtain ⟨_, _, _, _, ⟨_, hword⟩, rfl⟩ := h
  exact List.all_eq_true.1 hword

/-- A page type begins with a letter. -/
theorem head?_of_connectionModel? {s model : List Char} (h : connectionModel? s = some model) :
    s.head? ≠ some '[' := by
  intro hhead
  cases s with
  | nil => cases hhead
  | cons c s =>
    obtain rfl := Option.some.inj hhead
    rw [connectionModel?_bracket] at h
    cases h

/-- A list of a word is not changed by normalizing. -/
theorem normalize_bracketed {model : List Char} (h : ∀ c ∈ model, isNameChar c = true) :
    normalize (String.ofList ('[' :: model ++ [']'])) = String.ofList ('[' :: model ++ [']']) := by
  have hnone : connectionModel? ('[' :: model ++ [']']) = none :=
    connectionModel?_bracket (model ++ [']'])
  rw [normalize, String.toList_ofList, trim_bracketed h, hnone]

/-- Normalizing is done once. -/
theorem normalize_normalize (raw : String) : normalize (normalize raw) = normalize raw := by
  cases hmodel : connectionModel? (trim raw.toList) with
  | some model =>
    have hlist : normalize raw = String.ofList ('[' :: model ++ [']']) := by rw [normalize, hmodel]
    rw [hlist, normalize_bracketed (isNameChar_of_connectionModel? hmodel)]
  | none =>
    have htrim : normalize raw = String.ofList (trim raw.toList) := by rw [normalize, hmodel]
    rw [htrim, normalize, String.toList_ofList, trim_trim, hmodel]

/-- The page types are what normalizing does more to than trim it. -/
theorem isConnection_iff_normalize_ne (raw : String) :
    isConnection raw = true ↔ normalize raw ≠ String.ofList (trim raw.toList) := by
  rw [isConnection, normalize]
  cases hmodel : connectionModel? (trim raw.toList) with
  | some model =>
    refine iff_of_true rfl fun heq => head?_of_connectionModel? hmodel ?_
    rw [← String.ofList_injective heq]
    rfl
  | none => exact iff_of_false (by decide) fun hne => hne rfl

/-- What is answered on the spelling of a type is what the tree says, and normalizing settles every
text at once, changing the page types only. -/
theorem agrees_and_normalizes :
    (∀ t : TypeRef, IsName t.baseName.toList → AgreesWithTree t) ∧
    (∀ raw, normalize (normalize raw) = normalize raw) ∧
    ∀ raw, isConnection raw = true ↔ normalize raw ≠ String.ofList (trim raw.toList) :=
  ⟨fun _ => agreesWithTree, normalize_normalize, isConnection_iff_normalize_ne⟩

/-- A required list of lists of pages. -/
def pageGrid : TypeRef := .list (.list (.named "ModelPostConnection" true) false) true

theorem agrees_and_normalizes_pageGrid :
    IsName pageGrid.baseName.toList ∧ AgreesWithTree pageGrid :=
  have hname : IsName pageGrid.baseName.toList := by decide
  ⟨hname, agrees_and_normalizes.1 pageGrid hname⟩

end TypeText

end SchemaAccess
