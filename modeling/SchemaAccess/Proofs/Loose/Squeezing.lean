import SchemaAccess.Loose.View
import SchemaAccess.Proofs.Loose.Search
import SchemaAccess.Proofs.Text.Squeeze

/-!
# White space in a cleaned text does not matter

A cleaned text is searched for fields, parameters and blocks.  Every recogniser finds the same at
the front of a squeezed text, with its parts and the rest squeezed, and so does every search.  What
is declared depends on the parts only through names, types and pieces, which squeezing keeps.

* `name?_squeeze`, `field?_squeeze`, `param?_squeeze`, `block?_squeeze` — the recognisers.
* `occurrences_squeeze`, `blocks_squeeze` — the searches.
* `models_squeeze` and its siblings — the declarations.
* `view_eq_of_squeeze` — texts that are cleaned to the same up to white space declare the same.
-/

namespace SchemaAccess.Loose

open Text

/-! ## Leaves

Names and types have no white space in them, so squeezing leaves them alone and squeezes what
follows.  An argument list may have some, and is squeezed itself.  Each law is a map over the
answer: what is recognised, and the rest. -/

/-- White space is no brace, so a header or a body goes on through it. -/
theorem isPlain_of_isBlank {c : Char} (h : isBlank c = true) : isPlain c = true := by
  have h₁ : c ≠ '\x7b' := ne_of_class h (by decide)
  have h₂ : c ≠ '\x7d' := ne_of_class h (by decide)
  simp [isPlain, h₁, h₂]

/-- A name at the front is the same, since there is no white space in it.  White space at the front
stays white space, with which no name begins. -/
theorem name?_squeeze (s : List Char) :
    name? (squeeze s) = (name? s).map (Prod.map id squeeze) := by
  cases s with
  | nil => rfl
  | cons c s =>
    cases hc : isBlank c with
    | true =>
      rw [squeeze_cons_of_blank hc, name?_eq_none (by decide),
        name?_eq_none (isNameStart_of_isBlank hc)]
      rfl
    | false =>
      rw [squeeze_cons_of_not_blank hc, name?, name?,
        takeWhile_squeeze_of_apart fun _ => isNameChar_of_isBlank,
        dropWhile_squeeze_of_apart fun _ => isNameChar_of_isBlank]
      split <;> rfl

theorem type?_squeeze (s : List Char) :
    type? (squeeze s) = (type? s).map (Prod.map id squeeze) := by
  rw [type?, type?, takeWhile_squeeze_of_apart fun _ => isTypeChar_of_isBlank,
    dropWhile_squeeze_of_apart fun _ => isTypeChar_of_isBlank]
  split <;> rfl

/-- A squeezed text begins with the same character of its own as the text, or neither does. -/
theorem front_squeeze {x : Char} (hx : isBlank x = false) (s : List Char) :
    (∃ rest, s = x :: rest ∧ squeeze s = x :: squeeze rest) ∨
      s.head? ≠ some x ∧ (squeeze s).head? ≠ some x := by
  cases s with
  | nil => exact .inr ⟨by simp, by simp [squeeze]⟩
  | cons c s =>
    by_cases h : c = x
    · subst h
      exact .inl ⟨s, rfl, squeeze_cons_of_not_blank hx s⟩
    · refine .inr ⟨by simpa using h, ?_⟩
      cases hc : isBlank c with
      | true =>
        rw [squeeze_cons_of_blank hc, List.head?_cons, ne_eq, Option.some.injEq]
        exact ne_of_class (p := isBlank) (by decide) hx
      | false =>
        rw [squeeze_cons_of_not_blank hc, List.head?_cons, ne_eq, Option.some.injEq]
        exact h

/-- A colon and a type are found alike, since the white space around the colon is passed over, one
character or many. -/
theorem typed?_squeeze (s : List Char) :
    typed? (squeeze s) = (typed? s).map (Prod.map id squeeze) := by
  rcases front_squeeze (show isBlank ':' = false by decide) (s.dropWhile isBlank) with
    ⟨rest, hs, hsq⟩ | ⟨hs, hsq⟩
  · rw [typed?, typed?, dropWhile_isBlank_squeeze, hsq, hs]
    simp only
    rw [dropWhile_isBlank_squeeze, type?_squeeze]
  · rw [← dropWhile_isBlank_squeeze] at hsq
    rw [typed?_of_head hs, typed?_of_head hsq]
    rfl

/-- The class of what stands between parentheses holds white space. -/
theorem ne_closing_of_isBlank (c : Char) (h : isBlank c = true) : decide (c ≠ ')') = true :=
  decide_eq_true (ne_of_class h (by decide))

/-- An argument list is found alike, with what is in it squeezed. -/
theorem parenthesized?_squeeze (s : List Char) :
    parenthesized? (squeeze s) = (parenthesized? s).map (Prod.map squeeze squeeze) := by
  rcases front_squeeze (show isBlank '(' = false by decide) s with ⟨inner, rfl, hsq⟩ | ⟨hs, hsq⟩
  · rw [hsq, parenthesized?, parenthesized?, dropWhile_squeeze ne_closing_of_isBlank,
      takeWhile_squeeze ne_closing_of_isBlank]
    rcases front_squeeze (show isBlank ')' = false by decide) (inner.dropWhile (· ≠ ')')) with
      ⟨rest, hs, hsq⟩ | ⟨hs, hsq⟩
    · rw [hsq, hs]
      rfl
    · split
      · next h => rw [h] at hsq; exact absurd rfl hsq
      · split
        · next h => rw [h] at hs; exact absurd rfl hs
        · rfl
  · rw [parenthesized?_of_head hs, parenthesized?_of_head hsq]
    rfl

/-- White space at the front becomes one space, or stays none. -/
theorem takeWhile_isBlank_squeeze (s : List Char) :
    (squeeze s).takeWhile isBlank = squeeze (s.takeWhile isBlank) :=
  takeWhile_squeeze (fun _ h => h) s

theorem isBlank_of_mem_name {name : List Char} (h : IsName name) :
    ∀ c ∈ name, isBlank c = false := fun _ hc =>
  isBlank_of_isNameChar (isNameChar_of_mem h hc)

/-- A run of directives is found alike.  By induction on the run: what stands before an at sign is
squeezed, the name behind it stays. -/
theorem directiveRun_squeeze (s : List Char) :
    directiveRun (squeeze s) = Prod.map squeeze squeeze (directiveRun s) := by
  fun_induction directiveRun s with
  | case1 s rest hs name after hn more last hr ih =>
    have hdrop : (squeeze s).dropWhile isBlank = '@' :: squeeze rest := by
      rw [dropWhile_isBlank_squeeze, hs, squeeze_cons_of_not_blank (by decide)]
    have hname : name? (squeeze rest) = some (name, squeeze after) := by
      rw [name?_squeeze, hn]
      rfl
    have hrun : squeeze (s.takeWhile isBlank ++ '@' :: name ++ more) =
        squeeze (s.takeWhile isBlank) ++ '@' :: name ++ squeeze more := by
      have hstop : Stops isBlank ('@' :: (name ++ more)) := stops_cons (by decide) _
      rw [List.append_assoc, List.cons_append, squeeze_append _ hstop,
        squeeze_cons_of_not_blank (by decide),
        squeeze_append_of_forall (isBlank_of_mem_name (isName_of_name? hn)), List.append_assoc]
      rfl
    rw [directiveRun_of_name? hdrop hname, ih, hr, takeWhile_isBlank_squeeze,
      Prod.map_apply, Prod.map_apply, hrun]
  | case2 s rest hs hn =>
    have hdrop : (squeeze s).dropWhile isBlank = '@' :: squeeze rest := by
      rw [dropWhile_isBlank_squeeze, hs, squeeze_cons_of_not_blank (by decide)]
    rw [directiveRun_of_name?_eq_none hdrop (by rw [name?_squeeze, hn]; rfl)]
    rfl
  | case3 s hs =>
    rw [directiveRun_of_head]
    · rfl
    · rcases front_squeeze (show isBlank '@' = false by decide) (s.dropWhile isBlank) with
        ⟨rest, hrest, -⟩ | ⟨-, hsq⟩
      · exact absurd hrest (hs rest)
      · rw [dropWhile_isBlank_squeeze]
        exact hsq

/-! ## Fields and parameters

A field is squeezed part by part: of its parts only the argument list and the run of directives have
white space in them. -/

def Field.squeeze (field : Field) : Field where
  name := field.name
  arguments := field.arguments.map Text.squeeze
  type := field.type
  directives := Text.squeeze field.directives

/-- A parameter at the front is the same, for neither its name nor its type has white space in
it. -/
theorem param?_squeeze (s : List Char) :
    param? (squeeze s) = (param? s).map (Prod.map id squeeze) := by
  rw [param?, param?, name?_squeeze]
  cases name? s with
  | none => rfl
  | some found =>
    simp only [Option.map_some, bind, Option.bind_some, Prod.map, typed?_squeeze]
    cases typed? found.2 with
    | none => rfl
    | some type => rfl

/-- **A field at the front is found alike**, with its arguments and its directives squeezed. -/
theorem field?_squeeze (s : List Char) :
    field? (squeeze s) = (field? s).map (Prod.map Field.squeeze squeeze) := by
  rw [field?, field?, name?_squeeze]
  cases name? s with
  | none => rfl
  | some found =>
    simp only [Option.map_some, bind, Option.bind_some, Prod.map, dropWhile_isBlank_squeeze,
      parenthesized?_squeeze]
    cases parenthesized? (found.2.dropWhile isBlank) with
    | none =>
      simp only [Option.map_none, typed?_squeeze]
      cases typed? (found.2.dropWhile isBlank) with
      | none => rfl
      | some type =>
        simp only [Option.map_some, Option.bind_some, Prod.map, directiveRun_squeeze]
        rfl
    | some inside =>
      simp only [Option.map_some, Prod.map, typed?_squeeze]
      cases typed? inside.2 with
      | none => rfl
      | some type =>
        simp only [Option.map_some, Option.bind_some, Prod.map, directiveRun_squeeze]
        rfl

section Occurrences

variable {α : Type} {r : Recognizer α}

/-- A search passes over white space at the front, where nothing begins that begins with a name. -/
theorem occurrences_dropWhile (hr : r.IsNamed) (s : List Char) :
    occurrences r (s.dropWhile isBlank) = occurrences r s := by
  conv_rhs => rw [← List.takeWhile_append_dropWhile (p := isBlank) (l := s)]
  refine (occurrences_between hr fun c hc => ?_).symm
  exact isNameStart_of_isBlank (List.mem_takeWhile_imp hc)

/-- **A search finds the same in a squeezed text if the recogniser does.**  By induction on the
search.  Where nothing is recognised, the first character may be white space that goes together with
more of it; then what the squeezed text has lost is white space, and `occurrences_dropWhile` passes
over it. -/
theorem occurrences_squeeze {f : α → α} (hr : r.IsNamed)
    (h : ∀ s, r.recognize (squeeze s) = (r.recognize s).map (Prod.map f squeeze))
    (s : List Char) : occurrences r (squeeze s) = (occurrences r s).map f := by
  fun_induction occurrences r s with
  | case1 => rw [squeeze, occurrences]; rfl
  | case2 c cs a rest hfound ih =>
    have hsq : r.recognize (squeeze (c :: cs)) = some (f a, squeeze rest) := by
      rw [h, hfound]
      rfl
    rw [occurrences_of_some hsq, ih, List.map_cons]
  | case3 c cs hfound ih =>
    cases hc : isBlank c with
    | true =>
      rw [squeeze, if_pos hc, occurrences_of_none (hr.start (by decide) _),
        occurrences_dropWhile hr, ih]
    | false =>
      have hsq := h (c :: cs)
      rw [hfound, squeeze_cons_of_not_blank hc] at hsq
      rw [squeeze_cons_of_not_blank hc, occurrences_of_none hsq, ih]

end Occurrences

theorem fields_squeeze (body : List Char) :
    fields (squeeze body) = (fields body).map Field.squeeze :=
  occurrences_squeeze isNamed_field? field?_squeeze body

theorem params_squeeze (arguments : List Char) : params (squeeze arguments) = params arguments := by
  have := occurrences_squeeze isNamed_param? param?_squeeze arguments
  rwa [List.map_id] at this

/-! ## Blocks

A block is looked for in four steps: the keyword, the name behind white space, the header up to a
brace, and the body.  Each has its law, and `block?_squeeze` puts them together. -/

def Block.squeeze (block : Block) : Block where
  keyword := block.keyword
  name := block.name
  header := Text.squeeze block.header
  body := Text.squeeze block.body

theorem dropFront?_squeeze {front : List Char} (h : ∀ c ∈ front, isBlank c = false)
    (s : List Char) : dropFront? front (squeeze s) = (dropFront? front s).map squeeze := by
  induction front generalizing s with
  | nil => rfl
  | cons f fs ih =>
    rcases front_squeeze (h f List.mem_cons_self) s with ⟨rest, rfl, hsq⟩ | ⟨hs, hsq⟩
    · rw [hsq, dropFront?, dropFront?, if_pos rfl, if_pos rfl,
        ih fun c hc => h c (List.mem_cons_of_mem f hc)]
    · have hnone : ∀ t : List Char, t.head? ≠ some f → dropFront? (f :: fs) t = none := by
        intro t ht
        cases t with
        | nil => rfl
        | cons c t =>
          rw [dropFront?, if_neg]
          rintro rfl
          exact ht rfl
      rw [hnone _ hs, hnone _ hsq]
      rfl

theorem keyword?_squeeze (s : List Char) :
    keyword? (squeeze s) = (keyword? s).map (Prod.map id squeeze) := by
  rw [keyword?, keyword?, dropFront?_squeeze (forall_mem_eq_false (by decide)),
    dropFront?_squeeze (forall_mem_eq_false (by decide)),
    dropFront?_squeeze (forall_mem_eq_false (by decide)),
    dropFront?_squeeze (forall_mem_eq_false (by decide))]
  cases dropFront? "type".toList s with
  | some rest => rfl
  | none =>
    cases dropFront? "input".toList s with
    | some rest => rfl
    | none =>
      cases dropFront? "enum".toList s with
      | some rest => rfl
      | none => cases dropFront? "interface".toList s <;> rfl

/-- Without an opening brace at the front there is no body. -/
theorem braced?_of_head {s : List Char} (h : s.head? ≠ some '\x7b') : braced? s = none := by
  rw [braced?]
  rintro inner rfl
  exact h rfl

/-- A body in braces is found alike, squeezed between its braces. -/
theorem braced?_squeeze (s : List Char) :
    braced? (squeeze s) = (braced? s).map (Prod.map squeeze squeeze) := by
  rcases front_squeeze (show isBlank '\x7b' = false by decide) s with ⟨inner, rfl, hsq⟩ | ⟨hs, hsq⟩
  · rw [hsq, braced?, braced?, dropWhile_squeeze fun _ => isPlain_of_isBlank,
      takeWhile_squeeze fun _ => isPlain_of_isBlank]
    rcases front_squeeze (show isBlank '\x7d' = false by decide) (inner.dropWhile isPlain) with
      ⟨rest, hs, hsq⟩ | ⟨hs, hsq⟩
    · rw [hsq, hs]
      rfl
    · split
      · next h => rw [h] at hsq; exact absurd rfl hsq
      · split
        · next h => rw [h] at hs; exact absurd rfl hs
        · rfl
  · rw [braced?_of_head hs, braced?_of_head hsq]
    rfl

/-- White space and a name behind it are found alike: squeezing leaves white space where there is
some, and makes none where there is none. -/
theorem spacedName?_squeeze (s : List Char) :
    spacedName? (squeeze s) = (spacedName? s).map (Prod.map id squeeze) := by
  have hhead : (squeeze s).head?.any isBlank = s.head?.any isBlank := by
    cases s with
    | nil => rfl
    | cons c s =>
      cases hc : isBlank c with
      | true => rw [squeeze_cons_of_blank hc, List.head?_cons, List.head?_cons, Option.any_some,
          Option.any_some, hc]; rfl
      | false => rw [squeeze_cons_of_not_blank hc, List.head?_cons, List.head?_cons]
  rw [spacedName?, spacedName?, hhead, dropWhile_isBlank_squeeze, name?_squeeze]
  split <;> rfl

/-- **A block at the front is found alike**, with its header and its body squeezed. -/
theorem block?_squeeze (s : List Char) :
    block? (squeeze s) = (block? s).map (Prod.map Block.squeeze squeeze) := by
  rw [block?, block?, keyword?_squeeze]
  cases keyword? s with
  | none => rfl
  | some keyword =>
    simp only [Option.map_some, bind, Option.bind_some, Prod.map, spacedName?_squeeze]
    cases spacedName? keyword.2 with
    | none => rfl
    | some name =>
      simp only [Option.map_some, Option.bind_some, Prod.map, braced?_squeeze,
        dropWhile_squeeze fun _ => isPlain_of_isBlank,
        takeWhile_squeeze fun _ => isPlain_of_isBlank]
      cases braced? (name.2.dropWhile isPlain) with
      | none => rfl
      | some body => rfl

/-- A search for blocks passes over white space at the front. -/
theorem blocksFrom_dropWhile (s : List Char) :
    blocksFrom false (s.dropWhile isBlank) = blocksFrom false s := by
  conv_rhs => rw [← List.takeWhile_append_dropWhile (p := isBlank) (l := s)]
  refine (blocksFrom_between fun c hc => ?_).symm
  exact isWord_of_isBlank (List.mem_takeWhile_imp hc)

/-- **The search for blocks finds the same in a squeezed text.**  The induction is that of
`occurrences_squeeze`, but also keeps track of whether the search is inside a word, which white
space ends. -/
theorem blocksFrom_squeeze (inWord : Bool) (s : List Char) :
    blocksFrom inWord (squeeze s) = (blocksFrom inWord s).map Block.squeeze := by
  fun_induction blocksFrom inWord s with
  | case1 => rw [squeeze, blocksFrom]; rfl
  | case2 inWord c cs block rest hfound ih =>
    split at hfound
    · cases hfound
    · next hword =>
      have hsq : block? (squeeze (c :: cs)) = some (block.squeeze, squeeze rest) := by
        rw [block?_squeeze, hfound]
        rfl
      rw [Bool.not_eq_true] at hword
      rw [hword, blocksFrom_of_some hsq, ih, List.map_cons]
  | case3 inWord c cs hfound ih =>
    have hnone : inWord = true ∨ block? (c :: cs) = none := by
      split at hfound
      · next hword => exact .inl hword
      · exact .inr hfound
    cases hc : isBlank c with
    | true =>
      rw [isWord_of_isBlank hc] at ih
      rw [squeeze, if_pos hc, blocksFrom_of_none (.inr (block?_eq_none (by decide) _)),
        show isWord ' ' = false by decide, blocksFrom_dropWhile, ih, isWord_of_isBlank hc]
    | false =>
      have hsq : inWord = true ∨ block? (c :: squeeze cs) = none := by
        refine hnone.imp_right fun h => ?_
        rw [← squeeze_cons_of_not_blank hc, block?_squeeze, h]
        rfl
      rw [squeeze_cons_of_not_blank hc, blocksFrom_of_none hsq, ih]

theorem blocks_squeeze (s : List Char) : blocks (squeeze s) = (blocks s).map Block.squeeze :=
  blocksFrom_squeeze false s

/-! ## Declarations

What a block or a field declares depends on headers, bodies and directives only through their words
and pieces, and those stay.  With the searches above, every question to a text has the same answer
when the text is squeezed. -/

/-- A header has the same words, so it marks a model or does not. -/
theorem isModelHeader_squeeze (header : List Char) :
    isModelHeader (squeeze header) = isModelHeader header := by
  rw [isModelHeader, isModelHeader, words_squeeze]

/-- A run of directives has the same words, so it makes a relationship or does not. -/
theorem isRelationship_squeeze (directives : List Char) :
    isRelationship (squeeze directives) = isRelationship directives := by
  rw [isRelationship, isRelationship, words_squeeze]

/-- A squeezed block declares the same model, or none. -/
theorem modelOf_squeeze (block : Block) : modelOf block.squeeze = modelOf block := by
  have hfilter : ((fields block.body).map Field.squeeze).filter
      (fun field => isRelationship field.directives) =
        ((fields block.body).filter fun field => isRelationship field.directives).map
          Field.squeeze := by
    rw [List.filter_map]
    congr 2
    funext field
    exact isRelationship_squeeze field.directives
  rw [modelOf, Block.squeeze, fields_squeeze, hfilter, List.map_map]
  rfl

/-- A squeezed field declares the same operation: the same name and return type, and the same
parameters in order. -/
theorem operationOf_squeeze (field : Field) : operationOf field.squeeze = operationOf field := by
  rw [operationOf, operationOf, Field.squeeze]
  cases field.arguments with
  | none => rfl
  | some arguments => simp only [Option.map_some, params_squeeze]

/-- A squeezed body of an enumeration has the same values, which are its pieces between white space
and commas. -/
theorem enumValues_squeeze (body : List Char) : enumValues (squeeze body) = enumValues body := by
  rw [enumValues, enumValues, piecesWhere_squeeze]
  intro c hc
  rw [hc]
  rfl

theorem models_squeeze (text : List Char) : models (squeeze text) = models text := by
  rw [models, models, blocks_squeeze, List.filter_map, List.map_map]
  congr 1
  · funext block
    exact modelOf_squeeze block
  · congr 1
    funext block
    simp only [Function.comp_apply, Block.squeeze, isModelHeader_squeeze]
    rfl

theorem fieldsOf?_squeeze (text : List Char) (model : String) :
    fieldsOf? (squeeze text) model = fieldsOf? text model := by
  rw [fieldsOf?, fieldsOf?, blocks_squeeze, List.find?_map, Option.map_map]
  congr 1
  funext block
  simp only [Function.comp_apply, Block.squeeze, fields_squeeze, List.map_map]
  rfl

theorem operations_squeeze (text : List Char) (root : OperationRoot) :
    operations (squeeze text) root = operations text root := by
  rw [operations, operations, blocks_squeeze, List.filter_map, List.flatMap_map]
  congr 1
  funext block
  simp only [Block.squeeze, fields_squeeze, List.map_map]
  congr 1
  funext field
  exact operationOf_squeeze field

theorem inputs_squeeze (text : List Char) : inputs (squeeze text) = inputs text := by
  rw [inputs, inputs, blocks_squeeze, List.filter_map, List.map_map]
  congr 1
  funext block
  simp only [Function.comp_apply, Block.squeeze, fields_squeeze, List.map_map]
  rfl

theorem enums_squeeze (text : List Char) : enums (squeeze text) = enums text := by
  rw [enums, enums, blocks_squeeze, List.filter_map, List.map_map]
  congr 1
  funext block
  simp only [Function.comp_apply, Block.squeeze, enumValues_squeeze]

/-- **Schemas whose cleaned texts are the same up to white space declare the same.**  Every question
is put to a cleaned text, and by the laws above its answer only depends on the squeezed one. -/
theorem view_eq_of_squeeze {source source' build build' : String}
    (hs : squeeze (clean source.toList) = squeeze (clean source'.toList))
    (hb : squeeze (clean build.toList) = squeeze (clean build'.toList)) :
    view source build = view source' build' := by
  have hmodels : models (clean source.toList) = models (clean source'.toList) := by
    rw [← models_squeeze, hs, models_squeeze]
  have hfields : fieldsOf? (clean build.toList) = fieldsOf? (clean build'.toList) := by
    funext model
    rw [← fieldsOf?_squeeze, hb, fieldsOf?_squeeze]
  have hoperations : operations (clean build.toList) = operations (clean build'.toList) := by
    funext root
    rw [← operations_squeeze, hb, operations_squeeze]
  have hinputs : inputs (clean build.toList) = inputs (clean build'.toList) := by
    rw [← inputs_squeeze, hb, inputs_squeeze]
  have henums : enums (clean build.toList) = enums (clean build'.toList) := by
    rw [← enums_squeeze, hb, enums_squeeze]
  simp only [view, hmodels, hfields, hoperations, hinputs, henums]

end SchemaAccess.Loose
