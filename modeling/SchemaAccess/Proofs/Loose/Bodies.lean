import SchemaAccess.Proofs.Loose.Found
import SchemaAccess.Proofs.Loose.Places
import SchemaAccess.Proofs.Loose.Squeezing

/-!
# Schemas that differ between two braces

Braces without braces between them are the body of one block or of none.  Whatever stands between
them instead, as long as it has no braces, the search finds the same other blocks, and in this block
the other body.  So schemas that differ between such braces declare the same if the two bodies do.

* `squeeze_clean_append` — what stands outside of strings and argument lists is cleaned piece by
  piece, up to white space.
* `exists_blocks_body` — the blocks of a text, for all bodies between two of its braces.
* `Field.told` — what is asked of a field of the build schema.
* `models_body`, `sameBuild_body` — declarations of texts that differ in one body.
* `view_eq_of_sameBuild` — schemas that are cleaned to such texts, up to white space.
* `Cut` — a schema that is cut in two between two braces; `Cut.view_build`, `Cut.view_source` — what
  may be put between the parts.
-/

namespace SchemaAccess.Loose

open Text

/-- Behind a text that leaves nothing open, cleaning starts anew. -/
theorem squeeze_clean_append {before : List Char} (h : Place.text.after before = .text)
    (s : List Char) : squeeze (clean (before ++ s)) = squeeze (clean before ++ clean s) := by
  rw [squeeze_clean, Place.output_append, h,
    squeeze_append_congr_left (squeeze_clean before) (clean s)]
  exact squeeze_append_congr _ (squeeze_clean s).symm

/-! ## First braces -/

section Braces

variable {front body other rest after : List Char} {block : Block}

/-- Texts that go on with a brace behind their first characters have the same first brace. -/
theorem eq_of_plain_append {s t : List Char} {c d : Char} (hs : ∀ e ∈ s, isPlain e = true)
    (ht : ∀ e ∈ t, isPlain e = true) (hc : isPlain c = false) (hd : isPlain d = false)
    (h : s ++ c :: rest = t ++ d :: after) : s = t ∧ c = d ∧ rest = after := by
  have htake := congrArg (List.takeWhile isPlain) h
  have hdrop := congrArg (List.dropWhile isPlain) h
  rw [takeWhile_append_of_stops hs (stops_cons hc rest),
    takeWhile_append_of_stops ht (stops_cons hd after)] at htake
  rw [dropWhile_append_of_stops hs (stops_cons hc rest),
    dropWhile_append_of_stops ht (stops_cons hd after), List.cons.injEq] at hdrop
  exact ⟨htake, hdrop⟩

theorem isPlain_eq_false_iff {c : Char} : isPlain c = false ↔ c = '\x7b' ∨ c = '\x7d' := by
  rw [isPlain, Bool.and_eq_false_iff, bne_eq_false_iff_eq, bne_eq_false_iff_eq]

theorem isPlain_opening : isPlain '\x7b' = false := by decide

theorem not_mem_of_isPlain {s : List Char} (h : ∀ c ∈ s, isPlain c = true) {c : Char}
    (hc : isPlain c = false) : c ∉ s := fun hmem => ne_of_class (h c hmem) hc rfl

/-- In a text with an opening brace and no closing one before it, the first brace opens. -/
theorem exists_dropWhile_opening (h : '\x7d' ∉ front) (rest : List Char) :
    ∃ more, (front ++ '\x7b' :: rest).dropWhile isPlain = '\x7b' :: more := by
  induction front with
  | nil => exact ⟨rest, rfl⟩
  | cons c front ih =>
    rw [List.mem_cons, not_or] at h
    cases hc : isPlain c with
    | true =>
      rw [List.cons_append, List.dropWhile_cons_of_pos hc]
      exact ih h.2
    | false =>
      rw [List.cons_append, List.dropWhile_cons_of_neg (by simp [hc])]
      rcases isPlain_eq_false_iff.1 hc with rfl | rfl
      · exact ⟨_, rfl⟩
      · exact absurd rfl h.1

theorem isPlain_of_isNameChar {c : Char} (h : isNameChar c = true) : isPlain c = true := by
  rw [isPlain, Bool.and_eq_true, bne_iff_ne, bne_iff_ne]
  exact ⟨ne_of_class h (by decide), ne_of_class h (by decide)⟩

/-- Before the body of a block are its keyword, its name and its header, without braces. -/
theorem heading_of_block? {s : List Char} (h : block? s = some (block, after)) :
    ∃ blank, blank ≠ [] ∧ (∀ c ∈ blank, isBlank c = true) ∧ IsName block.name ∧
      (∀ c ∈ keywordText block.keyword ++ (blank ++ (block.name ++ block.header)),
        isPlain c = true) ∧
      (∀ c ∈ block.body, isPlain c = true) ∧
      (keywordText block.keyword ++ (blank ++ (block.name ++ block.header))) ++
        '\x7b' :: (block.body ++ '\x7d' :: after) = s := by
  obtain ⟨blank, hne, hblank, hname, hheader, hbody, htext⟩ := append_of_block? h
  refine ⟨blank, hne, hblank, hname, fun c hc => ?_, hbody, by rw [← htext]; simp⟩
  simp only [List.mem_append] at hc
  rcases hc with hc | hc | hc | hc
  · exact isPlain_of_isNameChar (isNameChar_of_mem (isName_keyword _) hc)
  · exact isPlain_of_isBlank (hblank c hc)
  · exact isPlain_of_isNameChar (isNameChar_of_mem hname hc)
  · exact hheader c hc

/-! ## A block with another body -/

def Block.holding (block : Block) (body : List Char) : Block := { block with body }

/-- A block that goes on up to braces without braces between them has these for its body, and any
other body in its place. -/
theorem block?_holding (hfront : '\x7d' ∉ front)
    (hother : ∀ c ∈ other, isPlain c = true)
    (h : block? (front ++ '\x7b' :: (body ++ '\x7d' :: rest)) = some (block, after)) :
    block? (front ++ '\x7b' :: (other ++ '\x7d' :: rest)) = some (block.holding other, rest) := by
  obtain ⟨blank, hne, hblank, hname, hhead, hfound, htext⟩ := heading_of_block? h
  have hstop := stops_of_block? h
  -- If a brace stood before these, two opening ones would stand before the first closing one.
  have hplain : ∀ c ∈ front, isPlain c = true := by
    by_contra hbrace
    have hdrop := congrArg (List.dropWhile isPlain) htext
    have hne : front.dropWhile isPlain ≠ [] := fun hnil =>
      hbrace (List.dropWhile_eq_nil_iff.1 hnil)
    obtain ⟨c, more, hmore⟩ := List.exists_cons_of_ne_nil hne
    have hmem : '\x7d' ∉ more := fun hc => hfront <|
      (List.dropWhile_suffix isPlain).subset (hmore ▸ List.mem_cons_of_mem c hc)
    rw [dropWhile_append_of_stops hhead (stops_cons (by decide) _), List.dropWhile_append, hmore,
      List.isEmpty_cons, if_neg Bool.false_ne_true, List.cons_append, List.cons.injEq] at hdrop
    obtain ⟨last, hlast⟩ := exists_dropWhile_opening hmem (body ++ '\x7d' :: rest)
    rw [← hdrop.2, dropWhile_append_of_stops hfound (stops_cons (by decide) _)] at hlast
    exact absurd (List.cons.inj hlast).1 (by decide)
  obtain ⟨rfl, -, -⟩ := eq_of_plain_append hhead hplain (by decide) (by decide) htext
  have hstop' : Stops isNameChar (block.header ++ '\x7b' :: (other ++ '\x7d' :: rest)) := by
    intro c hc
    refine hstop c ?_
    rw [List.head?_append] at hc ⊢
    exact hc
  have hheader : ∀ c ∈ block.header, isPlain c = true := fun c hc =>
    hplain c (by simp only [List.mem_append]; exact .inr (.inr (.inr hc)))
  have hblock :=
    block?_append (keyword?_append block.keyword) hne hblank hname hstop' hheader hother
  simpa [Block.holding] using hblock

theorem blocksFrom_eq_nil {inWord : Bool} {s : List Char} (h : '\x7b' ∉ s) :
    blocksFrom inWord s = [] := by
  refine List.eq_nil_iff_forall_not_mem.2 fun block hblock => h ?_
  obtain ⟨before, found, rest, rfl, hfound⟩ := exists_of_mem_blocksFrom hblock
  obtain ⟨blank, -, -, -, -, -, rfl⟩ := append_of_block? hfound
  simp

/-- Where no closing brace stands before them, two braces are all that a search finds, if
anything. -/
theorem exists_blocksFrom_opening (hfront : '\x7d' ∉ front) (inWord : Bool) :
    ∃ holder : Option Block, ∀ body, (∀ c ∈ body, isPlain c = true) →
      blocksFrom inWord (front ++ '\x7b' :: (body ++ ['\x7d'])) =
        (holder.map (·.holding body)).toList := by
  induction front generalizing inWord with
  | nil =>
    refine ⟨none, fun body hbody => ?_⟩
    rw [List.nil_append, blocksFrom_of_none (.inr (block?_eq_none (by decide) _))]
    refine blocksFrom_eq_nil ?_
    rw [List.mem_append, not_or]
    exact ⟨not_mem_of_isPlain hbody (by decide), by decide⟩
  | cons c front ih =>
    have hmore : '\x7d' ∉ front := fun h => hfront (List.mem_cons_of_mem c h)
    by_cases hnone : inWord = true ∨ block? (c :: front ++ '\x7b' :: ([] ++ ['\x7d'])) = none
    · obtain ⟨holder, hholder⟩ := ih hmore (isWord c)
      refine ⟨holder, fun body hbody => ?_⟩
      rw [List.cons_append, blocksFrom_of_none, hholder body hbody]
      refine hnone.imp_right fun h => ?_
      refine Option.eq_none_iff_forall_ne_some.2 fun (block, after) hblock => ?_
      rw [block?_holding hfront (by simp) hblock] at h
      cases h
    · rw [not_or, Bool.not_eq_true] at hnone
      obtain ⟨rfl, hsome⟩ := hnone
      obtain ⟨⟨block, after⟩, hblock⟩ := Option.ne_none_iff_exists'.1 hsome
      refine ⟨some block, fun body hbody => ?_⟩
      rw [blocksFrom_of_some (block?_holding hfront hbody hblock), blocksFrom.eq_1]
      rfl

theorem blocks_closing (hbody : ∀ c ∈ body, isPlain c = true) :
    blocks (body ++ '\x7d' :: rest) = blocks rest := by
  have hnone : blocksFrom false (body ++ ['\x7d']) = [] := by
    refine blocksFrom_eq_nil ?_
    rw [List.mem_append, not_or]
    exact ⟨not_mem_of_isPlain hbody (by decide), by decide⟩
  rw [blocks, blocksFrom_append_closing, hnone, List.nil_append]

/-- What stands between two closing braces is the body of no block. -/
theorem blocks_between (hbody : ∀ c ∈ body, isPlain c = true) :
    blocks (front ++ '\x7d' :: (body ++ '\x7d' :: rest)) =
      blocks (front ++ ['\x7d']) ++ blocks rest := by
  rw [blocks, blocksFrom_append_closing, blocks_closing hbody]
  rfl

/-- Whatever stands between two braces, a search finds the same before them and behind them, and
between them the body of the same block or of none. -/
theorem exists_blocks_body (front rest : List Char) :
    ∃ (found : List Block) (holder : Option Block), ∀ body, (∀ c ∈ body, isPlain c = true) →
      blocks (front ++ '\x7b' :: (body ++ '\x7d' :: rest)) =
        found ++ ((holder.map (·.holding body)).toList ++ blocks rest) := by
  have hopening : ∀ more : List Char, '\x7d' ∉ more → ∃ holder : Option Block,
      ∀ body, (∀ c ∈ body, isPlain c = true) →
        blocks (more ++ '\x7b' :: (body ++ '\x7d' :: rest)) =
          (holder.map (·.holding body)).toList ++ blocks rest := by
    intro more hmore
    obtain ⟨holder, hholder⟩ := exists_blocksFrom_opening hmore false
    refine ⟨holder, fun body hbody => ?_⟩
    have htext : more ++ '\x7b' :: (body ++ '\x7d' :: rest) =
        (more ++ '\x7b' :: body) ++ '\x7d' :: rest := by simp
    have hshort : (more ++ '\x7b' :: body) ++ ['\x7d'] = more ++ '\x7b' :: (body ++ ['\x7d']) := by
      simp
    rw [htext, blocks, blocksFrom_append_closing, hshort, hholder body hbody]
  by_cases hclosing : '\x7d' ∈ front
  · obtain ⟨more, earlier, hsplit, hmore⟩ :=
      List.eq_append_cons_of_mem (List.mem_reverse.2 hclosing)
    have hfront : front = earlier.reverse ++ '\x7d' :: more.reverse := by
      rw [← List.reverse_reverse front, hsplit]
      simp
    obtain ⟨holder, hholder⟩ := hopening more.reverse (by simpa using hmore)
    refine ⟨blocksFrom false (earlier.reverse ++ ['\x7d']), holder, fun body hbody => ?_⟩
    rw [hfront, List.append_assoc, List.cons_append, blocks, blocksFrom_append_closing,
      hholder body hbody]
  · obtain ⟨holder, hholder⟩ := hopening front hclosing
    exact ⟨[], holder, hholder⟩

end Braces

/-! ## Declarations of texts that differ in one body -/

/-- The name, the parameters and the type of a field. -/
def Field.told (field : Field) : List Char × Option (List (List Char × List Char)) × List Char :=
  (field.name, field.arguments.map Loose.params, field.type)

/-- The name of a field, and whether it is a relationship. -/
def Field.marked (field : Field) : List Char × Bool :=
  (field.name, isRelationship field.directives)

/-- Two cleaned build schemas declare the same. -/
structure SameBuild (text other : List Char) : Prop where
  fields : fieldsOf? text = fieldsOf? other
  operations : operations text = operations other
  inputs : inputs text = inputs other
  enums : enums text = enums other

/-- Texts with the same blocks declare the same. -/
theorem SameBuild.of_blocks {text other : List Char} (h : blocks text = blocks other) :
    SameBuild text other where
  fields := by
    funext model
    rw [fieldsOf?, fieldsOf?, h]
  operations := by
    funext root
    rw [Loose.operations, Loose.operations, h]
  inputs := by rw [Loose.inputs, Loose.inputs, h]
  enums := by rw [Loose.enums, Loose.enums, h]

section Declarations

variable {front body other probe rest : List Char}

/-- What is taken from the blocks of a class, if the class does not depend on bodies.  The block
between the braces is known by what any body between them makes of it. -/
theorem flatMap_filter_body {α : Type} (hbody : ∀ c ∈ body, isPlain c = true)
    (hother : ∀ c ∈ other, isPlain c = true) (hprobe : ∀ c ∈ probe, isPlain c = true)
    {p : Block → Bool} (hp : ∀ block body, p (block.holding body) = p block)
    {take : Block → List α}
    (h : ∀ block : Block, p block = true →
      block.holding probe ∈ blocks (front ++ '\x7b' :: (probe ++ '\x7d' :: rest)) →
      take (block.holding body) = take (block.holding other)) :
    ((blocks (front ++ '\x7b' :: (body ++ '\x7d' :: rest))).filter p).flatMap take =
      ((blocks (front ++ '\x7b' :: (other ++ '\x7d' :: rest))).filter p).flatMap take := by
  obtain ⟨found, holder, hblocks⟩ := exists_blocks_body front rest
  rw [hblocks probe hprobe] at h
  rw [hblocks body hbody, hblocks other hother]
  cases holder with
  | none => rfl
  | some block =>
    simp only [Option.map_some, Option.toList_some, List.singleton_append, List.filter_append,
      List.flatMap_append, List.filter_cons, hp]
    cases hblock : p block with
    | false => rfl
    | true =>
      simp only [if_true, List.flatMap_cons]
      rw [h block hblock (by simp)]

theorem map_filter_body {α : Type} (hbody : ∀ c ∈ body, isPlain c = true)
    (hother : ∀ c ∈ other, isPlain c = true) (hprobe : ∀ c ∈ probe, isPlain c = true)
    {p : Block → Bool} (hp : ∀ block body, p (block.holding body) = p block) {take : Block → α}
    (h : ∀ block : Block, p block = true →
      block.holding probe ∈ blocks (front ++ '\x7b' :: (probe ++ '\x7d' :: rest)) →
      take (block.holding body) = take (block.holding other)) :
    ((blocks (front ++ '\x7b' :: (body ++ '\x7d' :: rest))).filter p).map take =
      ((blocks (front ++ '\x7b' :: (other ++ '\x7d' :: rest))).filter p).map take := by
  rw [List.map_eq_flatMap, List.map_eq_flatMap]
  exact flatMap_filter_body hbody hother hprobe hp fun block hblock hmem =>
    congrArg (fun found => [found]) (h block hblock hmem)

/-- Bodies with the same names, of which the same are relationships, make the same models. -/
theorem models_body (hbody : ∀ c ∈ body, isPlain c = true) (hother : ∀ c ∈ other, isPlain c = true)
    (h : (fields body).map Field.marked = (fields other).map Field.marked) :
    models (front ++ '\x7b' :: (body ++ '\x7d' :: rest)) =
      models (front ++ '\x7b' :: (other ++ '\x7d' :: rest)) := by
  refine map_filter_body hbody hother hbody (fun _ _ => rfl) fun block _ _ => ?_
  have hrelationships : ∀ list : List Field,
      ((list.filter fun field => isRelationship field.directives).map fun field =>
        String.ofList field.name) =
      ((list.map Field.marked).filter Prod.snd).map fun field => String.ofList field.1 := by
    intro list
    rw [List.filter_map, List.map_map]
    rfl
  simp only [modelOf, Block.holding, hrelationships, h]

/-- Bodies with the same names, parameters and types declare the same in a build schema, and so do
the values in them, unless they are those of an enum and differ. -/
theorem sameBuild_body (hbody : ∀ c ∈ body, isPlain c = true)
    (hother : ∀ c ∈ other, isPlain c = true) (hprobe : ∀ c ∈ probe, isPlain c = true)
    (htold : (fields body).map Field.told = (fields other).map Field.told)
    (hvalues : ∀ block ∈ blocks (front ++ '\x7b' :: (probe ++ '\x7d' :: rest)),
      block.keyword = .enum → block.body = probe → enumValues body = enumValues other) :
    SameBuild (front ++ '\x7b' :: (body ++ '\x7d' :: rest))
      (front ++ '\x7b' :: (other ++ '\x7d' :: rest)) where
  fields := by
    have hraw : ∀ body, (fields body).map (fun field =>
        FieldDeclaration.ofRaw (String.ofList field.name) (String.ofList field.type)) =
        ((fields body).map Field.told).map fun told =>
          FieldDeclaration.ofRaw (String.ofList told.1) (String.ofList told.2.2) := fun body => by
      rw [List.map_map]
      rfl
    funext model
    rw [fieldsOf?, fieldsOf?, ← List.head?_filter, ← List.head?_filter, ← List.head?_map,
      ← List.head?_map]
    refine congrArg List.head?
      (map_filter_body hbody hother hprobe (fun _ _ => rfl) fun block _ _ => ?_)
    simp only [Block.holding, hraw, htold]
  operations := by
    have htyped : ∀ body, (fields body).map operationOf =
        ((fields body).map Field.told).map fun told =>
          ⟨String.ofList told.1, (told.2.1.map typedTable).getD Table.empty,
            String.ofList told.2.2⟩ := by
      intro body
      rw [List.map_map]
      refine List.map_congr_left fun field _ => ?_
      rw [operationOf, Function.comp_apply, Field.told]
      cases field.arguments <;> rfl
    funext root
    refine flatMap_filter_body hbody hother hprobe (fun _ _ => rfl) fun block _ _ => ?_
    simp only [Block.holding, htyped, htold]
  inputs := by
    have htyped : ∀ body, ((fields body).map fun field => (field.name, field.type)) =
        ((fields body).map Field.told).map fun told => (told.1, told.2.2) := fun body => by
      rw [List.map_map]
      rfl
    refine map_filter_body hbody hother hprobe (fun _ _ => rfl) fun block _ _ => ?_
    simp only [Block.holding, htyped, htold]
  enums := by
    refine map_filter_body hbody hother hprobe (fun _ _ => rfl) fun block hblock hmem => ?_
    simp only [Block.holding]
    rw [hvalues _ hmem (of_decide_eq_true hblock) rfl]

/-- Texts that differ in white space only declare the same. -/
theorem SameBuild.of_squeeze {text other : List Char} (h : squeeze text = squeeze other) :
    SameBuild text other where
  fields := by
    funext model
    rw [← fieldsOf?_squeeze, h, fieldsOf?_squeeze]
  operations := by
    funext root
    rw [← operations_squeeze, h, operations_squeeze]
  inputs := by rw [← inputs_squeeze, h, inputs_squeeze]
  enums := by rw [← enums_squeeze, h, enums_squeeze]

/-- Build schemas that are cleaned, up to white space, to texts that declare the same. -/
theorem view_eq_of_sameBuild {build build' : String} {text text' : List Char}
    (h : squeeze (clean build.toList) = squeeze text)
    (h' : squeeze (clean build'.toList) = squeeze text') (hsame : SameBuild text text')
    (source : String) : view source build = view source build' := by
  have hbuild := SameBuild.of_squeeze h
  have hbuild' := SameBuild.of_squeeze h'
  simp only [view, hbuild.fields, hbuild.operations, hbuild.inputs, hbuild.enums, hsame.fields,
    hsame.operations, hsame.inputs, hsame.enums, hbuild'.fields, hbuild'.operations,
    hbuild'.inputs, hbuild'.enums]

/-- Source schemas that are cleaned, up to white space, to texts with the same models. -/
theorem view_eq_of_models {source source' : String} {text text' : List Char}
    (h : squeeze (clean source.toList) = squeeze text)
    (h' : squeeze (clean source'.toList) = squeeze text') (hsame : models text = models text')
    (build : String) : view source build = view source' build := by
  have hmodels : models (clean source.toList) = models (clean source'.toList) := by
    rw [← models_squeeze, h, models_squeeze, hsame, ← models_squeeze, ← h', models_squeeze]
  simp only [view, hmodels]

end Declarations

/-! ## Cuts -/

theorem isPlain_nil : ∀ c ∈ ([] : List Char), isPlain c = true := fun _ h => by cases h

/-- Where a schema is cut in two: outside of strings, comments and argument lists, and between a
brace and a closing one without braces between them. -/
structure Cut where
  before : List Char
  behind : List Char
  isText : Place.text.after before = .text
  front : List Char
  brace : Char
  /-- What stands between the braces before the cut. -/
  first : List Char
  /-- What stands between the braces behind the cut. -/
  second : List Char
  rest : List Char
  clean_before : clean before = front ++ brace :: first
  clean_behind : clean behind = second ++ '\x7d' :: rest
  isBrace : isPlain brace = false
  isPlain_first : ∀ c ∈ first, isPlain c = true
  isPlain_second : ∀ c ∈ second, isPlain c = true

namespace Cut

variable (cut : Cut) {inserted middle : List Char}

/-- The schema with a text in the cut. -/
def text (inserted : List Char) : String := String.ofList (cut.before ++ (inserted ++ cut.behind))

/-- What stands between the braces. -/
def body (middle : List Char) : List Char := cut.first ++ (middle ++ cut.second)

/-- The cleaned schema, up to white space. -/
def cleaned (middle : List Char) : List Char :=
  cut.front ++ cut.brace :: (cut.body middle ++ '\x7d' :: cut.rest)

theorem squeeze_clean_text (h : clean (inserted ++ cut.behind) = middle ++ clean cut.behind) :
    squeeze (clean (cut.text inserted).toList) = squeeze (cut.cleaned middle) := by
  rw [text, String.toList_ofList, squeeze_clean_append cut.isText, h, cut.clean_before,
    cut.clean_behind, cleaned, body]
  simp

theorem clean_nothing : clean ([] ++ cut.behind) = [] ++ clean cut.behind := rfl

theorem squeeze_clean_whole : squeeze (clean (cut.text []).toList) = squeeze (cut.cleaned []) :=
  cut.squeeze_clean_text cut.clean_nothing

theorem isPlain_body (hmiddle : ∀ c ∈ middle, isPlain c = true) :
    ∀ c ∈ cut.body middle, isPlain c = true := by
  intro c hc
  rcases List.mem_append.1 hc with hc | hc
  · exact cut.isPlain_first c hc
  · exact (List.mem_append.1 hc).elim (hmiddle c) (cut.isPlain_second c)

/-- Unless the cut is in a body, nothing is declared there. -/
theorem blocks_cleaned (hbrace : cut.brace ≠ '\x7b') (hmiddle : ∀ c ∈ middle, isPlain c = true) :
    blocks (cut.cleaned middle) = blocks (cut.cleaned []) := by
  have hclosing := (isPlain_eq_false_iff.1 cut.isBrace).resolve_left hbrace
  rw [cleaned, cleaned, hclosing, blocks_between (cut.isPlain_body hmiddle),
    blocks_between (cut.isPlain_body (by simp))]

section Between

variable {inserted inserted' middle middle' : List Char}
  (h : clean (inserted ++ cut.behind) = middle ++ clean cut.behind)
  (h' : clean (inserted' ++ cut.behind) = middle' ++ clean cut.behind)
  (hmiddle : ∀ c ∈ middle, isPlain c = true) (hmiddle' : ∀ c ∈ middle', isPlain c = true)

include h h' hmiddle hmiddle'

/-- Between the parts of a source schema one text may stand for the other if the body has the same
names with either, and the same relationships. -/
theorem view_source
    (hfields : (fields (cut.body middle)).map Field.marked =
      (fields (cut.body middle')).map Field.marked) (build : String) :
    view (cut.text inserted) build = view (cut.text inserted') build := by
  refine view_eq_of_models (cut.squeeze_clean_text h) (cut.squeeze_clean_text h') ?_ build
  by_cases hbrace : cut.brace = '\x7b'
  · rw [cleaned, cleaned, hbrace]
    exact models_body (cut.isPlain_body hmiddle) (cut.isPlain_body hmiddle') hfields
  · rw [models, models, cut.blocks_cleaned hbrace hmiddle, cut.blocks_cleaned hbrace hmiddle']

/-- Between the parts of a build schema one text may stand for the other if the same is told of the
fields of the body and, in an enum, the body has the same values. -/
theorem view_build
    (htold : (fields (cut.body middle)).map Field.told =
      (fields (cut.body middle')).map Field.told)
    (hvalues : ∀ block ∈ blocks (clean cut.before ++ clean cut.behind), block.keyword = .enum →
      block.body = cut.body [] → enumValues (cut.body middle) = enumValues (cut.body middle'))
    (source : String) : view source (cut.text inserted) = view source (cut.text inserted') := by
  have hcut : clean cut.before ++ clean cut.behind = cut.cleaned [] := by
    rw [cut.clean_before, cut.clean_behind, cleaned, body]
    simp
  rw [hcut] at hvalues
  refine view_eq_of_sameBuild (cut.squeeze_clean_text h) (cut.squeeze_clean_text h') ?_ source
  by_cases hbrace : cut.brace = '\x7b'
  · rw [cleaned, hbrace] at hvalues
    rw [cleaned, cleaned, hbrace]
    exact sameBuild_body (cut.isPlain_body hmiddle) (cut.isPlain_body hmiddle')
      (cut.isPlain_body (by simp)) htold hvalues
  · refine .of_blocks ?_
    rw [cut.blocks_cleaned hbrace hmiddle, cut.blocks_cleaned hbrace hmiddle']

end Between

end Cut

end SchemaAccess.Loose
