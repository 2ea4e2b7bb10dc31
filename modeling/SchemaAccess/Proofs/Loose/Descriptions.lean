import SchemaAccess.Proofs.Layout.CleanedText
import SchemaAccess.Proofs.Layout.Literals
import SchemaAccess.Proofs.Loose.Chunks
import SchemaAccess.Proofs.Loose.Seams

/-!
# Where a description is invisible

A description is a string literal before a definition, a field, an argument or an enum value.  If
the literal is skipped, white space is left of it, and white space before an item means nothing: it
separates nothing that was not separated before.

* `Description` — a literal and what stands between it and the item.
* `exchange_blanks` — between braces, white space and an item stand for the item.
* `Seat` — the places before items.
* `Unseen`, `unseen_of_seat` — a description whose literal is skipped is invisible in its seat.
* `skips_literal_iff` — which literals are skipped, and that their descriptions are invisible.
-/

namespace SchemaAccess.Loose

open Text Layout

/-! ## Descriptions

A description is skipped as a string and leaves a space.  Behind it comes the name of its item, and
since a name begins with none of the marks that are looked ahead for, what stands before the
description is read as if the name followed at once. -/

/-- A literal, and the white space and comments between it and the item that it describes. -/
structure Description where
  literal : StringLiteral
  gap : Gap

namespace Description

def text : Stage → Description → List Char
  | .written, d => '"' :: (d.literal.afterOpening ++ d.gap.text .written)
  | .cleaned, d => ' ' :: d.gap.text .cleaned

def HasComment (d : Description) : Prop := ∃ text onLine, Filler.comment text onLine ∈ d.gap

end Description

/-- A name begins behind the white space at the front. -/
def BeginsName (s : List Char) : Prop :=
  ∃ c, (s.dropWhile isBlank).head? = some c ∧ isNameStart c = true

section BeginsName

variable {s rest : List Char}

theorem BeginsName.head_ne (h : BeginsName s) {d : Char} (hd : isNameStart d = false) :
    (s.dropWhile isBlank).head? ≠ some d := by
  obtain ⟨c, hc, hname⟩ := h
  rw [hc, ne_eq, Option.some.injEq]
  exact ne_of_class hname hd

/-- A name is no argument list, so the directive before a description keeps what it has. -/
theorem BeginsName.noList (h : BeginsName s) : NoList s := h.head_ne (by decide)

theorem BeginsName.stops_isOpening (h : BeginsName s) : Stops isOpening (s.dropWhile isBlank) := by
  obtain ⟨c, hc, hname⟩ := h
  intro d hd
  rw [hc, Option.some.injEq] at hd
  exact hd ▸ isOpening_of_class hname (by decide) (by decide)

theorem BeginsName.blanks {blank : List Char} (hb : ∀ c ∈ blank, isBlank c = true)
    (h : BeginsName s) : BeginsName (blank ++ s) := by
  rwa [BeginsName, List.dropWhile_append_of_pos hb]

/-- A name that begins behind white space is still there when the text is cleaned. -/
theorem BeginsName.clean (h : BeginsName s) : BeginsName (clean s) := by
  obtain ⟨c, hc, hname⟩ := h
  obtain ⟨more, hmore⟩ := List.head?_eq_some_iff.1 hc
  have hfront : ∀ d ∈ s.takeWhile isBlank ++ [c], isOrdinary d = true := by
    intro d hd
    rcases List.mem_append.1 hd with hd | hd
    · exact isOrdinary_of_isBlank (List.mem_takeWhile_imp hd)
    · rw [List.mem_singleton.1 hd]
      exact isOrdinary_of_isNameChar (isNameChar_of_isNameStart hname)
  have htext : s = (s.takeWhile isBlank ++ [c]) ++ more := by
    rw [List.append_assoc, List.singleton_append, ← hmore, List.takeWhile_append_dropWhile]
  refine ⟨c, ?_, hname⟩
  rw [htext, clean_append hfront, List.append_assoc, List.singleton_append,
    dropWhile_append_of_stops (fun _ => List.mem_takeWhile_imp)
      (stops_cons (isBlank_of_isNameStart hname) _)]
  rfl

/-- The name begins before the brace that closes the body. -/
theorem BeginsName.of_append (h : BeginsName (s ++ '\x7d' :: rest)) : BeginsName s := by
  obtain ⟨c, hc, hname⟩ := h
  refine ⟨c, ?_, hname⟩
  rw [List.dropWhile_append] at hc
  split at hc
  · rw [List.dropWhile_cons_of_neg (by decide), List.head?_cons, Option.some.injEq] at hc
    exact absurd (hc ▸ hname) (by decide)
  · next hne =>
    have hne : s.dropWhile isBlank ≠ [] := fun hnil => hne (List.isEmpty_iff.2 hnil)
    obtain ⟨d, more, hmore⟩ := List.exists_cons_of_ne_nil hne
    rw [hmore] at hc ⊢
    exact hc

end BeginsName

/-! ## White space before an item

An item can be told from what stands before it without any white space between them, unless a type,
a directive or the rest of a field is open there. -/

/-- True of a character behind which white space means nothing: no character of a type, and none
behind which a type or a directive stands or the rest of a field. -/
def isApart (c : Char) : Bool := !isBlank c && !isTypeChar c && !([':', '@', ')'].contains c)

/-- **Behind such a character, white space and an item stand for the item.**  The name of the
item ends the run of directives, opens no list that was not open, and makes no field of a name
before it. -/
theorem exchange_blanks (u : List Char) {blank second : List Char} {c : Char}
    (hc : isApart c = true)
    (hb : ∀ c ∈ blank, isBlank c = true) (hname : BeginsName second) :
    Exchange id u c second (blank ++ second) := by
  simp only [isApart, Bool.and_eq_true, Bool.not_eq_true'] at hc
  obtain ⟨⟨hblank, htype⟩, hmark⟩ := hc
  have hmark : c ∉ [':', '@', ')'] := fun hmem => by
    rw [List.contains_iff_mem.2 hmem] at hmark
    cases hmark
  have hclose : ∀ e ∈ blank, decide (e ≠ ')') = true := fun e he =>
    ne_closing_of_isBlank e (hb e he)
  have hsearch : ∀ {α : Type} {r : Recognizer α}, r.IsNamed → ∀ rest : List Char,
      occurrences r (blank ++ rest) = occurrences r rest := fun hr rest =>
    occurrences_between hr fun e he => isNameStart_of_isBlank (hb e he)
  have hfields : fields (blank ++ second) = fields second := hsearch isNamed_field? second
  have hrun := directiveRun_of_head (hname.head_ne (d := '@') (by decide))
  have hrun' := directiveRun_of_head ((hname.blanks hb).head_ne (d := '@') (by decide))
  refine ⟨⟨hblank, hmark, fun h => ?_, hname.stops_isOpening⟩,
    ⟨hblank, hmark, fun h => ?_, (hname.blanks hb).stops_isOpening⟩, ?_, ?_, fun run _ => ?_,
    ?_, ?_⟩
  · rw [htype] at h
    cases h
  · rw [htype] at h
    cases h
  · rw [List.dropWhile_append_of_pos hclose]
  · rw [List.takeWhile_append_of_pos hclose]
    exact (hsearch isNamed_param? _).symm
  · rw [hrun, hrun']
  · rw [hfields]
  · rw [hrun, hrun', hfields]

/-! ## Seats

A description may stand before any item of a schema, and in each of these places it is a different
lookahead that it must not disturb.  `Seat` lists the places by what stands next to them. -/

/-- A place before an item, from what stands before it and behind it. -/
inductive Seat (d : Description) : List Char → List Char → Prop
  /-- In the argument list of a directive definition. -/
  | list {before behind : List Char} {outer : Nat} (place : Place.text.after before = .list outer)
      (noComment : ¬ d.HasComment) : Seat d before behind
  | spaceBefore {before behind : List Char}
      (place : Place.text.after before = .text ∨ Place.text.after before = .gap) {c : Char}
      (last : (clean before).getLast? = some c) (isBlank : isBlank c = true) : Seat d before behind
  | spaceBehind {before behind : List Char}
      (place : Place.text.after before = .text ∨ Place.text.after before = .gap ∨
        Place.text.after before = .name) {c : Char}
      (head : behind.head? = some c) (isBlank : isBlank c = true) : Seat d before behind
  /-- At the beginning of the schema. -/
  | first {before behind : List Char} (place : Place.text.after before = .text)
      (nothing : clean before = []) : Seat d before behind
  /-- Behind a block. -/
  | closing {before behind : List Char} (place : Place.text.after before = .text)
      (last : (clean before).getLast? = some '\x7d') : Seat d before behind
  /-- In a block, at its beginning or behind a mark like a comma or a parenthesis. -/
  | body (cut : Cut) (last : ∀ c, cut.first.getLast? = some c → isApart c = true)
      (values : ∀ block ∈ blocks (clean cut.before ++ clean cut.behind), block.keyword = .enum →
        block.body = cut.first ++ cut.second → ∀ c, cut.first.getLast? = some c → c = ',') :
      Seat d cut.before cut.behind

/-- The schema with the description. -/
def described (before : List Char) (d : Description) (behind : List Char) : String :=
  String.ofList (before ++ (d.text .written ++ behind))

section Seats

variable {d : Description} {before behind : List Char}

/-- A cleaned description is white space. -/
theorem isBlank_of_mem_description {c : Char} (hc : c ∈ d.text .cleaned) : isBlank c = true := by
  rcases List.mem_cons.1 hc with rfl | hc
  · decide
  · exact isBlank_of_mem_gap hc

theorem Description.fits (hname : BeginsName behind) :
    d.literal.Fits (d.gap.text .written ++ behind) := by
  intro _
  cases d.gap with
  | nil =>
    intro hquote
    refine hname.head_ne (d := '"') (by decide) ?_
    obtain ⟨more, rfl⟩ := List.head?_eq_some_iff.1 hquote
    rw [List.dropWhile_cons_of_neg (by decide)]
    exact hquote
  | cons f gap =>
    cases f with
    | blank c isBlank =>
      have hc : c ≠ '"' := ne_of_class isBlank (by decide)
      simpa [Gap.text, Filler.text] using hc
    | comment text onLine => simp [Gap.text, Filler.text]

/-- A literal that is skipped leaves what stands behind it. -/
theorem afterString_description (h : ¬ d.literal.IsEscaped) (hname : BeginsName behind) :
    afterString (d.literal.afterOpening ++ (d.gap.text .written ++ behind)) =
      d.gap.text .written ++ behind :=
  (d.literal.afterString_eq_iff (Description.fits hname)).2 h

theorem text_written_append (d : Description) (behind : List Char) :
    d.text .written ++ behind =
      '"' :: (d.literal.afterOpening ++ (d.gap.text .written ++ behind)) := by
  simp [Description.text]

/-- A description whose literal is skipped is cleaned on its own. -/
theorem clean_description (h : ¬ d.literal.IsEscaped) (hname : BeginsName behind) :
    clean (d.text .written ++ behind) = d.text .cleaned ++ clean behind := by
  rw [text_written_append, clean_quote, afterString_description h hname, clean_gap]
  rfl

/-- Outside of strings, comments and argument lists, a description leaves white space. -/
theorem squeeze_clean_described (h : ¬ d.literal.IsEscaped) (hname : BeginsName behind)
    (place : Place.text.after before = .text ∨ Place.text.after before = .gap ∨
      Place.text.after before = .name) :
    squeeze (clean (described before d behind).toList) =
      squeeze (clean before ++ (d.text .cleaned ++ clean behind)) := by
  have hquote : ∀ s, (Place.text.after before).output ('"' :: s) =
      ' ' :: Place.text.output (afterString s) := by
    intro s
    rcases place with hp | hp | hp <;> rw [hp] <;>
      exact congrArg (' ' :: ·) (Place.output_string none s)
  rw [described, String.toList_ofList, squeeze_clean, Place.output_append, text_written_append,
    hquote, afterString_description h hname,
    ← squeeze_append_congr_left (squeeze_clean before) (' ' :: _)]
  refine squeeze_append_congr _ (squeeze_append_congr [' '] ?_)
  exact (squeeze_clean _).symm.trans (congrArg squeeze (clean_gap d.gap behind))

/-- And without the description, the parts are cleaned on their own. -/
theorem squeeze_clean_plain (hname : BeginsName behind)
    (place : Place.text.after before = .text ∨ Place.text.after before = .gap ∨
      Place.text.after before = .name ∧ ∃ c, behind.head? = some c ∧ isBlank c = true) :
    squeeze (clean (String.ofList (before ++ behind)).toList) =
      squeeze (clean before ++ clean behind) := by
  have hbehind : (Place.text.after before).output behind = Place.text.output behind := by
    rcases place with hp | hp | ⟨hp, c, hc, hblank⟩
    · rw [hp]
    · rw [hp, Place.output_gap hname.noList]
    · obtain ⟨more, rfl⟩ := List.head?_eq_some_iff.1 hc
      have hstop : isDirectiveChar c ≠ true := by simp [isDirectiveChar_of_isBlank hblank]
      rw [hp, Place.output_name, List.takeWhile_cons_of_neg hstop, List.dropWhile_cons_of_neg hstop,
        List.nil_append, Place.output_gap hname.noList]
  rw [String.toList_ofList, squeeze_clean, Place.output_append, hbehind,
    ← squeeze_append_congr_left (squeeze_clean before)]
  exact squeeze_append_congr _ (squeeze_clean behind).symm

/-! ## Descriptions in their seats

One case for each kind of seat.  Next to white space the description only makes it longer; in a list
it is passed over; at other places `Exchange` or the blocks of the text are compared. -/

/-- The schema declares the same with the description and without, as a source schema and as a
build schema, whatever the other schema is. -/
def Unseen (before : List Char) (d : Description) (behind : List Char) : Prop :=
  ∀ other : String,
    view (described before d behind) other = view (String.ofList (before ++ behind)) other ∧
      view other (described before d behind) = view other (String.ofList (before ++ behind))

/-- A description is invisible if the cleaned texts are the same up to white space. -/
theorem unseen_of_squeeze (h : squeeze (clean (described before d behind).toList) =
    squeeze (clean (String.ofList (before ++ behind)).toList)) : Unseen before d behind :=
  fun _ => ⟨view_eq_of_squeeze h rfl, view_eq_of_squeeze rfl h⟩

/-- It is invisible if the same blocks are found. -/
theorem unseen_of_blocks (h : ¬ d.literal.IsEscaped) (hname : BeginsName behind)
    (place : Place.text.after before = .text)
    (hblocks : blocks (clean before ++ (d.text .cleaned ++ clean behind)) =
      blocks (clean before ++ clean behind)) : Unseen before d behind := by
  have hwith := squeeze_clean_described h hname (.inl place)
  have hwithout := squeeze_clean_plain hname (.inl place)
  refine fun other => ⟨view_eq_of_models hwith hwithout ?_ other,
    view_eq_of_sameBuild hwith hwithout (.of_blocks hblocks) other⟩
  rw [models, models, hblocks]

/-- White space between items does not reach a block. -/
theorem blocks_description (d : Description) (s : List Char) :
    blocks (d.text .cleaned ++ s) = blocks s :=
  blocksFrom_between fun _ hc => isWord_of_isBlank (isBlank_of_mem_description hc)

/-- In a list the literal and the white space behind it are passed over. -/
theorem output_list_description (h : ¬ d.literal.IsEscaped) (hname : BeginsName behind)
    (hcomment : ¬ d.HasComment) (outer : Nat) :
    (Place.list outer).output (d.text .written ++ behind) = (Place.list outer).output behind := by
  have hgap : ∀ c ∈ d.gap.text .written, isBlank c = true := by
    intro c hc
    obtain ⟨f, hf, hc⟩ := List.mem_flatMap.1 hc
    cases f with
    | blank e isBlank => exact List.mem_singleton.1 hc ▸ isBlank
    | comment text onLine => exact absurd ⟨text, onLine, hf⟩ hcomment
  have hstring := Place.output_string (some outer)
    (d.literal.afterOpening ++ (d.gap.text .written ++ behind))
  rw [afterString_description h hname, Place.behind,
    Place.output_list_of_class (forall_mem_eq_false (by decide)) outer hgap] at hstring
  rw [text_written_append]
  exact hstring

/-- Behind a comma, white space does not change the values of an enum. -/
theorem enumValues_blanks {first blank second : List Char} (hb : ∀ c ∈ blank, isBlank c = true)
    (hlast : ∀ c, first.getLast? = some c → c = ',') :
    enumValues (first ++ (blank ++ second)) = enumValues (first ++ second) := by
  have hseparator : ∀ c ∈ blank, (isBlank c || c == ',') = true := fun c hc => by rw [hb c hc]; rfl
  have hpieces := piecesWhere_separators hseparator second
  cases hfirst : first.getLast? with
  | none => rw [List.getLast?_eq_none_iff.1 hfirst, enumValues, List.nil_append, hpieces]; rfl
  | some c =>
    obtain ⟨front, rfl⟩ := List.getLast?_eq_some_iff.1 hfirst
    obtain rfl := hlast c hfirst
    have hcomma : (isBlank ',' || ',' == ',') = true := by decide
    simp only [enumValues, List.append_assoc, List.singleton_append]
    rw [piecesWhere_append_cons hcomma, piecesWhere_append_cons hcomma, hpieces]

/-- **Between braces, white space before an item is invisible.**  For fields this is
`exchange_blanks`; the values of an enumeration are split at commas as well, so there a comma must
stand before. -/
theorem unseen_of_cut (cut : Cut) (h : ¬ d.literal.IsEscaped) (hname : BeginsName cut.behind)
    (last : ∀ c, cut.first.getLast? = some c → isApart c = true)
    (values : ∀ block ∈ blocks (clean cut.before ++ clean cut.behind), block.keyword = .enum →
      block.body = cut.first ++ cut.second → ∀ c, cut.first.getLast? = some c → c = ',') :
    Unseen cut.before d cut.behind := by
  have hsecond : BeginsName cut.second := by
    have hclean := hname.clean
    rw [cut.clean_behind] at hclean
    exact hclean.of_append
  have hblank : ∀ c ∈ d.text .cleaned, isBlank c = true := fun _ => isBlank_of_mem_description
  have hfields : (fields (cut.body [])).map (Field.toldWith id) =
      (fields (cut.body (d.text .cleaned))).map (Field.toldWith id) := by
    cases hlast : cut.first.getLast? with
    | none =>
      have hcomma : isApart ',' = true := by decide
      exact fields_exchange (exchange_blanks _ hcomma hblank hsecond)
        (.inl (List.getLast?_eq_none_iff.1 hlast))
    | some c => exact fields_exchange (exchange_blanks _ (last c hlast) hblank hsecond) (.inr hlast)
  have hvalues : ∀ block ∈ blocks (clean cut.before ++ clean cut.behind), block.keyword = .enum →
      block.body = cut.body [] →
        enumValues (cut.body (d.text .cleaned)) = enumValues (cut.body []) := by
    intro block hblock hkeyword hbody
    exact enumValues_blanks hblank (values block hblock hkeyword hbody)
  have hclean := clean_description h hname
  have hplain : ∀ c ∈ d.text .cleaned, isPlain c = true := fun c hc =>
    isPlain_of_isBlank (hblank c hc)
  refine fun other => ⟨cut.view_source hclean cut.clean_nothing hplain (by simp) ?_ other,
    cut.view_build hclean cut.clean_nothing hplain (by simp) ?_ hvalues other⟩
  · have hnames := congrArg (List.map fun told => (told.1.1, isRelationship told.2)) hfields
    rw [List.map_map, List.map_map] at hnames
    exact hnames.symm
  · have htold := congrArg (List.map Prod.fst) hfields
    rw [List.map_map, List.map_map] at htold
    exact htold.symm

/-- **A description whose literal is skipped is invisible in its seat**, one case for each kind of
seat. -/
theorem unseen_of_seat (h : ¬ d.literal.IsEscaped) (hname : BeginsName behind)
    (seat : Seat d before behind) : Unseen before d behind := by
  cases seat with
  | list place noComment =>
    refine unseen_of_squeeze ?_
    rw [described, String.toList_ofList, String.toList_ofList, squeeze_clean, squeeze_clean,
      Place.output_append _ before (_ ++ _), Place.output_append _ before behind, place,
      output_list_description h hname noComment]
  | spaceBefore place last isBlank =>
    refine unseen_of_squeeze ?_
    rw [squeeze_clean_described h hname (place.imp_right .inl),
      squeeze_clean_plain hname (place.imp_right .inl)]
    obtain ⟨front, hfront⟩ := List.getLast?_eq_some_iff.1 last
    rw [hfront, List.append_assoc, List.append_assoc]
    exact squeeze_append_congr front
      (squeeze_cons_blanks (fun _ => isBlank_of_mem_description) isBlank _)
  | spaceBehind place head isBlank =>
    refine unseen_of_squeeze ?_
    rw [squeeze_clean_described h hname place,
      squeeze_clean_plain hname (place.imp_right (Or.imp_right fun hp => ⟨hp, _, head, isBlank⟩))]
    obtain ⟨more, rfl⟩ := List.head?_eq_some_iff.1 head
    rw [clean_char (isOrdinary_of_isBlank isBlank)]
    exact squeeze_append_blanks (fun _ => isBlank_of_mem_description) isBlank _
  | first place nothing =>
    refine unseen_of_blocks h hname place ?_
    rw [nothing]
    exact blocks_description d (clean behind)
  | closing place last =>
    refine unseen_of_blocks h hname place ?_
    obtain ⟨front, hfront⟩ := List.getLast?_eq_some_iff.1 last
    have hseam : ∀ s, blocks (clean before ++ s) = blocks (clean before) ++ blocks s := by
      intro s
      rw [hfront, List.append_assoc, List.singleton_append, blocks, blocksFrom_append_closing]
      rfl
    rw [hseam, hseam, blocks_description]
  | body cut last values => exact unseen_of_cut cut h hname last values

end Seats

/-- **Skipping a string literal of the grammar ends behind it if and only if there are no escaped
quotes in it**; and without escaped quotes, a description is invisible before every item. -/
theorem skips_literal_iff (l : StringLiteral) :
    (∀ rest, l.Fits rest → (afterString (l.afterOpening ++ rest) = rest ↔ ¬ l.IsEscaped)) ∧
      (¬ l.IsEscaped → ∀ (gap : Gap) (before behind : List Char), BeginsName behind →
        Seat ⟨l, gap⟩ before behind → Unseen before ⟨l, gap⟩ behind) :=
  ⟨fun _ hfits => l.afterString_eq_iff hfits,
    fun h _ _ _ hname seat => unseen_of_seat h hname seat⟩

/-- A string with an escaped quote and a brace. -/
def quotedLiteral : StringLiteral :=
  .quoted "\\\"\x7d".toList (.escape '"' (.char (by decide) .nil))

/-- The place before the second of two fields. -/
def commaCut : Cut where
  before := "input A\x7by: Q,".toList
  behind := "x: P\x7d".toList
  isText := rfl
  front := "input A".toList
  brace := '\x7b'
  first := "y: Q,".toList
  second := "x: P".toList
  rest := []
  clean_before := clean_eq_self (List.all_eq_true.1 (by decide))
  clean_behind := clean_eq_self (List.all_eq_true.1 (by decide))
  isBrace := isPlain_opening
  isPlain_first := List.all_eq_true.1 (by decide)
  isPlain_second := List.all_eq_true.1 (by decide)

theorem skips_literal_iff_quoted :
    quotedLiteral.Fits " x".toList ∧ ¬ quotedLiteral.IsEscaped ∧
      afterString (quotedLiteral.afterOpening ++ " x".toList) = " x".toList ∧
      view "" "input A\x7by: Q,\"\\\"\x7d\"x: P\x7d" = view "" "input A\x7by: Q,x: P\x7d" := by
  have hfits : quotedLiteral.Fits " x".toList := fun _ => by decide
  have hplain : ¬ quotedLiteral.IsEscaped := fun h => h
  have hname : BeginsName commaCut.behind := ⟨'x', rfl, by decide⟩
  have hcomma : ∀ c, commaCut.first.getLast? = some c → c = ',' := fun c hc =>
    (Option.some.inj hc).symm
  have hseat : Seat ⟨quotedLiteral, []⟩ commaCut.before commaCut.behind :=
    .body commaCut (fun c hc => by rw [hcomma c hc]; decide) (fun _ _ _ _ => hcomma)
  refine ⟨hfits, hplain, ?_, ?_⟩
  · exact ((skips_literal_iff quotedLiteral).1 _ hfits).2 hplain
  · exact ((skips_literal_iff quotedLiteral).2 hplain [] _ _ hname hseat "").2

/-- A block string with escaped quotes. -/
def escapedLiteral : StringLiteral :=
  .block "a \\\"\"\" b".toList (.char (by decide) (by decide) (.char (by decide) (by decide)
    (.escape (.char (by decide) (by decide) (.char (by decide) (by decide) .nil)))))

/-- Before a type, escaped quotes: the literal is skipped up to them, and the type is lost. -/
theorem skips_literal_escaped : escapedLiteral.Fits ('\n' :: blogType.toList) ∧
    afterString (escapedLiteral.afterOpening ++ '\n' :: blogType.toList) ≠
      '\n' :: blogType.toList ∧
    view (String.ofList ('"' :: (escapedLiteral.afterOpening ++ '\n' :: blogType.toList))) "" ≠
      view blogType "" := by
  have hfits : escapedLiteral.Fits ('\n' :: blogType.toList) := fun h => by cases h
  refine ⟨hfits, by decide, fun hview => ?_⟩
  have hout : Place.text.output
      ('"' :: (escapedLiteral.afterOpening ++ '\n' :: blogType.toList)) = "  b ".toList := by decide
  have hlost : models (clean
      ('"' :: (escapedLiteral.afterOpening ++ '\n' :: blogType.toList))) = [] := by
    rw [← models_squeeze, squeeze_clean, hout, models_squeeze, models, blocks,
      blocksFrom_eq_nil (by decide)]
    rfl
  have hkept : models (clean blogType.toList) = [modelOf (blockOf "Blog")] := by
    rw [models, blocks_blogType]
    rfl
  have hmodels := congrArg SchemaView.models hview
  simp [view, hlost, hkept] at hmodels

end SchemaAccess.Loose
