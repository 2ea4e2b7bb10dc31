import Mathlib.Data.List.Infix
import SchemaAccess.Proofs.Layout.Constants
import SchemaAccess.Proofs.Loose.Comments
import SchemaAccess.Proofs.Loose.Seams

/-!
# Where a default value is invisible

Behind the type of an argument or an input field a default value is passed over: nothing in it is a
field or a parameter.  That holds for every constant without an object.  The braces of an object are
read as if they were those of a block, and the block around them is lost.  In the argument list of a
directive definition, which cleaning skips, every default value without comments is invisible.

* `Slot` — the place behind a type between two braces.
* `exchange_default` — behind a type, text with a default value stands for text without.
* `view_slot` — a default value without an object is invisible in every slot.
* `exists_slot_ne` — a default value with an object is seen in some slot.
* `invisible_default_iff` — both, and argument lists.
-/

namespace SchemaAccess.Loose

open Text Layout

/-- A cut behind a type. -/
structure Slot extends Cut where
  /-- The type ends here. -/
  type : ∃ c, first.getLast? = some c ∧ isTypeChar c = true
  head : Stops isTypeChar second
  /-- The next item is not the list or the type of a field whose name is missing. -/
  next : Stops isOpening ((directiveRun second).2.dropWhile isBlank)
  /-- The braces are not those of an enum. -/
  notEnum : ∀ block ∈ blocks (clean before ++ clean behind), block.keyword = .enum →
    block.body ≠ first ++ second

/-! ## Default values without objects

The search for fields and parameters passes over everything in which no colon, parenthesis or brace
is.  A default value without an object is such a text behind its equals sign, so `Exchange` applies
in every slot. -/

section Passed

variable {second : List Char} {d : Default}

/-- Nothing in a default value without an object opens or closes anything. -/
theorem inert_of_mem_default (hd : ¬ d.HasObject) {c : Char} (hc : c ∈ d.text .cleaned) :
    isOpening c = false ∧ c ≠ ')' ∧ isPlain c = true := by
  have hclass : ∀ p : Char → Bool, p c = true →
      (∀ e ∈ [':', '(', ')', '\x7b', '\x7d'], p e = false) →
      isOpening c = false ∧ c ≠ ')' ∧ isPlain c = true := by
    intro p hc hp
    rw [isPlain, Bool.and_eq_true, bne_iff_ne, bne_iff_ne]
    exact ⟨isOpening_of_class hc (hp _ (by simp)) (hp _ (by simp)), ne_of_class hc (hp _ (by simp)),
      ne_of_class hc (hp _ (by simp)), ne_of_class hc (hp _ (by simp))⟩
  rcases d.isValueChar_of_mem hd hc with hc | rfl | hc
  · exact hclass isBlank hc (forall_mem_eq_false (by decide))
  · exact ⟨by decide, by decide, by decide⟩
  · exact hclass isValueChar hc (forall_mem_eq_false (by decide))

/-- The equals sign is the first thing behind the type, so no directive is taken from the default
value. -/
theorem dropWhile_default (d : Default) (rest : List Char) :
    ∃ more, (d.text .cleaned ++ rest).dropWhile isBlank = '=' :: more := by
  obtain ⟨more, hmore⟩ := d.text_cleaned
  refine ⟨more ++ rest, ?_⟩
  rw [hmore, List.append_assoc, List.cons_append,
    dropWhile_append_of_stops (fun _ => isBlank_of_mem_gap) (stops_cons (by decide) _)]

/-- **Behind a type, text with a default value stands for text without.**  A run of directives ends
at the equals sign, but without one there may be directives behind the type; the key of the exchange
is therefore trivial, and directives do not count. -/
theorem exchange_default (u : List Char) {c : Char} (hc : isTypeChar c = true)
    (hhead : Stops isTypeChar second)
    (hnext : Stops isOpening ((directiveRun second).2.dropWhile isBlank)) (hd : ¬ d.HasObject) :
    Exchange (fun _ => ()) u c second (d.text .cleaned ++ second) := by
  have hopening := stops_isOpening_of_directiveRun hnext
  have hinert : ∀ e ∈ d.text .cleaned, isOpening e = false ∧ e ≠ ')' := fun e he =>
    ⟨(inert_of_mem_default hd he).1, (inert_of_mem_default hd he).2.1⟩
  have hwithout : Passed [] second := ⟨by simp, hhead, hnext⟩
  have hwith : Passed (d.text .cleaned) second := by
    refine ⟨hinert, ?_, ?_⟩
    · obtain ⟨value, hvalue⟩ := d.text_cleaned
      rw [hvalue, List.append_assoc]
      exact stops_append (fun e he => isTypeChar_of_isBlank (isBlank_of_mem_gap he))
        (stops_cons (by decide) _)
    · obtain ⟨more, hdrop⟩ := dropWhile_default d second
      rw [directiveRun_of_head (by rw [hdrop]; simp)]
      exact stops_isOpening_append (fun e he => (hinert e he).1) hopening
  exact exchange_passed hc ⟨stops_isNameChar hhead, hopening⟩ hwithout hwith fun _ _ => rfl

/-- A default value without an object is invisible in every slot. -/
theorem view_slot (slot : Slot) (hd : ¬ d.HasObject) (hfits : d.Fits slot.behind)
    (source : String) : view source (slot.text (d.text .written)) = view source (slot.text []) := by
  obtain ⟨c, hlast, hc⟩ := slot.type
  have hfields := congrArg (List.map Prod.fst)
    (fields_exchange (exchange_default _ hc slot.head slot.next hd) (.inr hlast))
  rw [List.map_map, List.map_map] at hfields
  exact slot.view_build (d.clean_text hfits) slot.clean_nothing
    (fun c hc => (inert_of_mem_default hd hc).2.2) (by simp) hfields.symm
    (fun block hblock hkeyword hbody => absurd hbody (slot.notEnum block hblock hkeyword)) source

end Passed

/-! ## Default values with objects

One slot is enough in which such a default value is seen.  It is the only field of the only input of
a schema, with a name longer than the default value, so the input cannot be found in what is left of
it. -/

/-- An input of a long name with one field. -/
def freshInput (n : Nat) : List Char := keywordText .input ++ ' ' :: freshName (n + 1)

theorem isOrdinary_freshInput (n : Nat) : ∀ c ∈ freshInput n, isOrdinary c = true := by
  intro c hc
  rcases List.mem_append.1 hc with hc | hc
  · exact isOrdinary_of_isNameChar (isNameChar_of_mem (isName_keyword _) hc)
  · rcases List.mem_cons.1 hc with rfl | hc
    · decide
    · exact isOrdinary_of_isNameChar (isNameChar_of_mem (isName_freshName n) hc)

/-- The input is the only block of its schema. -/
theorem blocks_freshInput (n : Nat) {body : List Char} (hbody : ∀ c ∈ body, isPlain c = true) :
    blocks (freshInput n ++ '\x7b' :: (body ++ ['\x7d'])) =
      [⟨.input, freshName (n + 1), [], body⟩] := by
  have hblocks :=
    @blocks_single .input _ [] _ (isName_freshName n) (stops_cons (by decide) _) (by simp)
    hbody
  rwa [List.nil_append] at hblocks

/-- The cut behind the type of the field. -/
def freshCut (n : Nat) : Cut where
  before := freshInput n ++ "\x7bx:P".toList
  behind := ['\x7d']
  isText := Place.after_ordinary fun c hc => (List.mem_append.1 hc).elim
    (isOrdinary_freshInput n c) (List.all_eq_true.1 (by decide) c)
  front := freshInput n
  brace := '\x7b'
  first := "x:P".toList
  second := []
  rest := []
  clean_before := clean_eq_self fun c hc => (List.mem_append.1 hc).elim
    (isOrdinary_freshInput n c) (List.all_eq_true.1 (by decide) c)
  clean_behind := clean_eq_self (List.all_eq_true.1 (by decide))
  isBrace := isPlain_opening
  isPlain_first := List.all_eq_true.1 (by decide)
  isPlain_second := fun _ h => by cases h

/-- The place behind the type of the field. -/
def freshSlot (n : Nat) : Slot where
  toCut := freshCut n
  type := ⟨'P', show "x:P".toList.getLast? = some 'P' by decide, by decide⟩
  head := stops_nil _
  next := by
    rw [show (freshCut n).second = [] from rfl, directiveRun_of_head (by simp)]
    exact stops_nil _
  notEnum := by
    intro block hblock hkeyword
    have htext : clean (freshCut n).before ++ clean (freshCut n).behind =
        freshInput n ++ '\x7b' :: ("x:P".toList ++ ['\x7d']) := by
      rw [(freshCut n).clean_before, (freshCut n).clean_behind, List.append_assoc]
      rfl
    rw [htext, blocks_freshInput n (List.all_eq_true.1 (by decide)), List.mem_singleton] at hblock
    rw [hblock] at hkeyword
    cases hkeyword

/-- With an object in its body, an input of a name that occurs once is not found. -/
theorem not_declares_freshInput {n : Nat} {body more : List Char} (hlength : body.length + 6 ≤ n)
    (hopens : body.dropWhile isPlain = '\x7b' :: more) :
    ¬ Declares .input (freshName (n + 1)) (freshInput n ++ '\x7b' :: (body ++ ['\x7d'])) := by
  rintro ⟨block, hblock, hkeyword, hname⟩
  obtain ⟨before, found, rest, htext, hfound⟩ := exists_of_mem_blocksFrom hblock
  obtain ⟨blank, hne, hblank, -, hheader, hbody, rfl⟩ := append_of_block? hfound
  rw [hkeyword, hname] at htext
  have hsplit : (keywordText .input ++ [' ']) ++ (List.replicate (n + 1) 'x' ++
      '\x7b' :: (body ++ ['\x7d'])) = (before ++ (keywordText .input ++ blank)) ++
        (List.replicate (n + 1) 'x' ++
          (block.header ++ '\x7b' :: (block.body ++ '\x7d' :: rest))) := by
    rw [freshInput, freshName] at htext
    simpa using htext.symm
  -- the name stands where it was put, so the header is empty and the body begins as it was put
  have hlast : (before ++ (keywordText .input ++ blank)).getLast? ≠ some 'x' := fun hlast => by
    rw [← List.append_assoc] at hlast
    have hx := hblank 'x' (mem_of_getLast?_append hne hlast)
    exact absurd hx (by decide)
  have hshort : (keywordText .input ++ [' ']).length < n + 1 := by
    rw [show (keywordText .input ++ [' ']).length = 6 from rfl]
    omega
  have hrest : ('\x7b' :: (body ++ ['\x7d'])).length < n + 1 := by
    rw [List.length_cons, List.length_append, List.length_singleton]
    omega
  have hfront := append_replicate_cancel hsplit (by rw [List.getLast?_concat]; decide) hlast hshort
    hrest
  rw [← hfront] at hsplit
  have hbraces := List.append_cancel_left (List.append_cancel_left hsplit)
  obtain ⟨-, -, hbodies⟩ := @eq_of_plain_append _ _ [] block.header '\x7b' '\x7b' (by simp) hheader
    (by decide) (by decide) hbraces
  have hdrop := congrArg (List.dropWhile isPlain) hbodies
  rw [dropWhile_append_of_stops hbody (stops_cons (by decide) rest), List.dropWhile_append,
    hopens] at hdrop
  exact absurd (List.cons.inj hdrop).1 (by decide)

/-- **A default value with an object is seen in some slot**: without it the input is declared, and
with it the first brace opens in front of the one that closes, so the input is lost. -/
theorem exists_slot_ne {d : Default} (hd : d.HasObject) : ∃ slot : Slot, d.Fits slot.behind ∧
    ∀ source, view source (slot.text (d.text .written)) ≠ view source (slot.text []) := by
  let n := (d.text .cleaned).length + 9
  have hfits : d.Fits (freshSlot n).behind := fun _ => by
    rw [show (freshSlot n).behind = ['\x7d'] from rfl]
    decide
  refine ⟨freshSlot n, hfits, fun source hview => ?_⟩
  have hwithout : Declares .input (freshName (n + 1)) (clean ((freshSlot n).text []).toList) := by
    rw [← declares_squeeze, (freshSlot n).squeeze_clean_whole, declares_squeeze]
    refine ⟨⟨.input, freshName (n + 1), [], "x:P".toList⟩, ?_, rfl, rfl⟩
    have hblocks := blocks_freshInput n (List.all_eq_true.1 (by decide) : ∀ c ∈ "x:P".toList, _)
    exact hblocks ▸ List.mem_singleton_self _
  rw [declares_input_iff source, ← hview, ← declares_input_iff, ← declares_squeeze,
    (freshSlot n).squeeze_clean_text (d.clean_text hfits), declares_squeeze] at hwithout
  obtain ⟨more, hmore⟩ := Default.exists_opening hd
  have hbody : ("x:P".toList ++ d.text .cleaned).dropWhile isPlain = '\x7b' :: more := by
    rw [List.dropWhile_append_of_pos (List.all_eq_true.1 (by decide)), hmore]
  refine not_declares_freshInput (n := n) ?_ hbody ?_
  · simp [n]
  · simpa [Cut.cleaned, Cut.body, freshSlot, freshCut] using hwithout

/-! ## Every slot and every argument list

The two directions are put together.  In an argument list of a directive definition nothing is read
at all, so the constant may have objects there; what may not be in it is a comment, which the skip
does not know. -/

/-- In the argument list of a directive definition a default value without comments is invisible. -/
theorem view_list {before behind : List Char} {outer : Nat} {d : Default}
    (hplace : Place.text.after before = .list outer) (hcomment : ¬ d.HasComment)
    (hfits : d.Fits behind) (source : String) :
    view source (String.ofList (before ++ (d.text .written ++ behind))) =
      view source (String.ofList (before ++ behind)) := by
  refine view_eq_of_squeeze rfl ?_
  rw [String.toList_ofList, String.toList_ofList, squeeze_clean, squeeze_clean,
    Place.output_append _ before (_ ++ _), Place.output_append _ before behind, hplace,
    Default.output_list outer hcomment hfits]

/-- **A default value is invisible behind every type in a block if and only if there is no object in
it**, and in every argument list of a directive definition if there is no comment in it. -/
theorem invisible_default_iff (d : Default) :
    ((∀ slot : Slot, d.Fits slot.behind → ∀ source,
        view source (slot.text (d.text .written)) = view source (slot.text [])) ↔ ¬ d.HasObject) ∧
      (¬ d.HasComment → ∀ before behind outer, Place.text.after before = .list outer →
        d.Fits behind → ∀ source,
          view source (String.ofList (before ++ (d.text .written ++ behind))) =
            view source (String.ofList (before ++ behind))) := by
  refine ⟨⟨fun h hobject => ?_, fun hd slot hfits source => view_slot slot hd hfits source⟩,
    fun hcomment before behind outer hplace hfits source =>
      view_list hplace hcomment hfits source⟩
  obtain ⟨slot, hfits, hne⟩ := exists_slot_ne hobject
  exact hne "" (h slot hfits "")

theorem quoted_letter : Quoted ['a'] := .char (by decide) .nil

/-- The list of a string and a number. -/
def listMarks : List Mark :=
  [.char '[', .literal (.quoted ['a'] quoted_letter), .char ',', .filler (.blank ' ' isBlank_space),
    .char '1', .char ']']

theorem isConstant_listMarks : IsConstant .value listMarks := by
  have hmore : IsConstant .elements [.char ',', .filler (.blank ' ' isBlank_space), .char '1'] :=
    @IsConstant.element [.char ',', .filler (.blank ' ' isBlank_space)] [.char '1'] []
      (by simp [IsIgnored]) (@IsConstant.scalar '1' [] (List.all_eq_true.1 (by decide)))
      (.noElement (by simp [IsIgnored]))
  exact .list (@IsConstant.element [] [.literal _] _ (by simp [IsIgnored]) (.literal _) hmore)

theorem apart_listMarks :
    listMarks.IsChain fun a b => a.isEmptyString = true → b.isLiteral = false := by
  simp [listMarks, Mark.isEmptyString, Mark.isLiteral, Literal.isEmptyString]

def listDefault : Default where
  before := [.blank ' ' isBlank_space]
  behind := [.blank ' ' isBlank_space]
  value := listMarks
  isConstant := isConstant_listMarks
  apart := apart_listMarks

/-- The place behind the first of two fields. -/
def pointSlot : Slot where
  before := "input A \x7b x: [P]".toList
  behind := " y: Int \x7d".toList
  isText := rfl
  front := "input A ".toList
  brace := '\x7b'
  first := " x: [P]".toList
  second := " y: Int ".toList
  rest := []
  clean_before := clean_eq_self (List.all_eq_true.1 (by decide))
  clean_behind := clean_eq_self (List.all_eq_true.1 (by decide))
  isBrace := isPlain_opening
  isPlain_first := List.all_eq_true.1 (by decide)
  isPlain_second := List.all_eq_true.1 (by decide)
  type := ⟨']', by decide, by decide⟩
  head := stops_cons (by decide) _
  next := by
    rw [directiveRun_of_head (by decide)]
    exact stops_cons (by decide) _
  notEnum := by
    intro block hblock hkeyword
    have htext : clean "input A \x7b x: [P]".toList ++ clean " y: Int \x7d".toList =
        keywordText .input ++ ' ' :: (['A'] ++ ([' '] ++
          '\x7b' :: (" x: [P] y: Int ".toList ++ ['\x7d']))) := by
      rw [clean_eq_self (List.all_eq_true.1 (by decide)),
        clean_eq_self (List.all_eq_true.1 (by decide))]
      rfl
    rw [htext, blocks_single .input (by decide) (stops_cons (by decide) _)
      (List.all_eq_true.1 (by decide)) (List.all_eq_true.1 (by decide)),
      List.mem_singleton] at hblock
    rw [hblock] at hkeyword
    cases hkeyword

theorem invisible_default_iff_list :
    listDefault.Fits pointSlot.behind ∧ ¬ listDefault.HasObject ∧ ¬ listDefault.HasComment ∧
      Place.text.after "directive @a(x: [P]".toList = .list 0 ∧
      view "" "input A \x7b x: [P] = [\"a\", 1] y: Int \x7d" =
        view "" "input A \x7b x: [P] y: Int \x7d" ∧
      view "" "directive @a(x: [P] = [\"a\", 1]) on FIELD" =
        view "" "directive @a(x: [P]) on FIELD" := by
  have hfits : ∀ rest, listDefault.Fits rest := fun rest h => by
    simp [listDefault, listMarks, Mark.isEmptyString] at h
  have hobject : ¬ listDefault.HasObject := by simp [Default.HasObject, listDefault, listMarks]
  have hcomment : ¬ listDefault.HasComment := by
    simp [Default.HasComment, Default.marks, listDefault, listMarks]
  refine ⟨hfits _, hobject, hcomment, rfl, ?_, ?_⟩
  · exact (invisible_default_iff listDefault).1.2 hobject pointSlot (hfits _) ""
  · exact (invisible_default_iff listDefault).2 hcomment "directive @a(x: [P]".toList
      ") on FIELD".toList 0 rfl (hfits _) ""

/-- An object as a default value: the whole input is lost. -/
theorem view_object_ne : view "" "input A \x7b x: P = \x7ba: 1\x7d y: Int \x7d" ≠
    view "" "input A \x7b x: P y: Int \x7d" := by
  intro h
  have hkept : Declares .input ['A'] (clean "input A \x7b x: P y: Int \x7d".toList) := by
    rw [clean_eq_self (List.all_eq_true.1 (by decide))]
    have hblocks := @blocks_single .input ['A'] [' '] " x: P y: Int ".toList (by decide)
      (stops_cons (by decide) _) (List.all_eq_true.1 (by decide)) (List.all_eq_true.1 (by decide))
    exact ⟨_, hblocks ▸ List.mem_singleton_self _, rfl, rfl⟩
  rw [declares_input_iff "", ← h, ← declares_input_iff,
    clean_eq_self (List.all_eq_true.1 (by decide))] at hkept
  obtain ⟨block, hblock, -⟩ := hkept
  obtain ⟨before, found, rest, htext, hfound⟩ := exists_of_mem_blocksFrom hblock
  -- no block begins anywhere in the text
  have hnone : ("input A \x7b x: P = \x7ba: 1\x7d y: Int \x7d".toList.tails.all fun found =>
      (block? found).isNone) = true := by decide
  have hat := List.all_eq_true.1 hnone found ((List.mem_tails _ _).2 ⟨before, htext⟩)
  rw [hfound] at hat
  cases hat

end SchemaAccess.Loose
