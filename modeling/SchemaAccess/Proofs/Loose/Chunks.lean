import Mathlib.Data.List.TakeWhile
import SchemaAccess.Proofs.Loose.CleaningLaws
import SchemaAccess.Proofs.Loose.Found
import SchemaAccess.Proofs.Text.Lines
import SchemaAccess.Loose.View

/-!
# Schemas put together from chunks

A schema that ends with a closing brace when cleaned leaves nothing open: no string, no argument
list and no block goes on behind it.  So such chunks can be cleaned and searched one by one.

* `Closes` — a text is empty or ends with a closing brace.
* `clean_append_line` — a chunk is cleaned alike, whatever comes on the next line.
* `blocks_clean_intercalate` — the blocks of chunks on lines are those of the chunks.
* `blocks_perm_of_perm` — in another order the chunks have the same blocks in another order.
-/

namespace SchemaAccess.Loose

open Text

/-! ## Skips that come to an end -/

section Skips

variable {s more : List Char}

/-- A block string that ends is skipped alike, whatever follows. -/
theorem afterBlock_append (h : afterBlock s ≠ []) :
    afterBlock (s ++ more) = afterBlock s ++ more := by
  fun_induction afterBlock s with
  | case1 rest => rw [List.cons_append, List.cons_append, List.cons_append, afterBlock]
  | case2 c rest hquotes ih =>
    -- Two more characters follow, so three quotes are none that `more` completes.
    obtain ⟨d, e, tail, rfl⟩ : ∃ d e tail, rest = d :: e :: tail := by
      rcases rest with _ | ⟨d, _ | ⟨e, tail⟩⟩
      · exact absurd rfl h
      · exact absurd (afterBlock_cons (by simp)) h
      · exact ⟨d, e, tail, rfl⟩
    rw [List.cons_append, afterBlock_cons, ih h]
    rintro ⟨last, hlast⟩
    obtain ⟨rfl, rfl, rfl, -⟩ : '"' = c ∧ '"' = d ∧ '"' = e ∧ last = tail ++ more := by
      simpa using hlast
    exact hquotes tail rfl rfl
  | case3 => exact absurd rfl h

/-- A quoted string that ends is skipped alike, whatever follows. -/
theorem afterQuoted_append (h : afterQuoted s ≠ []) :
    afterQuoted (s ++ more) = afterQuoted s ++ more := by
  fun_induction afterQuoted s with
  | case1 => exact absurd rfl h
  | case2 => exact absurd rfl h
  | case3 c rest ih =>
    rw [List.cons_append, List.cons_append, afterQuoted]
    exact ih h
  | case4 rest => rw [List.cons_append, afterQuoted]
  | case5 rest => rw [List.cons_append, afterQuoted]
  | case6 c rest hlast hescape hquote hline ih =>
    have hbackslash : c ≠ '\\' := by
      rintro rfl
      cases rest with
      | nil => exact hlast rfl rfl
      | cons d rest => exact hescape d rest rfl rfl
    rw [List.cons_append, afterQuoted, ih h]
    · exact fun hc => absurd hc hbackslash
    · exact fun _ _ hc => absurd hc hbackslash
    · exact hquote
    · exact hline

/-- A string that ends is skipped alike, whatever follows. -/
theorem afterString_append (h : afterString s ≠ []) :
    afterString (s ++ more) = afterString s ++ more := by
  by_cases hblock : ['"', '"'] <+: s
  · obtain ⟨rest, rfl⟩ := hblock
    exact afterBlock_append h
  · -- A single quote at the end would leave nothing, so `more` completes no block string either.
    have hmore : ¬ ['"', '"'] <+: s ++ more := by
      rintro ⟨last, hlast⟩
      match s with
      | [] => exact h rfl
      | [c] =>
        obtain ⟨rfl, -⟩ := List.cons.inj hlast
        exact h rfl
      | c :: d :: s =>
        obtain ⟨rfl, rfl, -⟩ : '"' = c ∧ '"' = d ∧ last = s ++ more := by simpa using hlast
        exact hblock (List.prefix_append ['"', '"'] s)
    rw [afterString_of_not_block hblock] at h ⊢
    rw [afterString_of_not_block hmore, afterQuoted_append h]

/-- An argument list that ends is skipped alike, whatever follows. -/
theorem afterGroup_append {outer : Nat} (h : afterGroup outer s ≠ []) :
    afterGroup outer (s ++ more) = afterGroup outer s ++ more := by
  fun_induction afterGroup outer s with
  | case1 outer => exact absurd rfl h
  | case2 outer rest ih =>
    rw [List.cons_append, afterGroup, afterString_append, ih h]
    intro hend
    rw [hend, afterGroup] at h
    exact h rfl
  | case3 outer rest ih => rw [List.cons_append, afterGroup, ih h]
  | case4 rest => rw [List.cons_append, afterGroup]
  | case5 outer rest ih => rw [List.cons_append, afterGroup, ih h]
  | case6 outer c rest hquote hopen hclose ih =>
    rw [List.cons_append, afterGroup, ih h]
    · exact hquote
    · exact hopen
    · exact hclose

end Skips

/-! ## Cleaning -/

/-- A text is empty or ends with a closing brace. -/
def Closes (s : List Char) : Prop := ∀ c, s.getLast? = some c → c = '\x7d'

/-- What ends with a closing brace behind a character ends so without the character, unless that is
all there is. -/
theorem Closes.of_cons {c : Char} {s : List Char} (h : Closes (c :: s)) : Closes s := by
  intro d hd
  refine h d ?_
  rw [List.getLast?_cons, hd]
  rfl

theorem Closes.of_append {front s : List Char} (h : Closes (front ++ s)) : Closes s := by
  intro d hd
  refine h d ?_
  rw [List.getLast?_append, hd]
  rfl

/-- What ends with a closing brace, if anything, has one unless it is empty. -/
theorem Closes.closing_mem {s : List Char} (h : Closes s) (hne : s ≠ []) : '\x7d' ∈ s := by
  have hlast := List.getLast?_eq_some_getLast hne
  rw [h _ hlast] at hlast
  exact List.mem_of_getLast? hlast

/-- What is left of a line behind the characters of a class does not depend on the next line. -/
theorem dropWhile_append_line {p : Char → Bool} (hp : p '\n' = false) (s rest : List Char) :
    (s ++ '\n' :: rest).dropWhile p = s.dropWhile p ++ '\n' :: rest := by
  rw [List.dropWhile_append]
  split
  · next hempty =>
    rw [List.isEmpty_iff.1 hempty, List.dropWhile_cons_of_neg (by simp [hp]), List.nil_append]
  · rfl

/-- An argument list that ends is passed over alike, whatever follows. -/
theorem afterArguments?_append {s after more : List Char} (h : afterArguments? s = some after)
    (hne : after ≠ []) : afterArguments? (s ++ more) = some (after ++ more) := by
  obtain ⟨inner, hinner, rfl⟩ := dropWhile_of_afterArguments? h
  have hdrop : (s ++ more).dropWhile isBlank = '(' :: (inner ++ more) := by
    rw [List.dropWhile_append, hinner]
    rfl
  rw [afterArguments?, hdrop]
  simp only [afterGroup_append hne]

/-- Where something that is no argument list stands behind white space, none stands there either
when more text follows. -/
theorem NoList.append {s : List Char} (h : NoList s) (hne : s.dropWhile isBlank ≠ [])
    (more : List Char) : NoList (s ++ more) := by
  obtain ⟨c, tail, hs⟩ := List.exists_cons_of_ne_nil hne
  rw [NoList, hs] at h
  rw [NoList, List.dropWhile_append, hs]
  exact h

/-- Where the space that a skip leaves does not end the cleaned text, the skip ends within it. -/
theorem Closes.ne_nil {s : List Char} (h : Closes (' ' :: clean s)) : s ≠ [] := by
  rintro rfl
  rw [clean_nil] at h
  exact absurd (h ' ' rfl) (by decide)

/-- Where a directive does not end the cleaned text, more than white space stands behind it. -/
theorem Closes.dropWhile_ne_nil {name s : List Char} (h : Closes ('@' :: name ++ clean s))
    (hname : ∀ c ∈ name, isDirectiveChar c = true) : s.dropWhile isBlank ≠ [] := by
  intro hblank
  have hbehind := List.dropWhile_eq_nil_iff.1 hblank
  rw [clean_blanks hbehind] at h
  rcases List.mem_append.1 (h.closing_mem (by simp)) with hclosing | hclosing
  · rcases List.mem_cons.1 hclosing with hclosing | hclosing
    · exact absurd hclosing (by decide)
    · exact absurd (hname _ hclosing) (by decide)
  · exact absurd (hbehind _ hclosing) (by decide)

/-- A text whose cleaned form leaves nothing open is cleaned alike, whatever comes on the next
line. -/
theorem clean_append_line {s : List Char} (h : Closes (clean s)) (rest : List Char) :
    clean (s ++ '\n' :: rest) = clean s ++ '\n' :: clean rest := by
  -- Each skip has to end within `s`, or the cleaned text would end with the space that it leaves.
  fun_induction clean s with
  | case1 => exact clean_char (by decide) rest
  | case2 s ih =>
    rw [List.cons_append, clean_hash, dropWhile_append_line (by decide), ih h]
  | case3 s ih =>
    rw [List.cons_append, clean_quote, afterString_append h.ne_nil, ih h.of_cons,
      List.cons_append]
  | case4 s ihList ih =>
    have hname : ∀ c ∈ s.takeWhile isDirectiveChar, isDirectiveChar c = true :=
      fun c hc => List.mem_takeWhile_imp hc
    have hline : isDirectiveChar '\n' = false := by decide
    have htext : '@' :: s ++ '\n' :: rest = '@' :: s.takeWhile isDirectiveChar ++
        (s.dropWhile isDirectiveChar ++ '\n' :: rest) := by
      rw [List.cons_append, List.cons_append, ← List.append_assoc, List.takeWhile_append_dropWhile]
    have hstop : Stops isDirectiveChar (s.dropWhile isDirectiveChar ++ '\n' :: rest) := by
      rw [← dropWhile_append_line hline]
      exact stops_dropWhile isDirectiveChar _
    rw [htext]
    split at h
    · next after hafter =>
      have hend : Closes (' ' :: clean after) := h.of_append
      rw [clean_at_list hname hstop (afterArguments?_append hafter hend.ne_nil),
        ihList after hafter hend.of_cons, List.append_assoc]
      rfl
    · next hafter =>
      -- Only behind white space could an argument list begin on the next line.
      have hmore := h.dropWhile_ne_nil hname
      have hnone := ((noList_of_afterArguments? hafter).append hmore ('\n' :: rest)).afterArguments?
      rw [clean_at hname hstop hnone, ih h.of_append]
      rw [List.append_assoc]
  | case5 c s hhash hquote hat ih =>
    have hordinary : isOrdinary c = true := isOrdinary_iff.2 ⟨hhash, hquote, hat⟩
    rw [List.cons_append, clean_char hordinary, ih h.of_cons, List.cons_append]

/-! ## Chunks on lines -/

/-- A chunk is a text that ends with a closing brace when it is cleaned. -/
def IsChunk (text : String) : Prop := (clean text.toList).getLast? = some '\x7d'

theorem IsChunk.closes {text : String} (h : IsChunk text) : Closes (clean text.toList) := by
  intro c hc
  rw [h, Option.some.injEq] at hc
  exact hc.symm

/-- The blocks of a chunk are found apart from those behind it. -/
theorem IsChunk.blocks_append {text : String} (h : IsChunk text) (rest : List Char) :
    blocks (clean text.toList ++ '\n' :: rest) = blocks (clean text.toList) ++ blocks rest := by
  obtain ⟨front, hfront⟩ := List.getLast?_eq_some_iff.1 h
  have hline : blocks ('\n' :: rest) = blocks rest :=
    blocksFrom_between (List.forall_mem_singleton.2 (show isWord '\n' = false by decide))
  rw [hfront, List.append_assoc, List.singleton_append, blocks, blocksFrom_append_closing, hline]
  rfl

/-- The blocks of chunks on lines are those of the chunks, one after the other. -/
theorem blocks_clean_intercalate : ∀ {chunks : List String}, (∀ chunk ∈ chunks, IsChunk chunk) →
    blocks (clean ("\n".intercalate chunks).toList) =
      chunks.flatMap fun chunk => blocks (clean chunk.toList)
  | [], _ => by
      show blocks (clean []) = []
      rw [clean_nil, blocks, blocksFrom.eq_1]
  | [chunk], _ => by
      rw [List.flatMap_cons, List.flatMap_nil, List.append_nil]
      rfl
  | chunk :: next :: chunks, h => by
      have hfirst := h chunk List.mem_cons_self
      rw [Text.toList_intercalate_cons, clean_append_line hfirst.closes, hfirst.blocks_append,
        blocks_clean_intercalate fun other ho => h other (List.mem_cons_of_mem _ ho)]
      rfl

/-- Chunks in another order have the same blocks in another order. -/
theorem blocks_perm_of_perm {chunks others : List String} (h : chunks.Perm others)
    (hchunks : ∀ chunk ∈ chunks, IsChunk chunk) :
    (blocks (clean ("\n".intercalate chunks).toList)).Perm
      (blocks (clean ("\n".intercalate others).toList)) := by
  rw [blocks_clean_intercalate hchunks,
    blocks_clean_intercalate fun chunk hc => hchunks chunk (h.mem_iff.2 hc)]
  exact h.flatMap_right _

/-! ## Two chunks

Two types that come out as models, which later files put together in several ways.  Both are one
text with a name in it, so what cleaning and searching make of them is shown once. -/

def blogType : String := "type Blog @model { id: ID! }"

def postType : String := "type Post @model { id: ID! }"

/-- The block that a search finds in the text of such a model. -/
def blockOf (name : String) : Block := ⟨.type, name.toList, " @model ".toList, " id: ID! ".toList⟩

/-- The text of a model of that name, with an identifier for its only field. -/
def modelText (name : List Char) : List Char :=
  keywordText .type ++ ' ' :: (name ++ (" @model ".toList ++
    '\x7b' :: (" id: ID! ".toList ++ ['\x7d'])))

/-- **The text of a model is not changed by cleaning.**  Everything around its directive is
ordinary, and the directive has no arguments. -/
theorem clean_modelText {name : List Char} (hname : IsName name) :
    clean (modelText name) = modelText name := by
  have hfront : ∀ c ∈ "type ".toList ++ (name ++ [' ']), isOrdinary c = true := by
    intro c hc
    rcases List.mem_append.1 hc with hc | hc
    · exact List.all_eq_true.1 (by decide : "type ".toList.all isOrdinary = true) c hc
    rcases List.mem_append.1 hc with hc | hc
    · exact isOrdinary_of_class (forall_mem_eq_false (by decide)) (isNameChar_of_mem hname hc)
    · obtain rfl := List.mem_singleton.1 hc
      decide
  have hbehind : ∀ c ∈ " \x7b id: ID! \x7d".toList, isOrdinary c = true :=
    List.all_eq_true.1 (by decide)
  have hstop : Stops isDirectiveChar " \x7b id: ID! \x7d".toList := stops_cons (by decide) _
  have hnoList : NoList " \x7b id: ID! \x7d".toList :=
    .blank (by decide) (.cons (by decide) (by decide) _)
  have htext : modelText name = ("type ".toList ++ (name ++ [' '])) ++
      ('@' :: "model".toList ++ " \x7b id: ID! \x7d".toList) := by
    rw [List.append_assoc, List.append_assoc]
    rfl
  rw [htext, clean_append hfront, clean_directive (by decide) hstop hnoList.afterArguments?,
    clean_eq_self hbehind]

/-- A search finds one block in it, and that is all. -/
theorem blocks_modelText {name : List Char} (hname : IsName name) :
    blocks (modelText name) = [⟨.type, name, " @model ".toList, " id: ID! ".toList⟩] :=
  blocks_single .type hname (stops_cons (by decide) _) (List.all_eq_true.1 (by decide))
    (List.all_eq_true.1 (by decide))

theorem getLast?_modelText (name : List Char) : (modelText name).getLast? = some '\x7d' := by
  simp [modelText, List.getLast?_append, List.getLast?_cons]

theorem blocks_blogType : blocks (clean blogType.toList) = [blockOf "Blog"] := by
  change blocks (clean (modelText "Blog".toList)) = _
  rw [clean_modelText (by decide), blocks_modelText (by decide), blockOf]

theorem blocks_postType : blocks (clean postType.toList) = [blockOf "Post"] := by
  change blocks (clean (modelText "Post".toList)) = _
  rw [clean_modelText (by decide), blocks_modelText (by decide), blockOf]

theorem isChunk_blogType : IsChunk blogType := by
  change (clean (modelText "Blog".toList)).getLast? = _
  rw [clean_modelText (by decide), getLast?_modelText]

theorem isChunk_postType : IsChunk postType := by
  change (clean (modelText "Post".toList)).getLast? = _
  rw [clean_modelText (by decide), getLast?_modelText]

end SchemaAccess.Loose
