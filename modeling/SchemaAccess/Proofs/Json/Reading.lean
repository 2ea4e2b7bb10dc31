import Mathlib.Data.List.TakeWhile
import Mathlib.Tactic.Common
import SchemaAccess.Json.Reader

/-!
# Reading what was written

A value without numbers is read back from its text under every layout, and reading stops where the
text of the value ends.  The one condition is that the reader may open as many brackets as the value
nests.

* `stringBody_quoted` — a string is read back, whatever characters it has.
* `foldItems_itemsText` — the loop under lists and objects goes through the texts of the items.
* `Fits` — values without numbers that nest no deeper than allowed.
* `value_print` — such a value is read back.
-/

namespace SchemaAccess.Json

namespace Reader

/-! ## Strings

The writer escapes a character in one of three ways: with a letter, with its number, or not at all.
The reader takes each of them back, so a string is read back whatever its characters are. -/

/-- The four digits that are written for a control character are read as its number.  There are 32
of them, so this is checked by evaluation. -/
theorem hexNumber?_control : ∀ n : Fin 32,
    Text.hexNumber? ['0', '0', Text.hexDigit (n / 16), Text.hexDigit (n % 16)] = some n.val := by
  decide

/-- The number of a control character stands for it. -/
theorem unicodeEscape_control {c : Char} (h : c.toNat < 0x20) (rest : List Char) :
    unicodeEscape ('0' :: '0' :: Text.hexDigit (c.toNat / 16) :: Text.hexDigit (c.toNat % 16) ::
      rest) = .ok (c, rest) := by
  have hunit := hexNumber?_control ⟨c.toNat, h⟩
  rw [unicodeEscape, codeUnit, hunit]
  simp only
  rw [if_neg (by omega), if_pos (by omega), Char.ofNat_toNat]

/-- **What is written for a character is read as the character.**  The cases are those of the
writer: the characters with a letter of their own, the other control characters, and all that are
written as they are. -/
theorem stringBody_escaped (c : Char) (rest : List Char) :
    stringBody .keeping (escaped c ++ rest) =
      (stringBody .keeping rest).map fun body => (c :: body.1, body.2) := by
  have hescape : ∀ {tail : List Char}, escape .keeping (tail ++ rest) = .ok (c, rest) →
      stringBody .keeping ('\\' :: tail ++ rest) =
        (stringBody .keeping rest).map fun body => (c :: body.1, body.2) := by
    intro tail htail
    have hle : rest.length ≤ (tail ++ rest).length := by simp
    rw [List.cons_append, stringBody, htail]
    simp only
    rw [if_pos hle]
  unfold escaped
  split
  · next h => subst h; exact hescape rfl
  split
  · next h => subst h; exact hescape rfl
  split
  · next h => subst h; exact hescape rfl
  split
  · next h => subst h; exact hescape rfl
  split
  · next h => subst h; exact hescape rfl
  split
  · next h => subst h; exact hescape rfl
  split
  · next h => subst h; exact hescape rfl
  split
  · next h => exact hescape (unicodeEscape_control h rest)
  · next hquote hbackslash _ _ _ _ _ hcontrol =>
    rw [List.singleton_append, stringBody, if_neg hcontrol]
    · exact hquote
    · exact hbackslash

/-- A string is read up to the quote that closes it, by induction on its characters with
`stringBody_escaped` for each.  An escaped quote is no end, for it is read together with its
backslash. -/
theorem stringBody_quoted (s rest : List Char) :
    stringBody .keeping (s.flatMap escaped ++ '"' :: rest) = .ok (s, rest) := by
  induction s with
  | nil => rw [List.flatMap_nil, List.nil_append, stringBody]
  | cons c s ih =>
    rw [List.flatMap_cons, List.append_assoc, stringBody_escaped, ih]
    rfl

theorem keyName_quoted (name : String) (rest : List Char) :
    keyName .keeping (quoted name.toList ++ rest) = .ok (name, rest) := by
  rw [quoted, List.append_assoc, List.cons_append, List.singleton_append, keyName,
    stringBody_quoted]
  simp [Except.map]

/-! ## Items

Arrays and objects are read by one loop, which differs in the closing bracket and in what is done
with an item.  So the loop is treated once, for any items that a step can read, and both kinds of
values are cases of `foldItems_itemsText`. -/

/-- White space in front of a text is passed over. -/
theorem skipSpace_append {space : List Char} (h : ∀ c ∈ space, isSpace c = true)
    (rest : List Char) : skipSpace (space ++ rest) = skipSpace rest :=
  List.dropWhile_append_of_pos h

/-- The text begins with a character at which neither white space nor a list ends. -/
def Opens (s : List Char) : Prop :=
  ∃ c rest, s = c :: rest ∧ isSpace c = false ∧ c ≠ ']' ∧ c ≠ '\x7d'

theorem skipSpace_cons {c : Char} (h : isSpace c = false) (rest : List Char) :
    skipSpace (c :: rest) = c :: rest :=
  List.dropWhile_cons_of_neg (by simp [h])

/-- In front of such a text there is nothing to pass over, whatever follows it. -/
theorem Opens.skipSpace_append {s : List Char} (h : Opens s) (rest : List Char) :
    skipSpace (s ++ rest) = s ++ rest := by
  obtain ⟨c, more, rfl, hc, -⟩ := h
  exact skipSpace_cons hc (more ++ rest)

section Items

variable {σ β : Type}

/-- The texts of items behind the first one, and the closing bracket. -/
def moreText (text : β → List Char) (before after : List Char) (close : Char) :
    List β → List Char
  | [] => after ++ [close]
  | item :: items => ',' :: before ++ text item ++ moreText text before after close items

/-- The texts of items, and the closing bracket. -/
def itemsText (text : β → List Char) (before after : List Char) (close : Char) :
    List β → List Char
  | [] => [close]
  | item :: items => before ++ text item ++ moreText text before after close items

/-- The items may be changed before they are written or while they are. -/
theorem moreText_map {γ : Type} (text : β → List Char) (before after : List Char) (close : Char)
    (f : γ → β) (items : List γ) :
    moreText text before after close (items.map f) =
      moreText (fun item => text (f item)) before after close items := by
  induction items with
  | nil => rfl
  | cons item items ih => rw [List.map_cons, moreText, moreText, ih]

theorem itemsText_map {γ : Type} (text : β → List Char) (before after : List Char) (close : Char)
    (f : γ → β) (items : List γ) :
    itemsText text before after close (items.map f) =
      itemsText (fun item => text (f item)) before after close items := by
  cases items with
  | nil => rfl
  | cons item items => rw [List.map_cons, itemsText, itemsText, moreText_map]

/-- A step reads the text of an item. -/
def StepReads (step : σ → Reader σ) (next : σ → β → σ) (text : β → List Char) (item : β) : Prop :=
  Opens (text item) ∧ ∀ acc rest, step acc (text item ++ rest) = .ok (next acc item, rest)

variable {step : σ → Reader σ} {next : σ → β → σ} {text : β → List Char}
  {before after : List Char} {close : Char}

/-- **The loop goes through the texts of items that the step reads**, once it has begun with one.
By induction on the items behind it.  Behind each the loop finds a comma or the closing bracket, and
`Opens` keeps it from taking the next item for an end. -/
theorem foldMore_moreText (hbefore : ∀ c ∈ before, isSpace c = true)
    (hafter : ∀ c ∈ after, isSpace c = true) (hclose : close = ']' ∨ close = '\x7d')
    {item : β} {items : List β} (hread : ∀ other ∈ item :: items, StepReads step next text other)
    (acc : σ) (rest : List Char) :
    foldMore close step acc (text item ++ (moreText text before after close items ++ rest)) =
      .ok ((item :: items).foldl next acc, rest) := by
  induction items generalizing item acc with
  | nil =>
    have hstep := (hread item List.mem_cons_self).2
    have hend : skipSpace (moreText text before after close [] ++ rest) = close :: rest := by
      rw [moreText, List.append_assoc, skipSpace_append hafter]
      rcases hclose with rfl | rfl <;> rfl
    rw [foldMore, hstep]
    simp only
    rw [hend]
    simp only [if_true]
    rfl
  | cons following items ih =>
    have hstep := (hread item List.mem_cons_self).2
    have hopens := (hread following (List.mem_cons_of_mem _ List.mem_cons_self)).1
    have hnext : skipSpace (before ++ (text following ++
        (moreText text before after close items ++ rest))) =
          text following ++ (moreText text before after close items ++ rest) := by
      rw [skipSpace_append hbefore, hopens.skipSpace_append]
    have hcomma : skipSpace (moreText text before after close (following :: items) ++ rest) =
        ',' :: (before ++ (text following ++
          (moreText text before after close items ++ rest))) := by
      simp only [moreText, List.cons_append, List.append_assoc]
      rfl
    have hshort : (text following ++ (moreText text before after close items ++ rest)).length <
        (text item ++ (moreText text before after close (following :: items) ++ rest)).length := by
      simp only [moreText, List.length_append, List.length_cons]
      omega
    have hne : ',' ≠ close := by rcases hclose with rfl | rfl <;> decide
    rw [foldMore, hstep]
    simp only
    rw [hcomma]
    simp only
    rw [if_neg hne, hnext, if_pos ⟨trivial, hshort⟩,
      ih fun other hother => hread other (List.mem_cons_of_mem _ hother)]
    rfl

/-- **The whole loop**, with the case of no items, in which the closing bracket is found at once. -/
theorem foldItems_itemsText (hbefore : ∀ c ∈ before, isSpace c = true)
    (hafter : ∀ c ∈ after, isSpace c = true) (hclose : close = ']' ∨ close = '\x7d')
    {items : List β} (hread : ∀ item ∈ items, StepReads step next text item)
    (acc : σ) (rest : List Char) :
    foldItems close step acc (itemsText text before after close items ++ rest) =
      .ok (items.foldl next acc, rest) := by
  cases items with
  | nil =>
    have hend : skipSpace (itemsText text before after close [] ++ rest) = close :: rest := by
      rcases hclose with rfl | rfl <;> rfl
    rw [foldItems, hend]
    simp
  | cons item items =>
    have hmore := foldMore_moreText hbefore hafter hclose hread acc rest
    obtain ⟨c, tail, htext, hspace, hlist, hobject⟩ := (hread item List.mem_cons_self).1
    have hfirst : skipSpace (itemsText text before after close (item :: items) ++ rest) =
        text item ++ (moreText text before after close items ++ rest) := by
      rw [itemsText, List.append_assoc, List.append_assoc, skipSpace_append hbefore, htext]
      exact skipSpace_cons hspace _
    have hne : c ≠ close := by rcases hclose with rfl | rfl <;> assumption
    rw [foldItems, hfirst]
    rw [htext, List.cons_append] at hmore ⊢
    simp only
    rw [if_neg hne, hmore]

end Items

/-! ## Shapes

What a value is made of is told by its first character behind white space.  These equations take one
step of the reader in each of the shapes that are needed, so that the reader itself is not opened
again. -/

/-- Reads an item of an array behind others. -/
def itemStep (depth : Nat) (items : List Json) : Reader (List Json) := fun s =>
  (value .keeping depth s).map fun item => (items ++ [item.1], item.2)

/-- Reads an entry of an object behind others. -/
def entryStep (depth : Nat) (entries : List (String × Json)) : Reader (List (String × Json)) :=
  fun s =>
    match key .keeping s with
    | .error p => .error p
    | .ok (k, s) => (value .keeping depth s).map fun item => (entries ++ [(k, item.1)], item.2)

/-- Behind a bracket stand the items of an array, read with one bracket less to spare. -/
theorem value_bracket (depth : Nat) (rest : List Char) :
    value .keeping (depth + 1) ('[' :: rest) =
      (foldItems ']' (itemStep depth) [] rest).map fun items => (.array items.1, items.2) := by
  rw [value]
  rfl

/-- Behind a brace stand the entries of an object, read with one bracket less to spare. -/
theorem value_brace (depth : Nat) (rest : List Char) :
    value .keeping (depth + 1) ('\x7b' :: rest) =
      (foldItems '\x7d' (entryStep depth) [] rest).map
        fun entries => (.object entries.1, entries.2) := by
  rw [value]
  rfl

theorem value_quote (depth : Nat) (rest : List Char) :
    value .keeping depth ('"' :: rest) =
      (stringBody .keeping rest).map fun body => (.string (String.ofList body.1), body.2) := by
  rw [value]
  rfl

/-- White space in front of a value is passed over. -/
theorem value_space {space : List Char} (h : ∀ c ∈ space, isSpace c = true) (depth : Nat)
    (rest : List Char) : value .keeping depth (space ++ rest) = value .keeping depth rest := by
  rw [value, skipSpace_append h, ← value]

/-! ## First characters

Conversely, the value that was read tells how its text began.  A reader that is given more than one
kind of value, such as a name or a mapping, decides by the first character, and this section says
that it decides rightly. -/

theorem exists_of_map_eq_ok {α β : Type} {outcome : Except Problem α} {f : α → β} {b : β}
    (h : outcome.map f = .ok b) : ∃ a, f a = b := by
  cases outcome with
  | error p => cases h
  | ok a => exact ⟨a, Except.ok.inj h⟩

/-- A value begins as its shape demands: with a quote only if it is a string, and with a brace only
if it is an object. -/
def BeginsAs (s : List Char) (found : Json) : Prop :=
  (s.head? = some '"' ↔ ∃ text, found = .string text) ∧
    (s.head? = some '\x7b' ↔ ∃ entries, found = .object entries)

theorem exists_number_of_number {care : Care} {s rest : List Char} {found : Json}
    (h : number care s = .ok (found, rest)) : ∃ literal, found = .number literal := by
  simp only [number, bind, Except.bind] at h
  repeat' split at h
  all_goals cases h
  exact ⟨_, rfl⟩

/-- A value that is neither an array nor an object begins with a quote if it is a string, and with
something else if it is not. -/
theorem beginsAs_of_scalar {care : Care} {s rest : List Char} {found : Json}
    (hbrace : s.head? ≠ some '\x7b') (h : scalar care s = .ok (found, rest)) :
    BeginsAs s found := by
  unfold scalar at h
  split at h
  · cases h
  · obtain ⟨_, hfound⟩ := exists_of_map_eq_ok h
    cases hfound
    simp [BeginsAs]
  · obtain ⟨_, hfound⟩ := exists_of_map_eq_ok h
    cases hfound
    simp [BeginsAs]
  · obtain ⟨_, hfound⟩ := exists_of_map_eq_ok h
    cases hfound
    simp [BeginsAs]
  · obtain ⟨_, hfound⟩ := exists_of_map_eq_ok h
    cases hfound
    simp [BeginsAs]
  · next c more _ _ _ hquote =>
    split at h
    · obtain ⟨literal, rfl⟩ := exists_number_of_number h
      have hne : c ≠ '\x7b' := fun hc => hbrace (by rw [hc]; rfl)
      simp [BeginsAs, show c ≠ '"' from hquote, hne]
    · cases h

/-- **What a value is read from begins as its shape demands.**  The cases are those of the reader,
one for each first character; numbers and words begin with neither a quote nor a brace. -/
theorem beginsAs_of_value {care : Care} {depth : Nat} {s rest : List Char} {found : Json}
    (h : value care depth s = .ok (found, rest)) : BeginsAs (skipSpace s) found := by
  rw [value] at h
  split at h
  · next hs =>
    split at h
    · cases h
    · obtain ⟨_, hfound⟩ := exists_of_map_eq_ok h
      cases hfound
      simp [BeginsAs, hs]
  · next hs =>
    split at h
    · cases h
    · obtain ⟨_, hfound⟩ := exists_of_map_eq_ok h
      cases hfound
      simp [BeginsAs, hs]
  · next hbrace =>
    refine beginsAs_of_scalar (fun hhead => ?_) h
    obtain ⟨more, hmore⟩ := List.head?_eq_some_iff.1 hhead
    exact hbrace more hmore

end Reader

/-! ## Layouts

A layout is where lines begin and what stands behind a key.  The two layouts that are written,
compact and pretty, put nothing but white space there, and for a layout that does so the printer is
an instance of the texts of the loop. -/

/-- The layout puts only white space between the tokens, and a colon behind each key. -/
structure Layout.IsSpaced (layout : Layout) : Prop where
  lineStart : ∀ depth, ∀ c ∈ layout.lineStart depth, Reader.isSpace c = true
  colon : ∃ space, layout.colon = ':' :: space ∧ ∀ c ∈ space, Reader.isSpace c = true

theorem Layout.isSpaced_compact : Layout.compact.IsSpaced where
  lineStart _ := by simp [Layout.compact]
  colon := ⟨[], rfl, by simp⟩

theorem Layout.isSpaced_pretty : Layout.pretty.IsSpaced where
  lineStart depth c hc := by
    rcases List.mem_cons.1 hc with rfl | hc
    · rfl
    · rw [List.eq_of_mem_replicate hc]
      rfl
  colon := ⟨[' '], rfl, by simp [Reader.isSpace]⟩

variable {layout : Layout} {depth indent : Nat}

/-- The text of an entry of an object. -/
def entryText (layout : Layout) (indent : Nat) (entry : String × Json) : List Char :=
  quoted entry.1.toList ++ (layout.colon ++ print layout indent entry.2)

open Reader

/-- The items of an array behind the first one are printed as the loop reads them. -/
theorem printItems_eq (items : List Json) :
    printItems layout indent items = moreText (print layout (indent + 1))
      (layout.lineStart (indent + 1)) (layout.lineStart indent) ']' items := by
  induction items with
  | nil => rw [printItems, moreText]
  | cons item items ih => rw [printItems, moreText, ih]

/-- An array is printed as a bracket and the texts of its items. -/
theorem print_array (items : List Json) :
    print layout indent (.array items) = '[' :: itemsText (print layout (indent + 1))
      (layout.lineStart (indent + 1)) (layout.lineStart indent) ']' items := by
  cases items with
  | nil => rw [print, itemsText]
  | cons item items =>
    rw [print, itemsText, printItems_eq]
    simp only [List.cons_append]

theorem printEntries_eq (entries : List (String × Json)) :
    printEntries layout indent entries = moreText (entryText layout (indent + 1))
      (layout.lineStart (indent + 1)) (layout.lineStart indent) '\x7d' entries := by
  induction entries with
  | nil => rw [printEntries, moreText]
  | cons entry entries ih =>
    rw [printEntries, moreText, ih, entryText]
    simp only [List.append_assoc, List.cons_append]

/-- An object is printed as a brace and the texts of its entries, each a key, a colon and a
value. -/
theorem print_object (entries : List (String × Json)) :
    print layout indent (.object entries) = '\x7b' :: itemsText (entryText layout (indent + 1))
      (layout.lineStart (indent + 1)) (layout.lineStart indent) '\x7d' entries := by
  cases entries with
  | nil => rw [print, itemsText]
  | cons entry entries =>
    rw [print, itemsText, printEntries_eq, entryText]
    simp only [List.append_assoc, List.cons_append]

/-! ## Values

The reader refuses to open more than a given number of brackets.  A value that nests no deeper is
read back, and the induction that shows it is on how the value fits. -/

/-- A value without numbers in which at most so many brackets are open at a time. -/
inductive Fits : Nat → Json → Prop
  | null {depth : Nat} : Fits depth .null
  | bool {depth : Nat} (b : Bool) : Fits depth (.bool b)
  | string {depth : Nat} (s : String) : Fits depth (.string s)
  | array {depth : Nat} {items : List Json} (fits : ∀ item ∈ items, Fits depth item) :
      Fits (depth + 1) (.array items)
  | object {depth : Nat} {entries : List (String × Json)}
      (fits : ∀ entry ∈ entries, Fits depth entry.2) : Fits (depth + 1) (.object entries)

/-- A printed value begins with a character at which neither white space nor a list ends, so the
loop does not stop in front of it. -/
theorem Fits.opens_print {value : Json} (h : Fits depth value) (indent : Nat) :
    Opens (print layout indent value) := by
  cases h with
  | null => exact ⟨'n', _, by rw [print], by decide⟩
  | bool b =>
    cases b with
    | true => exact ⟨'t', _, by rw [print], by decide⟩
    | false => exact ⟨'f', _, by rw [print], by decide⟩
  | string s => exact ⟨'"', _, by rw [print, quoted, List.cons_append], by decide⟩
  | array fits => exact ⟨'[', _, print_array _, by decide⟩
  | object fits => exact ⟨'\x7b', _, print_object _, by decide⟩

theorem foldl_snoc {β : Type} (items acc : List β) :
    items.foldl (fun acc item => acc ++ [item]) acc = acc ++ items := by
  rw [List.foldl_append_eq_append, ← List.flatMap_def, List.flatMap_singleton']

/-- A printed key is read up to its colon; the white space of the layout is left to the value. -/
theorem key_quoted (hlayout : layout.IsSpaced) (name : String) (text rest : List Char) :
    ∃ space, (∀ c ∈ space, isSpace c = true) ∧
      key .keeping (quoted name.toList ++ (layout.colon ++ text) ++ rest) =
        .ok (name, space ++ (text ++ rest)) := by
  obtain ⟨space, hcolon, hspace⟩ := hlayout.colon
  refine ⟨space, hspace, ?_⟩
  have hafter : colon (':' :: (space ++ (text ++ rest))) = .ok (space ++ (text ++ rest)) := rfl
  rw [hcolon, List.append_assoc, List.cons_append, List.cons_append, List.append_assoc, key,
    keyName_quoted]
  simp only
  rw [hafter]
  rfl

/-- **A value without numbers is read back from its text**, under every layout that only puts white
space between the tokens, and what stands behind the text is left.  By induction on the value: for
arrays and objects the induction hypothesis says that the step of the loop reads each item. -/
theorem value_print (hlayout : layout.IsSpaced) {value : Json} (h : Fits depth value)
    (indent : Nat) (rest : List Char) :
    Reader.value .keeping depth (print layout indent value ++ rest) = .ok (value, rest) := by
  induction h generalizing indent rest with
  | null =>
    rw [print, Reader.value]
    rfl
  | bool b =>
    cases b <;>
    · rw [print, Reader.value]
      rfl
  | string s =>
    rw [print, quoted, List.cons_append, List.cons_append, List.append_assoc,
      List.singleton_append, value_quote, stringBody_quoted, Except.map, String.ofList_toList]
  | @array depth items fits ih =>
    have hread : ∀ item ∈ items, StepReads (itemStep depth) (fun items item => items ++ [item])
        (print layout (indent + 1)) item := by
      refine fun item hitem => ⟨(fits item hitem).opens_print (indent + 1), fun acc rest => ?_⟩
      rw [itemStep, ih item hitem]
      rfl
    rw [print_array, List.cons_append, value_bracket,
      foldItems_itemsText (hlayout.lineStart _) (hlayout.lineStart _) (.inl rfl) hread,
      foldl_snoc]
    rfl
  | @object depth entries fits ih =>
    have hread : ∀ entry ∈ entries, StepReads (entryStep depth)
        (fun entries entry => entries ++ [entry]) (entryText layout (indent + 1)) entry := by
      refine fun entry hentry => ⟨⟨'"', _, rfl, by decide⟩, fun acc rest => ?_⟩
      obtain ⟨space, hspace, hkey⟩ :=
        key_quoted hlayout entry.1 (print layout (indent + 1) entry.2) rest
      rw [entryStep, entryText, hkey]
      simp only
      rw [value_space hspace, ih entry hentry]
      rfl
    rw [print_object, List.cons_append, value_brace,
      foldItems_itemsText (hlayout.lineStart _) (hlayout.lineStart _) (.inr rfl) hread,
      foldl_snoc]
    rfl

end SchemaAccess.Json
