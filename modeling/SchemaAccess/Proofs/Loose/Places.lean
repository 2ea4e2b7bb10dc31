import SchemaAccess.Proofs.Loose.CleaningLaws
import SchemaAccess.Proofs.Text.Squeeze

/-!
# Cleaning character by character

Cleaning passes over whole strings, comments and argument lists.  Seen from one character, all that
matters is where it stands: `Place` says what the text before it has left open.  One step takes a
place and a character to the next place and what remains of the character.  White space behind the
name of a directive remains, although cleaning drops it before an argument list, so the output of a
run is the cleaned text up to white space only.

* `Place`, `Place.step` — where a character stands, and what it does there.
* `Place.after`, `Place.output` — the place behind a text and what remains of the text.
* `output_string`, `output_list`, `output_gap` — what a run does from inside a string, an argument
  list or the gap behind a name.
* `squeeze_clean` — cleaning is the run from outside, up to white space.
-/

namespace SchemaAccess.Loose

open Text

/-! ## Steps

The steps follow the definition of cleaning, with its look-ahead unrolled into places: behind the
first quote of a string it is open which kind of string it is, and behind a name whether a list
follows. -/

/-- Where in a string the next character stands. -/
inductive Quote where
  /-- Behind the quote that opens the string. -/
  | opened
  /-- Behind two quotes: the string is empty, or a third one makes it a block string. -/
  | twice
  | inside
  /-- Behind a backslash. -/
  | escaped
  /-- In a block string, behind a number of quotes. -/
  | block (quotes : Nat)

/-- Where in a schema the next character stands. -/
inductive Place where
  | text
  | comment
  /-- In the name of a directive. -/
  | name
  /-- In white space behind the name of a directive. -/
  | gap
  /-- In the argument list of a directive, with `outer` more groups open around the innermost. -/
  | list (outer : Nat)
  /-- In a string in an argument list or, for `none`, outside of all lists. -/
  | string (around : Option Nat) (quote : Quote)

namespace Place

def behind : Option Nat → Place
  | none => .text
  | some outer => .list outer

def stepText (c : Char) : Place × List Char :=
  if c = '#' then (.comment, [])
  else if c = '"' then (.string none .opened, [' '])
  else if c = '@' then (.name, ['@'])
  else (.text, [c])

def stepGap (c : Char) : Place × List Char :=
  if isBlank c then (.gap, [c])
  else if c = '(' then (.list 0, [' '])
  else stepText c

/-- The place behind the parenthesis that closes the innermost group. -/
def closed : Nat → Place
  | 0 => .text
  | outer + 1 => .list outer

/-- Nothing remains of an argument list. -/
def stepList (outer : Nat) (c : Char) : Place × List Char :=
  if c = '"' then (.string (some outer) .opened, [])
  else if c = '(' then (.list (outer + 1), [])
  else if c = ')' then (closed outer, [])
  else (.list outer, [])

def stepBehind : Option Nat → Char → Place × List Char
  | none, c => stepText c
  | some outer, c => stepList outer c

def stepQuoted (around : Option Nat) (c : Char) : Place × List Char :=
  if c = '"' then (behind around, [])
  else if c = '\n' then stepBehind around '\n'
  else if c = '\\' then (.string around .escaped, [])
  else (.string around .inside, [])

def stepString (around : Option Nat) : Quote → Char → Place × List Char
  | .opened, c => if c = '"' then (.string around .twice, []) else stepQuoted around c
  | .twice, c => if c = '"' then (.string around (.block 0), []) else stepBehind around c
  | .inside, c => stepQuoted around c
  | .escaped, _ => (.string around .inside, [])
  | .block quotes, c =>
    if c = '"' then
      if quotes = 2 then (behind around, []) else (.string around (.block (quotes + 1)), [])
    else (.string around (.block 0), [])

/-- The place behind a character, and what remains of the character. -/
def step : Place → Char → Place × List Char
  | text, c => stepText c
  | comment, c => if c = '\n' then (.text, ['\n']) else (.comment, [])
  | name, c => if isDirectiveChar c then (.name, [c]) else stepGap c
  | gap, c => stepGap c
  | list outer, c => stepList outer c
  | string around quote, c => stepString around quote c

/-! ## Runs -/

/-- The place behind a text. -/
def after (p : Place) (s : List Char) : Place := s.foldl (fun p c => (p.step c).1) p

/-- What remains of a text. -/
def output : Place → List Char → List Char
  | _, [] => []
  | p, c :: s => (p.step c).2 ++ (p.step c).1.output s

theorem after_cons (p : Place) (c : Char) (s : List Char) :
    p.after (c :: s) = (p.step c).1.after s := rfl

theorem after_append (p : Place) (s t : List Char) : p.after (s ++ t) = (p.after s).after t :=
  List.foldl_append

theorem after_ordinary {s : List Char} (h : ∀ c ∈ s, isOrdinary c = true) :
    text.after s = text := by
  induction s with
  | nil => rfl
  | cons c s ih =>
    have hc := h c List.mem_cons_self
    obtain ⟨hhash, hquote, hat⟩ := isOrdinary_iff.1 hc
    rw [after_cons, step, stepText, if_neg hhash, if_neg hquote, if_neg hat]
    exact ih fun d hd => h d (List.mem_cons_of_mem c hd)

theorem output_cons (p : Place) (c : Char) (s : List Char) :
    p.output (c :: s) = (p.step c).2 ++ (p.step c).1.output s := rfl

theorem output_append (p : Place) (s t : List Char) :
    p.output (s ++ t) = p.output s ++ (p.after s).output t := by
  induction s generalizing p with
  | nil => rfl
  | cons c s ih =>
    rw [List.cons_append, output_cons, output_cons, after_cons, ih, List.append_assoc]

/-! ## Strings -/

theorem step_behind (around : Option Nat) (c : Char) :
    (behind around).step c = stepBehind around c := by
  cases around <;> rfl

theorem output_inside (around : Option Nat) (s : List Char) :
    (string around .inside).output s = (behind around).output (afterQuoted s) := by
  fun_induction afterQuoted s with
  | case1 => rfl
  | case2 => rfl
  | case3 c rest ih => exact ih
  | case4 rest => rfl
  | case5 rest =>
    rw [output_cons, output_cons, step_behind]
    rfl
  | case6 c rest hlast hbackslash hquote hfeed ih =>
    have hstep : (string around .inside).step c = (.string around .inside, []) := by
      rw [step, stepString, stepQuoted, if_neg hquote, if_neg hfeed, if_neg]
      rintro rfl
      cases rest with
      | nil => exact hlast rfl rfl
      | cons d rest => exact hbackslash d rest rfl rfl
    rw [output_cons, hstep]
    exact ih

/-- Less than three quotes do not end a block string. -/
theorem afterBlock_quotes {quotes : Nat} (h : quotes ≤ 2) {c : Char} (hc : c ≠ '"')
    (s : List Char) : afterBlock (List.replicate quotes '"' ++ c :: s) = afterBlock s := by
  rcases (by omega : quotes = 0 ∨ quotes = 1 ∨ quotes = 2) with rfl | rfl | rfl
  · exact afterBlock_cons (by simp [hc.symm])
  · exact (afterBlock_cons (by simp [hc.symm])).trans (afterBlock_cons (by simp [hc.symm]))
  · exact (afterBlock_cons (by simp [hc.symm])).trans
      ((afterBlock_cons (by simp [hc.symm])).trans (afterBlock_cons (by simp [hc.symm])))

/-- The quotes already seen may belong to the three that end a block string. -/
theorem output_block (around : Option Nat) {quotes : Nat} (h : quotes ≤ 2) (s : List Char) :
    (string around (.block quotes)).output s =
      (behind around).output (afterBlock (List.replicate quotes '"' ++ s)) := by
  induction s generalizing quotes with
  | nil =>
    have : afterBlock (List.replicate quotes '"' ++ []) = [] := by
      rcases (by omega : quotes = 0 ∨ quotes = 1 ∨ quotes = 2) with rfl | rfl | rfl <;> rfl
    rw [this]
    rfl
  | cons c s ih =>
    by_cases hc : c = '"'
    · subst hc
      by_cases htwo : quotes = 2
      · subst htwo
        rfl
      · rw [output_cons, step, stepString, if_pos rfl, if_neg htwo, ih (by omega),
          List.replicate_succ', List.append_assoc]
        rfl
    · rw [output_cons, step, stepString, if_neg hc, afterBlock_quotes h hc]
      exact ih (Nat.zero_le 2)

/-- **The output behind the quote that opens a string is that of the text behind the string.**  The
cases are the kinds of strings and the ways in which they end, one of which is the end of a line. -/
theorem output_string (around : Option Nat) (s : List Char) :
    (string around .opened).output s = (behind around).output (afterString s) := by
  cases s with
  | nil => rfl
  | cons c s =>
    by_cases hc : c = '"'
    · subst hc
      cases s with
      | nil => rfl
      | cons d s =>
        by_cases hd : d = '"'
        · subst hd
          exact output_block around (Nat.zero_le 2) s
        · have hempty : afterString ('"' :: d :: s) = d :: s := by
            rw [afterString, afterQuoted]
            simp [hd]
          have hstep : (string around .twice).step d = stepBehind around d := by
            rw [step, stepString, if_neg hd]
          rw [hempty, output_cons (behind around), step_behind, ← hstep]
          rfl
    · have hquoted : afterString (c :: s) = afterQuoted (c :: s) := by
        rw [afterString]
        simp [hc]
      have hstep : (string around .opened).step c = (string around .inside).step c := by
        rw [step, stepString, if_neg hc]
        rfl
      rw [hquoted, ← output_inside, output_cons, output_cons, hstep]

/-! ## Argument lists, comments and gaps -/

/-- **The output in an argument list is that of the text behind the list**, by induction on the text
along the skip of the group. -/
theorem output_list (outer : Nat) (s : List Char) :
    (list outer).output s = text.output (afterGroup outer s) := by
  fun_induction afterGroup outer s with
  | case1 => rfl
  | case2 outer rest ih =>
    rw [← ih]
    exact output_string (some outer) rest
  | case3 outer rest ih => exact ih
  | case4 rest => rfl
  | case5 outer rest ih => exact ih
  | case6 outer c rest hquote hopen hclose ih =>
    rw [output_cons, step, stepList, if_neg hquote, if_neg hopen, if_neg hclose]
    exact ih

/-- In an argument list, a text without quotes and parentheses is passed over. -/
theorem output_list_of_class {p : Char → Bool} (hp : ∀ d ∈ ['"', '(', ')'], p d = false)
    (outer : Nat) {s : List Char} (h : ∀ c ∈ s, p c = true) (rest : List Char) :
    (list outer).output (s ++ rest) = (list outer).output rest := by
  induction s with
  | nil => rfl
  | cons c s ih =>
    have hc : ∀ d ∈ ['"', '(', ')'], c ≠ d := fun d hd =>
      ne_of_class (h c List.mem_cons_self) (hp d hd)
    rw [List.cons_append, output_cons, step, stepList, if_neg (hc _ (by simp)),
      if_neg (hc _ (by simp)), if_neg (hc _ (by simp))]
    exact ih fun d hd => h d (List.mem_cons_of_mem c hd)

/-- A comment goes up to its line feed, which is put out. -/
theorem output_comment (s : List Char) :
    comment.output s = text.output (s.dropWhile (· ≠ '\n')) := by
  induction s with
  | nil => rfl
  | cons c s ih =>
    by_cases hc : c = '\n'
    · subst hc
      rfl
    · rw [List.dropWhile_cons_of_pos (by simpa using hc), ← ih, output_cons, step, if_neg hc]
      rfl

/-- The name of a directive is put out, and then the gap behind it begins. -/
theorem output_name (s : List Char) :
    name.output s =
      s.takeWhile isDirectiveChar ++ gap.output (s.dropWhile isDirectiveChar) := by
  induction s with
  | nil => rfl
  | cons c s ih =>
    by_cases hc : isDirectiveChar c = true
    · rw [List.takeWhile_cons_of_pos hc, List.dropWhile_cons_of_pos hc, List.cons_append, ← ih,
        output_cons, step, if_pos hc]
      rfl
    · rw [List.takeWhile_cons_of_neg hc, List.dropWhile_cons_of_neg hc, output_cons, step,
        if_neg hc]
      rfl

/-- White space behind the name of a directive remains. -/
theorem output_gap_append {blank : List Char} (hb : ∀ c ∈ blank, isBlank c = true)
    (rest : List Char) : gap.output (blank ++ rest) = blank ++ gap.output rest := by
  induction blank with
  | nil => rfl
  | cons c blank ih =>
    rw [List.cons_append, output_cons, step, stepGap, if_pos (hb c List.mem_cons_self),
      ih fun d hd => hb d (List.mem_cons_of_mem c hd)]
    rfl

/-- White space in front of an argument list has been put out already when the list is met.  Here
the run differs from cleaning, by white space in front of a space. -/
theorem output_gap_list {s rest : List Char} (h : s.dropWhile isBlank = '(' :: rest) :
    gap.output s = s.takeWhile isBlank ++ ' ' :: (list 0).output rest := by
  conv_lhs => rw [← List.takeWhile_append_dropWhile (p := isBlank) (l := s), h]
  rw [output_gap_append fun c hc => List.mem_takeWhile_imp hc]
  rfl

/-- White space is put out in the text. -/
theorem output_text_blank {blank : List Char} (hb : ∀ c ∈ blank, isBlank c = true)
    (rest : List Char) : text.output (blank ++ rest) = blank ++ text.output rest := by
  induction blank with
  | nil => rfl
  | cons c blank ih =>
    have hc := hb c List.mem_cons_self
    rw [List.cons_append, output_cons, step, stepText, if_neg (ne_of_class hc (by decide)),
      if_neg (ne_of_class hc (by decide)), if_neg (ne_of_class hc (by decide)),
      ih fun d hd => hb d (List.mem_cons_of_mem c hd)]
    rfl

/-- Without an argument list behind the name, a gap is not special. -/
theorem output_gap {s : List Char} (h : NoList s) :
    gap.output s = text.output s := by
  have hblank : ∀ c ∈ s.takeWhile isBlank, isBlank c = true := fun c hc =>
    List.mem_takeWhile_imp hc
  rw [← List.takeWhile_append_dropWhile (p := isBlank) (l := s), output_gap_append hblank,
    output_text_blank hblank]
  have hstop := List.head?_dropWhile_not isBlank s
  cases hs : s.dropWhile isBlank with
  | nil => rfl
  | cons c rest =>
    rw [NoList, hs, List.head?_cons, ne_eq, Option.some.injEq] at h
    rw [hs] at hstop
    have hc : isBlank c = false := by simpa using hstop
    rw [output_cons gap, step, stepGap, if_neg (by simp [hc]), if_neg h]
    rfl

end Place

/-- **Cleaning is the run from outside of everything, up to white space.**  By induction on the text
along the recursion of `clean`; what is passed over there is passed over here by the laws of the
sections above. -/
theorem squeeze_clean (s : List Char) :
    squeeze (clean s) = squeeze (Place.text.output s) := by
  fun_induction clean s with
  | case1 => rfl
  | case2 rest ih =>
    rw [ih, ← Place.output_comment]
    rfl
  | case3 rest ih =>
    have hstring : Place.text.output ('"' :: rest) = ' ' :: Place.text.output (afterString rest) :=
      congrArg (' ' :: ·) (Place.output_string none rest)
    rw [hstring]
    exact squeeze_append_congr [' '] ih
  | case4 rest ihList ih =>
    have hname : Place.text.output ('@' :: rest) =
        '@' :: rest.takeWhile isDirectiveChar ++
          Place.gap.output (rest.dropWhile isDirectiveChar) :=
      congrArg ('@' :: ·) (Place.output_name rest)
    rw [hname]
    refine squeeze_append_congr _ ?_
    split
    · next after hafter =>
      obtain ⟨inner, hinner, rfl⟩ := dropWhile_of_afterArguments? hafter
      have hblank : ∀ c ∈ (rest.dropWhile isDirectiveChar).takeWhile isBlank, isBlank c = true :=
        fun c hc => List.mem_takeWhile_imp hc
      rw [Place.output_gap_list hinner, Place.output_list]
      exact (squeeze_append_congr [' '] (ihList _ hafter)).trans
        (squeeze_append_blanks hblank (c := ' ') (by decide) []).symm
    · next hafter =>
      rw [ih, Place.output_gap (noList_of_afterArguments? hafter)]
  | case5 c rest hhash hquote hat ih =>
    have hstep : Place.text.step c = (.text, [c]) := by
      rw [Place.step, Place.stepText, if_neg hhash, if_neg hquote, if_neg hat]
    rw [Place.output_cons, hstep]
    exact squeeze_append_congr [c] ih

end SchemaAccess.Loose
