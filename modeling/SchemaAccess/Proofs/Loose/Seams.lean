import SchemaAccess.Proofs.Loose.Bodies

/-!
# Two texts behind one beginning

What a recogniser takes from the beginning of a text may depend on what stands behind the
beginning.  Where a word, a type or white space does not go on across the seam, only two things
can: a run of directives, and an argument list that is still open.  So the fields in two texts with
one beginning can be compared by what stands behind it.

* `Joint` — a text may stand behind another that ends with a given character.
* `name?_joint`, `typed?_joint`, `param?_joint`, `directiveRun_joint`, `field?_joint` — what is
  recognised before the seam.
* `field?_open` — a field whose argument list goes on across the seam.
* `params_append` — the parameters before a seam and those behind it.
* `Exchange` — texts that can stand for one another behind a beginning; `field?_exchange` at the
  beginning, `fields_exchange` in a whole search.
* `Passed`, `exchange_passed` — behind a type, text that is passed over stands for other such text.
-/

namespace SchemaAccess.Loose

open Text

/-! ## Ends and runs

A search is decided character by character, so the only thing the text before a seam has to tell is
its last character.  These lemmas follow that character through suffixes, and the runs that a
recogniser takes up to the seam. -/

section Runs

variable {p : Char → Bool} {c : Char} {u x : List Char}

/-- A suffix that is not empty ends as the whole text does.  This is how the hypothesis on the last
character comes to every text that is left in the course of a search. -/
theorem getLast?_of_suffix {s : List Char} (h : s <:+ u) (hs : s ≠ [])
    (hu : u.getLast? = some c) : s.getLast? = some c := by
  obtain ⟨front, rfl⟩ := h
  rw [List.getLast?_append, List.getLast?_eq_some_getLast hs, Option.some_or] at hu
  rw [List.getLast?_eq_some_getLast hs, hu]

/-- A run of characters that the last one does not belong to stops before the end. -/
theorem dropWhile_ne_nil (hu : u.getLast? = some c) (hc : p c = false) : u.dropWhile p ≠ [] := by
  intro hnil
  have := List.dropWhile_eq_nil_iff.1 hnil c (List.mem_of_getLast? hu)
  rw [hc] at this
  cases this

/-- What is left behind such a run still ends with the last character. -/
theorem getLast?_dropWhile (hu : u.getLast? = some c) (hc : p c = false) :
    (u.dropWhile p).getLast? = some c :=
  getLast?_of_suffix (List.dropWhile_suffix p) (dropWhile_ne_nil hu hc) hu

/-- **A run ends before the seam, or where the text before the seam does.**  Either the last
character is not of the run, so that the run ends in front of it, or it is, and then what stands
behind the seam stops the run at once.  So what is left has the text behind the seam at its end. -/
theorem dropWhile_joint (hu : u.getLast? = some c) (h : p c = true → Stops p x) :
    (u ++ x).dropWhile p = u.dropWhile p ++ x := by
  rw [List.dropWhile_append]
  split
  · next hempty =>
    have hnil := List.isEmpty_iff.1 hempty
    have hstops := h (List.dropWhile_eq_nil_iff.1 hnil c (List.mem_of_getLast? hu))
    rw [hnil, List.nil_append]
    exact @dropWhile_append_of_stops p [] x (by simp) hstops
  · rfl

/-- The run itself is the same, whatever stands behind the seam: the other half of
`dropWhile_joint`. -/
theorem takeWhile_joint (hu : u.getLast? = some c) (h : p c = true → Stops p x) :
    (u ++ x).takeWhile p = u.takeWhile p := by
  have hsplit : (u ++ x).takeWhile p ++ (u.dropWhile p ++ x) =
      u.takeWhile p ++ (u.dropWhile p ++ x) := by
    rw [← dropWhile_joint hu h, List.takeWhile_append_dropWhile, dropWhile_joint hu h,
      ← List.append_assoc, List.takeWhile_append_dropWhile]
  exact List.append_cancel_right hsplit

/-- Cutting a text off further on does not make a run longer that stops at its beginning. -/
theorem stops_takeWhile {q : Char → Bool} (h : Stops p x) : Stops p (x.takeWhile q) := by
  intro d hd
  cases x with
  | nil => cases hd
  | cons e x =>
    rw [List.takeWhile_cons] at hd
    split at hd
    · exact h d hd
    · cases hd

/-- Every name character is a type character, so what stops a type stops a name. -/
theorem stops_isNameChar (h : Stops isTypeChar x) : Stops isNameChar x := by
  intro d hd
  have := h d hd
  rw [isTypeChar, Bool.or_eq_false_iff, Bool.or_eq_false_iff, Bool.or_eq_false_iff] at this
  exact this.1.1.1

end Runs

/-! ## What is left is the end of the text

Each recogniser leaves a suffix of the text that it was given.  A search goes on with what is left,
so an induction over a search can keep the last character of the text as its invariant. -/

section Suffixes

variable {s rest : List Char}

theorem suffix_of_name? {name : List Char} (h : name? s = some (name, rest)) : rest <:+ s :=
  ⟨name, append_of_name? h⟩

theorem suffix_of_type? {type : List Char} (h : type? s = some (type, rest)) : rest <:+ s := by
  rw [type?] at h
  split at h
  · cases h
  · cases h
    exact List.dropWhile_suffix _

theorem suffix_of_typed? {type : List Char} (h : typed? s = some (type, rest)) : rest <:+ s := by
  rw [typed?] at h
  split at h
  · next inner hs =>
    have hinner : inner <:+ s :=
      (List.suffix_cons ':' inner).trans (hs ▸ List.dropWhile_suffix isBlank)
    exact ((suffix_of_type? h).trans (List.dropWhile_suffix _)).trans hinner
  · cases h

/-- An argument list goes from an opening parenthesis to the first closing one.  This says all that
a text with a list in front can look like, so later proofs need not open the recogniser again. -/
theorem exists_of_parenthesized? {inside : List Char} (h : parenthesized? s = some (inside, rest)) :
    s = '(' :: (inside ++ ')' :: rest) ∧ ')' ∉ inside := by
  rw [parenthesized?.eq_def] at h
  split at h
  · next inner =>
    split at h
    · next after hs =>
      cases h
      rw [← hs, List.takeWhile_append_dropWhile]
      exact ⟨rfl, fun hc => by simpa using List.mem_takeWhile_imp hc⟩
    · cases h
  · cases h

/-- A run of directives and what follows it make up the text. -/
theorem append_directiveRun (s : List Char) : (directiveRun s).1 ++ (directiveRun s).2 = s := by
  fun_induction directiveRun s with
  | case1 s rest hs name after hn more last hr ih =>
    rw [hr] at ih
    calc s.takeWhile isBlank ++ '@' :: name ++ more ++ last
        = s.takeWhile isBlank ++ '@' :: (name ++ (more ++ last)) := by simp
      _ = s.takeWhile isBlank ++ s.dropWhile isBlank := by rw [ih, append_of_name? hn, hs]
      _ = s := List.takeWhile_append_dropWhile
  | case2 => rfl
  | case3 => rfl

/-- Behind a run of directives, the end of the text is left.  The run may be empty, so unlike the
other recognisers this one always leaves something that is told. -/
theorem suffix_directiveRun (s : List Char) : (directiveRun s).2 <:+ s := ⟨_, append_directiveRun s⟩

theorem suffix_of_param? {param : List Char × List Char} (h : param? s = some (param, rest)) :
    rest <:+ s := by
  simp only [param?, bind, Option.bind_eq_some_iff] at h
  obtain ⟨⟨name, afterName⟩, hname, ⟨type, afterType⟩, htype, h⟩ := h
  cases h
  exact (suffix_of_typed? htype).trans (suffix_of_name? hname)

/-- The last thing that a field takes is its run of directives.  What is left behind the field is
what is left behind that run, which begins somewhere in the text. -/
theorem exists_run_of_field? {field : Field} (h : field? s = some (field, rest)) :
    ∃ after, after <:+ s ∧ directiveRun after = (field.directives, rest) := by
  simp only [field?, bind, Option.bind_eq_some_iff] at h
  obtain ⟨⟨name, afterName⟩, hname, ⟨type, afterType⟩, htype, h⟩ := h
  cases h
  have hblank : afterName.dropWhile isBlank <:+ s :=
    (List.dropWhile_suffix _).trans (suffix_of_name? hname)
  refine ⟨afterType, (suffix_of_typed? htype).trans ?_, rfl⟩
  cases hparen : parenthesized? (afterName.dropWhile isBlank) with
  | none => exact hblank
  | some found =>
    obtain ⟨inside, after⟩ := found
    refine List.IsSuffix.trans ⟨'(' :: (inside ++ [')']), ?_⟩ hblank
    simpa using (exists_of_parenthesized? hparen).1.symm

theorem suffix_of_field? {field : Field} (h : field? s = some (field, rest)) : rest <:+ s := by
  obtain ⟨after, hafter, hrun⟩ := exists_run_of_field? h
  have hsuffix := suffix_directiveRun after
  rw [hrun] at hsuffix
  exact hsuffix.trans hafter

/-- A text ends with a directive. -/
def EndsInDirective (s : List Char) : Prop := ∃ name, IsName name ∧ '@' :: name <:+ s

/-- A text with an end that ends with a directive ends with one itself. -/
theorem EndsInDirective.of_suffix {t : List Char} (h : EndsInDirective s) (hs : s <:+ t) :
    EndsInDirective t := by
  obtain ⟨name, hname, hsuffix⟩ := h
  exact ⟨name, hname, hsuffix.trans hs⟩

/-- A run of directives that goes to the end of a text is empty or ends with a directive.  Only then
can directives behind the seam be taken into the run, which is why `Exchange` asks for its
directives in these two cases alone. -/
theorem endsInDirective_of_run (h : (directiveRun s).2 = []) : s = [] ∨ EndsInDirective s := by
  fun_induction directiveRun s with
  | case1 s rest hs name after hn more last hr ih =>
    right
    have hrest : '@' :: rest <:+ s := hs ▸ List.dropWhile_suffix isBlank
    rw [hr] at ih
    rcases ih h with rfl | hends
    · refine ⟨name, isName_of_name? hn, ?_⟩
      rwa [← append_of_name? hn, List.append_nil] at hrest
    · exact hends.of_suffix ((suffix_of_name? hn).trans ((List.suffix_cons '@' rest).trans hrest))
  | case2 => exact .inl h
  | case3 => exact .inl h

/-- The directives of a field at the end of a text are none, or the text ends with a directive. -/
theorem directives_of_field? {field : Field} (h : field? s = some (field, [])) :
    field.directives = [] ∨ EndsInDirective s := by
  obtain ⟨after, hafter, hrun⟩ := exists_run_of_field? h
  have happend := append_directiveRun after
  rw [hrun, List.append_nil] at happend
  rcases endsInDirective_of_run (by rw [hrun]) with hnil | hends
  · exact .inl (happend.trans hnil)
  · exact .inr (hends.of_suffix hafter)

end Suffixes

/-! ## Searches

One step of each search, as equations.  Where a parameter or a field is found, the search goes on
behind it; otherwise it goes on one character further. -/

section Searches

variable {c : Char} {s rest : List Char}

/-- Where a parameter is found, the search for more goes on behind it. -/
theorem params_of_some {param : List Char × List Char} (h : param? s = some (param, rest)) :
    params s = param :: params rest :=
  @occurrences_of_some _ ⟨param?, length_lt_of_param?⟩ s rest param h

theorem params_of_none (h : param? (c :: s) = none) : params (c :: s) = params s :=
  @occurrences_of_none _ ⟨param?, length_lt_of_param?⟩ c s h

/-- Where a field is found, the search for more goes on behind it. -/
theorem fields_of_some {field : Field} (h : field? s = some (field, rest)) :
    fields s = field :: fields rest :=
  @occurrences_of_some _ ⟨field?, length_lt_of_field?⟩ s rest field h

theorem fields_of_none (h : field? (c :: s) = none) : fields (c :: s) = fields s :=
  @occurrences_of_none _ ⟨field?, length_lt_of_field?⟩ c s h

end Searches

/-! ## Recognisers before a seam

Here `u` is a text that ends with the character `c`, and `x` is what stands behind the seam.  If
`Joint c x` holds, then names, types and parameters are recognised in `u ++ x` as they are in `u`,
with `x` behind what is left, `withRest x`.  Each lemma follows the steps of its recogniser. -/

/-- Behind a text that ends with `c` may stand `x`: no word, type or white space goes on across the
seam, and a name at the end does not become the name of a field. -/
structure Joint (c : Char) (x : List Char) : Prop where
  notBlank : isBlank c = false
  notMark : c ∉ [':', '@', ')']
  stops : isTypeChar c = true → Stops isTypeChar x
  next : Stops isOpening (x.dropWhile isBlank)

/-- What is recognised in a text, with more text behind what is left. -/
def withRest {α : Type} (x : List Char) (found : α × List Char) : α × List Char :=
  (found.1, found.2 ++ x)

section Joints

variable {c : Char} {u x : List Char} (h : Joint c x)

include h

theorem Joint.ne_mark {d : Char} (hd : d ∈ [':', '@', ')']) : c ≠ d := by
  rintro rfl
  exact h.notMark hd

/-- Behind the seam no type of a field begins, so a name at the end of the text before it is not the
name of a field. -/
theorem Joint.typed?_eq_none : typed? x = none :=
  typed?_of_head fun hc => absurd (h.next _ hc) (by decide)

/-- A text that may stand behind the seam may do so as far as its first closing parenthesis, which
is what an argument list goes on with if it is open at the seam. -/
theorem Joint.takeWhile : Joint c (x.takeWhile (· ≠ ')')) where
  notBlank := h.notBlank
  notMark := h.notMark
  stops hc := stops_takeWhile (h.stops hc)
  next := by
    rw [← takeWhile_dropWhile_isBlank ne_closing_of_isBlank]
    exact stops_takeWhile h.next

/-- White space is passed over before the seam, since the last character is none. -/
theorem dropWhile_isBlank_joint (hu : u.getLast? = some c) :
    (u ++ x).dropWhile isBlank = u.dropWhile isBlank ++ x :=
  dropWhile_joint hu fun hc => by rw [h.notBlank] at hc; cases hc

/-- **A name is recognised before the seam.**  The last character may belong to the name, but then
what stands behind the seam does not begin with a name character, so the name ends there. -/
theorem name?_joint (hu : u.getLast? = some c) : name? (u ++ x) = (name? u).map (withRest x) := by
  have hstops : isNameChar c = true → Stops isNameChar x := fun hc =>
    stops_isNameChar (h.stops (by rw [isTypeChar, hc]; rfl))
  cases u with
  | nil => cases hu
  | cons d u =>
    rw [List.cons_append, name?, name?]
    cases hd : isNameStart d with
    | false => rfl
    | true =>
      have hchar := isNameChar_of_isNameStart hd
      have htake := takeWhile_joint hu hstops
      have hdrop := dropWhile_joint hu hstops
      rw [List.cons_append, List.takeWhile_cons_of_pos hchar, List.takeWhile_cons_of_pos hchar,
        List.cons.injEq] at htake
      rw [List.cons_append, List.dropWhile_cons_of_pos hchar,
        List.dropWhile_cons_of_pos hchar] at hdrop
      rw [htake.2, hdrop]
      rfl

/-- A type is recognised before the seam, as a name is. -/
theorem type?_joint (hu : u.getLast? = some c) : type? (u ++ x) = (type? u).map (withRest x) := by
  rw [type?, type?, takeWhile_joint hu h.stops, dropWhile_joint hu h.stops]
  cases u.takeWhile isTypeChar <;> rfl

/-- A colon and a type are recognised before the seam.  If the text before it has neither, then none
is found with `x` behind it, by `Joint.typed?_eq_none`. -/
theorem typed?_joint (hu : u.getLast? = some c) :
    typed? (u ++ x) = (typed? u).map (withRest x) := by
  have hlast := getLast?_dropWhile hu h.notBlank
  have hdrop := dropWhile_isBlank_joint h hu
  cases hblank : u.dropWhile isBlank with
  | nil => exact absurd hblank (dropWhile_ne_nil hu h.notBlank)
  | cons d rest =>
    rw [hblank] at hdrop hlast
    by_cases hd : d = ':'
    · subst hd
      have hne : rest ≠ [] := by
        rintro rfl
        exact h.ne_mark (by decide) (Option.some.inj hlast).symm
      have hrest := getLast?_of_suffix (List.suffix_cons ':' rest) hne hlast
      rw [typed?, typed?, hdrop, hblank]
      simp only [List.cons_append]
      rw [dropWhile_isBlank_joint h hrest]
      exact type?_joint h (getLast?_dropWhile hrest h.notBlank)
    · rw [typed?_of_head (by rw [hdrop]; simpa using hd),
        typed?_of_head (by rw [hblank]; simpa using hd)]
      rfl

/-- A parameter is recognised before the seam: a name by `name?_joint`, and a type behind it by
`typed?_joint`. -/
theorem param?_joint (hu : u.getLast? = some c) :
    param? (u ++ x) = (param? u).map (withRest x) := by
  rw [param?, param?, name?_joint h hu]
  cases hname : name? u with
  | none => rfl
  | some found =>
    obtain ⟨name, rest⟩ := found
    simp only [Option.map_some, bind, Option.bind_some, withRest]
    by_cases hrest : rest = []
    · subst hrest
      rw [List.nil_append, h.typed?_eq_none]
      rfl
    · rw [typed?_joint h (getLast?_of_suffix (suffix_of_name? hname) hrest hu)]
      cases typed? rest <;> rfl

/-- **The parameters before a seam and those behind it.**  The search takes what it takes before the
seam, each parameter by `param?_joint`, and arrives at the seam itself, from where it goes on with
`x`. -/
theorem params_append {s : List Char} (hs : s = [] ∨ s.getLast? = some c) :
    params (s ++ x) = params s ++ params x := by
  induction hn : s.length using Nat.strongRecOn generalizing s with
  | ind n ih =>
    subst hn
    cases s with
    | nil => rw [List.nil_append, params, params, occurrences.eq_1, List.nil_append]
    | cons d s =>
      have hlast : (d :: s).getLast? = some c := hs.resolve_left (List.cons_ne_nil d s)
      have hmore : ∀ {rest : List Char}, rest <:+ d :: s → rest = [] ∨ rest.getLast? = some c :=
        fun hsuffix => or_iff_not_imp_left.2 fun hne => getLast?_of_suffix hsuffix hne hlast
      have hjoint := param?_joint h hlast
      rw [List.cons_append] at hjoint
      cases hfound : param? (d :: s) with
      | none =>
        rw [hfound] at hjoint
        rw [List.cons_append, params_of_none hjoint, params_of_none hfound]
        exact ih s.length (Nat.lt_succ_self _) (hmore (List.suffix_cons d s)) rfl
      | some found =>
        obtain ⟨param, rest⟩ := found
        rw [hfound, Option.map_some, withRest] at hjoint
        rw [List.cons_append, params_of_some hjoint, params_of_some hfound, List.cons_append]
        exact congrArg _ (ih rest.length (length_lt_of_param? hfound)
          (hmore (suffix_of_param? hfound)) rfl)

end Joints

/-! ## Directives and fields before a seam

Two parts of a field can go on across a seam: a run of directives that ends with the text before it,
and an argument list that is open there.  The first is told by `goOn`, the second by `behindList?`.
-/

/-- A run of directives that ends with the text before the seam goes on behind it. -/
def goOn (x : List Char) (found : List Char × List Char) : List Char × List Char :=
  if found.2 = [] then (found.1 ++ (directiveRun x).1, (directiveRun x).2) else withRest x found

/-- The rest of a field whose argument list has been opened before the text: the type, and the run
of directives with what is left. -/
def behindList? (x : List Char) : Option (List Char × List Char × List Char) :=
  match x.dropWhile (· ≠ ')') with
  | ')' :: rest => (typed? rest).map fun found => (found.1, directiveRun found.2)
  | _ => none

section Closing

variable {x inside after : List Char}

/-- A text has a closing parenthesis or it has none.  These are the two cases for a list that is
open at the seam. -/
theorem dropWhile_closing (x : List Char) : x.dropWhile (· ≠ ')') = [] ∨
    ∃ after, x.dropWhile (· ≠ ')') = ')' :: after := by
  have hstop := stops_dropWhile (fun d => decide (d ≠ ')')) x
  cases hx : x.dropWhile fun d => decide (d ≠ ')') with
  | nil => exact .inl rfl
  | cons d after =>
    rw [hx] at hstop
    obtain rfl : d = ')' := by simpa using hstop d rfl
    exact .inr ⟨after, rfl⟩

theorem behindList?_of_open (hx : x.dropWhile (· ≠ ')') = []) : behindList? x = none := by
  rw [behindList?, hx]

/-- Behind the parenthesis that closes the list are the type and the directives of the field. -/
theorem behindList?_of_closing (hx : x.dropWhile (· ≠ ')') = ')' :: after) :
    behindList? x = (typed? after).map fun found => (found.1, directiveRun found.2) := by
  rw [behindList?, hx]
  rfl

theorem parenthesized?_of_open (hinside : ')' ∉ inside) (hx : x.dropWhile (· ≠ ')') = []) :
    parenthesized? ('(' :: (inside ++ x)) = none := by
  refine Option.eq_none_iff_forall_ne_some.2 fun (list, after) hfound => ?_
  obtain ⟨htext, hlist⟩ := exists_of_parenthesized? hfound
  have hclosing : ')' ∈ inside ++ x := by
    rw [(List.cons.inj htext).2]
    simp
  refine absurd hclosing ?_
  rw [List.mem_append, not_or]
  exact ⟨hinside, fun hmem => by simpa using List.dropWhile_eq_nil_iff.1 hx _ hmem⟩

/-- A list that is open at the seam ends with the first closing parenthesis behind it, so its inside
is made of text from both sides. -/
theorem parenthesized?_of_closing (hinside : ')' ∉ inside)
    (hx : x.dropWhile (· ≠ ')') = ')' :: after) :
    parenthesized? ('(' :: (inside ++ x)) = some (inside ++ x.takeWhile (· ≠ ')'), after) := by
  have htext : inside ++ x = (inside ++ x.takeWhile (· ≠ ')')) ++ ')' :: after := by
    rw [List.append_assoc, ← hx, List.takeWhile_append_dropWhile]
  have hfront : ')' ∉ inside ++ x.takeWhile (· ≠ ')') := by
    rw [List.mem_append, not_or]
    exact ⟨hinside, fun hmem => by simpa using List.mem_takeWhile_imp hmem⟩
  rw [htext, parenthesized?_append hfront]

end Closing

/-- The argument list of the field at the front is open at the end of the text. -/
structure OpensList (u name inside : List Char) : Prop where
  exists_rest : ∃ rest, name? u = some (name, rest) ∧ rest.dropWhile isBlank = '(' :: inside
  isOpen : ')' ∉ inside

section Fields

variable {c : Char} {u x : List Char}

/-- **A run of directives ends before the seam, or goes on behind it.**  It goes on if it is all
that is left of the text before the seam.  By induction on the run: each at sign and each name is
recognised before the seam, the name by `name?_joint`. -/
theorem directiveRun_joint (h : Joint c x) (hu : u = [] ∨ u.getLast? = some c) :
    directiveRun (u ++ x) = goOn x (directiveRun u) := by
  -- behind an at sign something is left, since the text does not end with it
  have hat : ∀ {s rest : List Char}, s.dropWhile isBlank = '@' :: rest → s.getLast? = some c →
      rest.getLast? = some c ∧ (s ++ x).dropWhile isBlank = '@' :: (rest ++ x) := by
    intro s rest hs hlast
    have hrest := getLast?_dropWhile hlast h.notBlank
    rw [hs] at hrest
    refine ⟨getLast?_of_suffix (List.suffix_cons '@' rest) ?_ hrest, ?_⟩
    · rintro rfl
      exact h.ne_mark (by decide) (Option.some.inj hrest).symm
    · rw [dropWhile_isBlank_joint h hlast, hs, List.cons_append]
  have hne : ∀ {s rest : List Char}, s.dropWhile isBlank = '@' :: rest → s ≠ [] := by
    rintro s rest hs rfl
    cases hs
  fun_induction directiveRun u with
  | case1 s rest hs name after hn more last hr ih =>
    have hlast := hu.resolve_left (hne hs)
    obtain ⟨hrest, hdrop⟩ := hat hs hlast
    have hname : name? (rest ++ x) = some (name, after ++ x) := by
      rw [name?_joint h hrest, hn]
      rfl
    have hafter : after = [] ∨ after.getLast? = some c := or_iff_not_imp_left.2 fun hafter =>
      getLast?_of_suffix (suffix_of_name? hn) hafter hrest
    rw [directiveRun_of_name? hdrop hname, ih hafter, hr,
      takeWhile_joint hlast fun hc => by rw [h.notBlank] at hc; cases hc]
    by_cases hleft : last = []
    · simp [goOn, hleft]
    · simp [goOn, hleft, withRest]
  | case2 s rest hs hn =>
    obtain ⟨hrest, hdrop⟩ := hat hs (hu.resolve_left (hne hs))
    rw [directiveRun_of_name?_eq_none hdrop (by rw [name?_joint h hrest, hn]; rfl), goOn,
      if_neg (hne hs)]
    rfl
  | case3 s hs =>
    rcases hu with rfl | hu
    · rfl
    · have hleft : s ≠ [] := by
        rintro rfl
        cases hu
      rw [goOn, if_neg hleft, directiveRun_of_head]
      · rfl
      · rw [dropWhile_isBlank_joint h hu]
        cases hd : s.dropWhile isBlank with
        | nil => exact absurd hd (dropWhile_ne_nil hu h.notBlank)
        | cons d rest =>
          intro hhead
          rw [List.cons_append, List.head?_cons, Option.some.injEq] at hhead
          exact hs rest (hd.trans (congrArg (· :: rest) hhead))

/-- An argument list that is not open at the end of the text is the same with more text behind.  It
is closed before the seam, so the first closing parenthesis is found there. -/
theorem parenthesized?_joint (hu : u ≠ []) (hclosed : ∀ inside, u = '(' :: inside → ')' ∈ inside) :
    parenthesized? (u ++ x) = (parenthesized? u).map (withRest x) := by
  by_cases hhead : u.head? = some '('
  · obtain ⟨inner, rfl⟩ : ∃ inner, u = '(' :: inner := by
      cases u with
      | nil => cases hhead
      | cons d u => exact ⟨u, congrArg (· :: u) (Option.some.inj hhead)⟩
    obtain ⟨inside, rest, rfl, hinside⟩ := List.eq_append_cons_of_mem (hclosed inner rfl)
    rw [List.cons_append, List.append_assoc, List.cons_append, parenthesized?_append hinside,
      parenthesized?_append hinside]
    rfl
  · have hlong : (u ++ x).head? ≠ some '(' := by
      cases u with
      | nil => exact absurd rfl hu
      | cons d u => exact hhead
    rw [parenthesized?_of_head hhead, parenthesized?_of_head hlong]
    rfl

/-- The directives of a field that ends with the text before the seam go on behind it. -/
def Field.goOn (x : List Char) (found : Field × List Char) : Field × List Char :=
  ({ found.1 with directives := (Loose.goOn x (found.1.directives, found.2)).1 },
    (Loose.goOn x (found.1.directives, found.2)).2)

/-- The rest of a field behind its name and its arguments. -/
def fieldBehind? (name : List Char) (arguments : Option (List Char)) (s : List Char) :
    Option (Field × List Char) :=
  (typed? s).bind fun found =>
    some (⟨name, arguments, found.1, (directiveRun found.2).1⟩, (directiveRun found.2).2)

/-- Behind its name and its arguments, a field is recognised before the seam: the type by
`typed?_joint`, the directives by `directiveRun_joint`. -/
theorem fieldBehind?_joint (h : Joint c x) (hu : u.getLast? = some c) (name : List Char)
    (arguments : Option (List Char)) :
    fieldBehind? name arguments (u ++ x) = (fieldBehind? name arguments u).map (Field.goOn x) := by
  rw [fieldBehind?, fieldBehind?, typed?_joint h hu]
  cases htyped : typed? u with
  | none => rfl
  | some found =>
    obtain ⟨type, after⟩ := found
    have hafter : after = [] ∨ after.getLast? = some c := or_iff_not_imp_left.2 fun hne =>
      getLast?_of_suffix (suffix_of_typed? htyped) hne hu
    simp only [Option.map_some, Option.bind_some, withRest, directiveRun_joint h hafter]
    rfl

/-- Behind an argument list something is left, since the text does not end with a parenthesis. -/
theorem getLast?_of_parenthesized? (h : Joint c x) (hu : u.getLast? = some c)
    {inside after : List Char} (hparen : parenthesized? u = some (inside, after)) :
    after.getLast? = some c := by
  have htext := (exists_of_parenthesized? hparen).1
  rw [htext] at hu
  have hsuffix : after <:+ '(' :: (inside ++ ')' :: after) := ⟨'(' :: (inside ++ [')']), by simp⟩
  refine getLast?_of_suffix hsuffix ?_ hu
  rintro rfl
  rw [← List.cons_append, List.getLast?_concat, Option.some.injEq] at hu
  exact h.ne_mark (by decide) hu.symm

/-- **Unless its argument list is still open, a field is recognised before the seam**, and its
directives may go on behind it.  The cases are those of the recogniser: no name, a name without a
list behind it, and a name with a list that is closed before the seam. -/
theorem field?_joint (h : Joint c x) (hu : u.getLast? = some c)
    (hclosed : ¬ ∃ name inside, OpensList u name inside) :
    field? (u ++ x) = (field? u).map (Field.goOn x) := by
  rw [field?, field?, name?_joint h hu]
  cases hname : name? u with
  | none => rfl
  | some found =>
    obtain ⟨name, rest⟩ := found
    simp only [Option.map_some, bind, Option.bind_some, withRest]
    by_cases hrest : rest = []
    · subst hrest
      have hparen : parenthesized? (x.dropWhile isBlank) = none :=
        parenthesized?_of_head fun hc => absurd (h.next _ hc) (by decide)
      have htyped : typed? (x.dropWhile isBlank) = none :=
        typed?_of_head fun hc => absurd (h.next _ (by rwa [dropWhile_dropWhile] at hc)) (by decide)
      rw [List.nil_append, hparen]
      simp only [htyped]
      rfl
    · have hlast := getLast?_of_suffix (suffix_of_name? hname) hrest hu
      have hblank := getLast?_dropWhile hlast h.notBlank
      have hlist : ∀ inside, rest.dropWhile isBlank = '(' :: inside → ')' ∈ inside := by
        intro inside hinside
        by_contra hopen
        exact hclosed ⟨name, inside, ⟨rest, hname, hinside⟩, hopen⟩
      rw [dropWhile_isBlank_joint h hlast,
        parenthesized?_joint (dropWhile_ne_nil hlast h.notBlank) hlist]
      cases hparen : parenthesized? (rest.dropWhile isBlank) with
      | none => exact fieldBehind?_joint h hblank name none
      | some found =>
        exact fieldBehind?_joint h (getLast?_of_parenthesized? h hblank hparen) name (some found.1)

/-- A field whose argument list is open at the seam depends on what closes the list behind it. -/
theorem field?_open (h : Joint c x) (hu : u.getLast? = some c) {name inside : List Char}
    (hopen : OpensList u name inside) :
    field? (u ++ x) = (behindList? x).map fun found =>
      (⟨name, some (inside ++ x.takeWhile (· ≠ ')')), found.1, found.2.1⟩, found.2.2) := by
  obtain ⟨⟨rest, hname, hrest⟩, hinside⟩ := hopen
  have hlast : rest.getLast? = some c := by
    refine getLast?_of_suffix (suffix_of_name? hname) ?_ hu
    rintro rfl
    cases hrest
  have hdrop : (rest ++ x).dropWhile isBlank = '(' :: (inside ++ x) := by
    rw [dropWhile_isBlank_joint h hlast, hrest, List.cons_append]
  rw [field?, name?_joint h hu, hname]
  simp only [Option.map_some, bind, Option.bind_some, withRest, hdrop]
  rcases dropWhile_closing x with hx | ⟨after, hx⟩
  · have htyped : typed? ('(' :: (inside ++ x)) = none := typed?_of_head (by
      rw [List.dropWhile_cons_of_neg (by decide)]
      simp)
    rw [parenthesized?_of_open hinside hx, behindList?_of_open hx]
    simp only [htyped]
    rfl
  · rw [parenthesized?_of_closing hinside hx, behindList?_of_closing hx]
    simp only
    cases typed? after <;> rfl

end Fields

/-! ## Texts that stand for one another

A mark in a schema, such as a comment or a default value, is often invisible because what stands in
its place tells the same.  `Exchange` says when: the two texts close an open list in the same place,
and the parameters, the directives and the fields found in them are told alike. -/

/-- What is told of a field of a build schema, and with `key` of its directives. -/
def Field.toldWith {γ : Type} (key : List Char → γ) (field : Field) :=
  (field.told, key field.directives)

/-- Behind `u`, which ends with `c`, one text may stand for the other: it closes the same list, and
the fields found behind the seam are told the same. -/
structure Exchange {γ : Type} (key : List Char → γ) (u : List Char) (c : Char) (x y : List Char) :
    Prop where
  left : Joint c x
  right : Joint c y
  closing : x.dropWhile (· ≠ ')') = y.dropWhile (· ≠ ')')
  inside : params (x.takeWhile (· ≠ ')')) = params (y.takeWhile (· ≠ ')'))
  directives : ∀ run, run = [] ∨ EndsInDirective u →
    key (run ++ (directiveRun x).1) = key (run ++ (directiveRun y).1)
  told : (fields x).map (Field.toldWith key) = (fields y).map (Field.toldWith key)
  behind : (fields (directiveRun x).2).map (Field.toldWith key) =
    (fields (directiveRun y).2).map (Field.toldWith key)

/-- What may be left when one text stands for the other: the same, what is behind the directives at
the seam, or an end of the text before the seam. -/
inductive Left (s x y : List Char) : List Char → List Char → Prop
  | same (rest : List Char) : Left s x y rest rest
  | directives : Left s x y (directiveRun x).2 (directiveRun y).2
  | before {rest : List Char} (shorter : rest.length < s.length) (isEnd : rest <:+ s) :
    Left s x y (rest ++ x) (rest ++ y)

section Exchange

variable {γ : Type} {key : List Char → γ} {c : Char} {u s x y : List Char}

/-- **Where one text stands for the other, a field is recognised at the beginning in both or in
neither**; the same is told of it, and what is left corresponds.  This is the step of the search: a
field that is closed before the seam is found by `field?_joint`, one whose list is open there by
`field?_open`. -/
theorem field?_exchange (h : Exchange key u c x y) (hsuffix : s <:+ u) (hs : s.getLast? = some c) :
    (field? (s ++ x) = none ∧ field? (s ++ y) = none) ∨
      ∃ field other rest more, field? (s ++ x) = some (field, rest) ∧
        field? (s ++ y) = some (other, more) ∧ field.toldWith key = other.toldWith key ∧
        Left s x y rest more := by
  by_cases hopen : ∃ name inside, OpensList s name inside
  · obtain ⟨name, inside, hopen⟩ := hopen
    have hx := field?_open h.left hs hopen
    have hy := field?_open h.right hs hopen
    have hbehind : behindList? x = behindList? y := by rw [behindList?, behindList?, h.closing]
    rw [hbehind] at hx
    cases hfound : behindList? y with
    | none =>
      rw [hfound] at hx hy
      exact .inl ⟨hx, hy⟩
    | some found =>
      rw [hfound] at hx hy
      refine .inr ⟨_, _, _, _, hx, hy, ?_, .same _⟩
      have hin : inside = [] ∨ inside.getLast? = some c := or_iff_not_imp_left.2 fun hne => by
        obtain ⟨rest, hname, hrest⟩ := hopen.exists_rest
        refine getLast?_of_suffix (List.IsSuffix.trans ?_ (suffix_of_name? hname)) hne hs
        exact (List.suffix_cons '(' inside).trans (hrest ▸ List.dropWhile_suffix isBlank)
      simp only [Field.toldWith, Field.told, Option.map_some, params_append h.left.takeWhile hin,
        params_append h.right.takeWhile hin, h.inside]
  · have hx := field?_joint h.left hs hopen
    have hy := field?_joint h.right hs hopen
    cases hfound : field? s with
    | none =>
      rw [hfound] at hx hy
      exact .inl ⟨hx, hy⟩
    | some found =>
      obtain ⟨field, rest⟩ := found
      rw [hfound] at hx hy
      by_cases hrest : rest = []
      · simp only [Option.map_some, Field.goOn, goOn, hrest, if_true] at hx hy
        refine .inr ⟨_, _, _, _, hx, hy, ?_, .directives⟩
        have hrun := (directives_of_field? (hrest ▸ hfound)).imp_right (·.of_suffix hsuffix)
        simp only [Field.toldWith, Field.told, h.directives _ hrun]
      · simp only [Option.map_some, Field.goOn, goOn, hrest, if_false, withRest] at hx hy
        exact .inr ⟨_, _, _, _, hx, hy, rfl,
          .before (length_lt_of_field? hfound) (suffix_of_field? hfound)⟩

/-- **Where one text stands for the other behind a beginning, the fields are told the same.**  By
induction on the length of what is left of the beginning, with `field?_exchange` at each step; at
the seam itself, the hypotheses on what is found behind it take over. -/
theorem fields_exchange (h : Exchange key u c x y) (hu : u = [] ∨ u.getLast? = some c) :
    (fields (u ++ x)).map (Field.toldWith key) = (fields (u ++ y)).map (Field.toldWith key) := by
  suffices hends : ∀ s, s <:+ u → (fields (s ++ x)).map (Field.toldWith key) =
      (fields (s ++ y)).map (Field.toldWith key) from hends u List.suffix_rfl
  intro s hsuffix
  induction hn : s.length using Nat.strongRecOn generalizing s with
  | ind n ih =>
    subst hn
    cases s with
    | nil => exact h.told
    | cons d s =>
      have hlast : (d :: s).getLast? = some c :=
        getLast?_of_suffix hsuffix (List.cons_ne_nil d s)
          (hu.resolve_left fun hnil => List.cons_ne_nil d s (List.suffix_nil.1 (hnil ▸ hsuffix)))
      rcases field?_exchange h hsuffix hlast with
        ⟨hx, hy⟩ | ⟨field, other, rest, more, hx, hy, htold, hleft⟩
      · rw [List.cons_append] at hx hy
        rw [List.cons_append, List.cons_append, fields_of_none hx, fields_of_none hy]
        exact ih s.length (Nat.lt_succ_self _) s ((List.suffix_cons d s).trans hsuffix) rfl
      · rw [fields_of_some hx, fields_of_some hy, List.map_cons, List.map_cons, htold]
        cases hleft with
        | same => rfl
        | directives => exact congrArg _ h.behind
        | before shorter isEnd => exact congrArg _ (ih _ shorter _ (isEnd.trans hsuffix) rfl)

end Exchange

/-! ## Text that is passed over

Text between a type and what follows is passed over if nothing in it opens a field, a list or a
directive.  Any such text stands for any other, if the directives in both tell the same. -/

/-- If nothing opens behind the run of directives, nothing does at the beginning of the text, since
an at sign opens nothing. -/
theorem stops_isOpening_of_directiveRun {s : List Char}
    (h : Stops isOpening ((directiveRun s).2.dropWhile isBlank)) :
    Stops isOpening (s.dropWhile isBlank) := by
  by_cases hat : (s.dropWhile isBlank).head? = some '@'
  · intro c hc
    rw [hat, Option.some.injEq] at hc
    rw [← hc]
    decide
  · rwa [directiveRun_of_head hat] at h

/-- The fields behind a run of directives are those in the whole text. -/
theorem fields_directiveRun {s : List Char}
    (h : Stops isOpening ((directiveRun s).2.dropWhile isBlank)) :
    fields (directiveRun s).2 = fields s := by
  fun_induction directiveRun s with
  | case1 s rest hs name after hn more last hr ih =>
    rw [hr] at ih
    have hending : Ending after := by
      refine ⟨?_, stops_isOpening_of_directiveRun (by rwa [hr])⟩
      rw [name?_rest hn]
      exact stops_dropWhile isNameChar _
    have htext : s = (s.takeWhile isBlank ++ '@' :: name) ++ after := by
      rw [List.append_assoc, List.cons_append, append_of_name? hn, ← hs,
        List.takeWhile_append_dropWhile]
    have hpassed : ∀ c ∈ s.takeWhile isBlank ++ '@' :: name, isOpening c = false := by
      intro c hc
      rcases List.mem_append.1 hc with hc | hc
      · exact isOpening_of_class (List.mem_takeWhile_imp hc) (by decide) (by decide)
      · rcases List.mem_cons.1 hc with rfl | hc
        · decide
        · exact isOpening_of_class (isNameChar_of_mem (isName_of_name? hn) hc) (by decide)
            (by decide)
    conv_rhs => rw [htext]
    exact (ih h).trans (occurrences_passive isNamed_field? hpassed hending).symm
  | case2 => rfl
  | case3 => rfl

/-- Text in which nothing opens may stand in front of text at whose beginning nothing opens. -/
theorem stops_isOpening_append {s rest : List Char} (hs : ∀ c ∈ s, isOpening c = false)
    (h : Stops isOpening (rest.dropWhile isBlank)) :
    Stops isOpening ((s ++ rest).dropWhile isBlank) := by
  rw [List.dropWhile_append]
  split
  · exact h
  · next hne =>
    obtain ⟨d, more, hmore⟩ := List.exists_cons_of_ne_nil fun hnil => hne (List.isEmpty_iff.2 hnil)
    rw [hmore]
    exact stops_cons (hs d ((List.dropWhile_suffix isBlank).subset (hmore ▸ List.mem_cons_self))) _

/-- The ending of a field is one as far as its first closing parenthesis, too. -/
theorem Ending.takeWhile {s : List Char} (h : Ending s) : Ending (s.takeWhile (· ≠ ')')) where
  name := stops_takeWhile h.name
  next := by
    rw [← takeWhile_dropWhile_isBlank ne_closing_of_isBlank]
    exact stops_takeWhile h.next

/-- Between a type and what follows may stand `s`: it opens and closes nothing, it does not make the
type longer, and neither it nor what follows makes a field of a name before it. -/
structure Passed (s second : List Char) : Prop where
  inert : ∀ c ∈ s, isOpening c = false ∧ c ≠ ')'
  head : Stops isTypeChar (s ++ second)
  next : Stops isOpening ((directiveRun (s ++ second)).2.dropWhile isBlank)

section Passed

variable {γ : Type} {key : List Char → γ} {c : Char} {u s t second : List Char}

/-- Text that is passed over may stand behind a type. -/
theorem Passed.joint (h : Passed s second) (hc : isTypeChar c = true) : Joint c (s ++ second) where
  notBlank := isBlank_of_apart (fun _ => isTypeChar_of_isBlank) hc
  notMark hmem := ne_of_class hc (forall_mem_eq_false (by decide) c hmem) rfl
  stops _ := h.head
  next := stops_isOpening_of_directiveRun h.next

/-- Text that is passed over closes no list, so a list that is open is closed behind it. -/
theorem Passed.dropWhile (h : Passed s second) :
    (s ++ second).dropWhile (· ≠ ')') = second.dropWhile (· ≠ ')') :=
  List.dropWhile_append_of_pos fun e he => decide_eq_true (h.inert e he).2

/-- In text that is passed over no fields are found. -/
theorem Passed.fields (h : Passed s second) (hending : Ending second) :
    fields (s ++ second) = Loose.fields second :=
  occurrences_passive isNamed_field? (fun e he => (h.inert e he).1) hending

theorem Passed.params (h : Passed s second) (hending : Ending second) :
    params ((s ++ second).takeWhile (· ≠ ')')) = Loose.params (second.takeWhile (· ≠ ')')) := by
  rw [List.takeWhile_append_of_pos fun e he => decide_eq_true (h.inert e he).2]
  exact occurrences_passive isNamed_param? (fun e he => (h.inert e he).1) hending.takeWhile

/-- Behind a type, one text that is passed over stands for another if their directives tell the
same. -/
theorem exchange_passed (hc : isTypeChar c = true) (hending : Ending second)
    (hs : Passed s second) (ht : Passed t second)
    (hkey : ∀ run, run = [] ∨ EndsInDirective u → key (run ++ (directiveRun (s ++ second)).1) =
      key (run ++ (directiveRun (t ++ second)).1)) :
    Exchange key u c (s ++ second) (t ++ second) where
  left := hs.joint hc
  right := ht.joint hc
  closing := hs.dropWhile.trans ht.dropWhile.symm
  inside := (hs.params hending).trans (ht.params hending).symm
  directives := hkey
  told := by rw [hs.fields hending, ht.fields hending]
  behind := by
    rw [fields_directiveRun hs.next, fields_directiveRun ht.next, hs.fields hending,
      ht.fields hending]

end Passed

end SchemaAccess.Loose
