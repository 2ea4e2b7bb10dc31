import SchemaAccess.Document.Token
import SchemaAccess.TypeRef
import SchemaAccess.Proofs.Text.Classes

/-!
# Texts that spell tokens

Splitting a text into tokens looks ahead, counts places and counts brackets.  For a text that is
put together from names and punctuators all of this is decided as it is put together, which an
inductive relation says: a text, behind a number of open brackets, spells a list of tokens.

* `Spells` — the relation; it is built from the end of a text towards its front.
* `ofTextAt_spells` — a text is split into the tokens that it spells.
* `Spells.blanks`, `Spells.type` — white space and whole types in front of a text.
-/

namespace SchemaAccess

/-- How many lists stand inside each other in a type reference. -/
def TypeRef.depth : TypeRef → Nat
  | named _ _ => 0
  | list element _ => element.depth + 1

namespace Document

open Text

/-- Behind `depth` open brackets, the text spells the tokens. -/
inductive Spells : Nat → List Char → List Token → Prop
  | nil {depth : Nat} : Spells depth [] []
  | blank {depth : Nat} {c : Char} {s : List Char} {ts : List Token}
      (isIgnored : c ∈ [' ', ',', '\n']) (tail : Spells depth s ts) : Spells depth (c :: s) ts
  | name {depth : Nat} {n s : List Char} {ts : List Token} (isName : IsName n)
      (ends : Stops isNameChar s) (tail : Spells depth s ts) :
      Spells depth (n ++ s) (.name (String.ofList n) :: ts)
  | punct {depth after : Nat} {c : Char} {s : List Char} {ts : List Token}
      (isPunct : c ∈ punctuators) (opened : openAfter? depth (.punct c) = some after)
      (tail : Spells after s ts) : Spells depth (c :: s) (.punct c :: ts)

/-! ## One token

The steps of the tokenizer on the three things that a text is put together from: white space,
punctuators and names.  Places in the text are counted along, but no token depends on them. -/

/-- White space in front is passed over; the place moves on. -/
theorem ignored_blank {c : Char} (h : c ∈ [' ', ',', '\n']) (p : Position) (s : List Char) :
    ∃ q, ignored p (c :: s) = ignored q s := by
  simp only [List.mem_cons, List.not_mem_nil, or_false] at h
  rcases h with rfl | rfl | rfl
  · exact ⟨⟨p.line, p.column + 1⟩, by rw [ignored, if_pos (Or.inl rfl)]⟩
  · exact ⟨⟨p.line, p.column + 1⟩, by rw [ignored, if_pos (Or.inr rfl)]⟩
  · exact ⟨⟨p.line + 1, 1⟩, by
      rw [ignored, if_neg (by decide), if_neg (by decide), if_pos rfl]⟩

/-- What is not ignored stays where it is. -/
theorem ignored_eq_self {c : Char} (h : c ∉ [' ', ',', '\t', '\n', '\r', '\uFEFF', '#'])
    (p : Position) (s : List Char) : ignored p (c :: s) = (p, c :: s) := by
  simp only [List.mem_cons, List.not_mem_nil, or_false, not_or] at h
  rw [ignored, if_neg (by simp [h]), if_neg (by simp [h]), if_neg (by simp [h]),
    if_neg (by simp [h]), if_neg (by simp [h])]

/-- A punctuator is a token by itself, whatever stands behind it. -/
theorem split?_punct {c : Char} (h : c ∈ punctuators) (s : List Char) :
    Token.split? (c :: s) = some ⟨.punct c, [c], s⟩ := by
  rw [Token.split?, if_pos (by simpa using h)]
  · rintro rest rfl -
    exact absurd h (by decide)
  · rintro rest rfl -
    exact absurd h (by decide)
  · rintro rfl
    exact absurd h (by decide)

/-- A character that begins a name begins no number. -/
theorem isDigit_of_isNameStart {c : Char} (h : isNameStart c = true) : c.isDigit = false := by
  rw [← Bool.not_eq_true]
  intro hd
  have hdigit := toNat_of_isDigit hd
  rw [isNameStart, Bool.or_eq_true, beq_iff_eq] at h
  rcases h with h | rfl
  · have := toNat_of_isAlpha h
    omega
  · exact absurd hdigit.2 (by decide)

/-- A character that begins a name is no punctuator. -/
theorem not_mem_punctuators {c : Char} (h : isNameStart c = true) : c ∉ punctuators := by
  intro hc
  have hall : ∀ d ∈ punctuators, isNameStart d = false :=
    forall_mem_eq_false (by decide)
  rw [hall c hc] at h
  cases h

/-- A name is a token if it does not go on behind its end. -/
theorem split?_name {n s : List Char} (hn : IsName n) (hs : Stops isNameChar s) :
    Token.split? (n ++ s) = some ⟨.name (String.ofList n), n, s⟩ := by
  have hname := name?_append hn hs
  cases n with
  | nil => exact hn.elim
  | cons c cs =>
    have hne : ∀ d, isNameStart d = false → c ≠ d := fun d hd => ne_of_class hn.1 hd
    rw [List.cons_append] at hname ⊢
    rw [Token.split?, if_neg, if_neg, hname, Option.map_some]
    · simp [hne '-' (by decide), isDigit_of_isNameStart hn.1]
    · simpa using not_mem_punctuators hn.1
    · rintro rest rfl -
      exact hne '.' (by decide) rfl
    · rintro rest rfl -
      exact hne '"' (by decide) rfl
    · rintro rfl
      exact hne '"' (by decide) rfl

/-! ## All tokens

Splitting a whole text is a recursion on what is left of it, with the place and the number of open
brackets as its state.  Along `Spells` the number of brackets is known and the place does not
matter. -/

/-- One token is split off, and the splitting goes on behind it with the brackets that are open
then. -/
theorem Lexed.ofTextAt_token {p q : Position} {depth after : Nat} {s : List Char} {t : Token}
    {taken rest : List Char} (hi : (ignored p s).2 = taken ++ rest)
    (hs : Token.split? (taken ++ rest) = some ⟨t, taken, rest⟩)
    (ho : openAfter? depth t = some after) (hq : q = (ignored p s).1.after taken) :
    (ofTextAt p depth s).lexemes.map Lexeme.token =
        t :: (ofTextAt q after rest).lexemes.map Lexeme.token ∧
      (ofTextAt p depth s).complete = (ofTextAt q after rest).complete := by
  rw [ofTextAt]
  split
  · next h => rw [hi, hs] at h; cases h
  · next split h =>
    rw [hi, hs, Option.some.injEq] at h
    subst h
    simp only [ho, hq]
    exact ⟨rfl, trivial⟩

/-- **A text is split into the tokens that it spells**, and to its end.  By induction on how it
spells them, one lemma of the section above for each case. -/
theorem ofTextAt_spells {depth : Nat} {s : List Char} {ts : List Token}
    (h : Spells depth s ts) (p : Position) :
    (Lexed.ofTextAt p depth s).lexemes.map Lexeme.token = ts ∧
      (Lexed.ofTextAt p depth s).complete = true := by
  induction h generalizing p with
  | nil =>
    rw [Lexed.ofTextAt]
    split
    · next h => simp [ignored]
    · next split h => simp [ignored, Token.split?] at h
  | @blank depth c s ts isIgnored tail ih =>
    obtain ⟨q, hq⟩ := ignored_blank isIgnored p s
    have heq : Lexed.ofTextAt p depth (c :: s) = Lexed.ofTextAt q depth s := by
      rw [Lexed.ofTextAt, Lexed.ofTextAt, hq]
    rw [heq]
    exact ih q
  | @name depth n s ts isName ends tail ih =>
    have hi : ignored p (n ++ s) = (p, n ++ s) := by
      cases n with
      | nil => exact isName.elim
      | cons c cs =>
        refine ignored_eq_self (fun hc => ?_) p (cs ++ s)
        have hall : ∀ d ∈ [' ', ',', '\t', '\n', '\r', '\uFEFF', '#'], isNameStart d = false :=
          forall_mem_eq_false (by decide)
        have hstart := isName.1
        rw [hall c hc] at hstart
        cases hstart
    obtain ⟨hts, hc⟩ := Lexed.ofTextAt_token (by rw [hi]) (split?_name isName ends) rfl rfl
    obtain ⟨ihts, ihc⟩ := ih ((ignored p (n ++ s)).1.after n)
    rw [hts, hc, ihts, ihc]
    exact ⟨rfl, rfl⟩
  | @punct depth after c s ts isPunct opened tail ih =>
    have hi : ignored p (c :: s) = (p, [c] ++ s) := by
      refine ignored_eq_self (fun hc => ?_) p s
      have hall : ∀ d ∈ [' ', ',', '\t', '\n', '\r', '\uFEFF', '#'],
          punctuators.contains d = false := forall_mem_eq_false (by decide)
      have hmem := hall c hc
      rw [List.contains_iff_mem.2 isPunct] at hmem
      cases hmem
    obtain ⟨hts, hc⟩ := Lexed.ofTextAt_token (by rw [hi]) (split?_punct isPunct s) opened rfl
    obtain ⟨ihts, ihc⟩ := ih ((ignored p (c :: s)).1.after [c])
    rw [hts, hc, ihts, ihc]
    exact ⟨rfl, rfl⟩

/-! ## Types

A type is spelled compactly.  Its brackets count towards those that may be open at a time, so a type
spells its tokens only if it is not nested too deeply. -/

def markTokens (required : Bool) : List Token := if required then [.punct '!'] else []

def typeTokens : TypeRef → List Token
  | .named name required => .name name :: markTokens required
  | .list element required =>
    .punct '[' :: typeTokens element ++ .punct ']' :: markTokens required

namespace Spells

variable {depth : Nat} {s : List Char} {ts : List Token}

/-- White space in front of a text changes nothing of what it spells. -/
theorem blanks {blank : List Char} (hb : ∀ c ∈ blank, c ∈ [' ', ',', '\n'])
    (h : Spells depth s ts) : Spells depth (blank ++ s) ts := by
  induction blank with
  | nil => exact h
  | cons c cs ih =>
    exact .blank (hb c List.mem_cons_self) (ih fun d hd => hb d (List.mem_cons_of_mem c hd))

/-- The mark of a required type spells its token. -/
theorem mark (required : Bool) (h : Spells depth s ts) :
    Spells depth (TypeRef.mark required ++ s) (markTokens required ++ ts) := by
  cases required with
  | false => exact h
  | true => exact .punct (by decide) rfl h

/-- **A type spells its tokens if its lists are not nested too deeply.**  By induction on the type;
the bracket of a list opens one more for its element and closes it again. -/
theorem type {t : TypeRef} (hn : IsName t.baseName.toList) (hd : depth + t.depth ≤ maxOpen)
    (ends : Stops isNameChar s) (h : Spells depth s ts) :
    Spells depth (t.chars ++ s) (typeTokens t ++ ts) := by
  induction t generalizing depth s ts with
  | named n required =>
    have hends : Stops isNameChar (TypeRef.mark required ++ s) := by
      cases required with
      | false => exact ends
      | true => exact stops_cons (by decide) s
    have := Spells.name hn hends (mark required h)
    rw [String.ofList_toList] at this
    rw [TypeRef.chars, List.append_assoc]
    exact this
  | list element required ih =>
    rw [TypeRef.depth] at hd
    have hclose : Spells (depth + 1) (']' :: (TypeRef.mark required ++ s))
        (.punct ']' :: (markTokens required ++ ts)) :=
      .punct (by decide) rfl (mark required h)
    have helement := ih hn (by omega) (stops_cons (by decide) _) hclose
    have hopen : openAfter? depth (.punct '[') = some (depth + 1) := by
      rw [openAfter?, if_pos (by decide), if_pos (by omega)]
    have := Spells.punct (by decide) hopen helement
    simpa only [TypeRef.chars, typeTokens, List.cons_append, List.append_assoc] using this

end Spells

end Document

end SchemaAccess
