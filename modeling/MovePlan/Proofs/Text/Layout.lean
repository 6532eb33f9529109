import Mathlib.Data.List.Basic
import MovePlan.Text.Token

set_option autoImplicit false

/-!
# Texts made of tokens

A text is laid out from tokens with blanks and comments between them. Where the terminal of each token is
among those that are expected, the tokens are read as they were written, whatever stands between them.
-/
namespace MovePlan.Text

/-- A letter and name characters after it, which together are no keyword. -/
def isIdentifier (s : String) : Bool :=
  match s.toList with
  | [] => false
  | c :: cs => isLetter c && cs.all isNameChar && (Keyword.ofText? s).isNone

def isNumber (s : String) : Bool := !s.toList.isEmpty && s.toList.all isDigit

inductive Lexeme
  | word (k : Keyword)
  | mark (m : Mark)
  | name (s : String) (h : isIdentifier s = true)
  | number (s : String) (h : isNumber s = true)
deriving DecidableEq

namespace Lexeme

def terminal : Lexeme → Terminal
  | word k => .keyword k
  | mark m => .mark m
  | name .. => .name
  | number .. => .number

def text : Lexeme → String
  | word k => k.text
  | mark m => m.text
  | name s _ | number s _ => s

def chars (l : Lexeme) : List Char := l.text.toList

end Lexeme

/-- What may stand between two tokens. -/
inductive Filler
  | blank (c : Char) (h : isBlank c = true)
  /-- A comment with the end of its line. -/
  | comment (body : List Char) (h : '\n' ∉ body)

def Filler.chars : Filler → List Char
  | blank c _ => [c]
  | comment body _ => '#' :: (body ++ ['\n'])

abbrev Gap := List Filler

def Gap.chars (g : Gap) : List Char := g.flatMap Filler.chars

/-- Tokens with what stands before each, and what stands at the end. Something stands between each two. -/
structure Layout where
  tokens : List (Gap × Lexeme)
  trailing : Gap
  separated : ∀ p ∈ tokens.tail, p.1 ≠ []

namespace Layout

def lexemes (x : Layout) : List Lexeme := x.tokens.map Prod.snd

def chars (x : Layout) : List Char := x.tokens.flatMap (fun p => p.1.chars ++ p.2.chars) ++ x.trailing.chars

def text (x : Layout) : String := String.ofList x.chars

end Layout

theorem isNameChar_of_isLetter {c : Char} (h : isLetter c = true) : isNameChar c = true := by
  rw [isNameChar, h, Bool.true_or]

theorem isNameChar_of_isDigit {c : Char} (h : isDigit c = true) : isNameChar c = true := by
  rw [isNameChar, h, Bool.or_true]

theorem not_isLetter_of_isDigit {c : Char} (h : isDigit c = true) : isLetter c = false := by
  simp only [isDigit, isLetter, Char.le_def, UInt32.le_iff_toNat_le, Bool.and_eq_true, decide_eq_true_eq,
    Bool.or_eq_false_iff, Bool.and_eq_false_iff, decide_eq_false_iff_not] at h ⊢
  refine ⟨⟨.inl ?_, .inl ?_⟩, ?_⟩
  · have : '9'.val.toNat < 'a'.val.toNat := by decide
    omega
  · have : '9'.val.toNat < 'A'.val.toNat := by decide
    omega
  · rintro rfl
    revert h
    decide

theorem not_isNameChar_of_isBlank {c : Char} (h : isBlank c = true) : isNameChar c = false := by
  simp only [isBlank, Bool.or_eq_true, decide_eq_true_eq] at h
  rcases h with (((rfl | rfl) | rfl) | rfl) | rfl <;> decide

def Solid (cs : List Char) : Prop := ∀ c, cs.head? = some c → isBlank c = false ∧ c ≠ '#'

theorem skipBlanks_comment {body : List Char} (h : '\n' ∉ body) (cs : List Char) (line column : ℕ) :
    ∃ line' column', skipBlanks true (body ++ '\n' :: cs) line column = skipBlanks false cs line' column' := by
  induction body generalizing column with
  | nil => exact ⟨line + 1, 1, by simp [skipBlanks]⟩
  | cons c body ih =>
    rw [List.mem_cons, not_or] at h
    obtain ⟨line', column', hrest⟩ := ih h.2 (column + 1)
    refine ⟨line', column', ?_⟩
    rw [List.cons_append, skipBlanks, if_neg (Ne.symm h.1)]
    simpa using hrest

theorem rest_skipBlanks (g : Gap) {cs : List Char} (h : Solid cs) (line column : ℕ) :
    (skipBlanks false (g.chars ++ cs) line column).rest = cs := by
  induction g generalizing line column with
  | nil =>
    cases cs with
    | nil => rfl
    | cons c cs =>
      obtain ⟨hblank, hhash⟩ := h c rfl
      have hline : c ≠ '\n' := by
        rintro rfl
        cases hblank
      simp [Gap.chars, skipBlanks, hline, hblank, hhash]
  | cons x g ih =>
    have hsplit : Gap.chars (x :: g) ++ cs = x.chars ++ (Gap.chars g ++ cs) := by
      rw [Gap.chars, List.flatMap_cons, List.append_assoc, Gap.chars]
    rw [hsplit]
    cases x with
    | blank c hc =>
      rw [Filler.chars, List.singleton_append, skipBlanks]
      split
      · exact ih _ _
      · rw [if_pos (by simpa using hc)]
        exact ih _ _
    | comment body hbody =>
      obtain ⟨line', column', hrest⟩ := skipBlanks_comment hbody (Gap.chars g ++ cs) line (column + 1)
      have hbegin : skipBlanks false (Filler.chars (.comment body hbody) ++ (Gap.chars g ++ cs)) line column =
          skipBlanks true (body ++ '\n' :: (Gap.chars g ++ cs)) line (column + 1) := by
        simp [Filler.chars, skipBlanks, isBlank]
      rw [hbegin, hrest]
      exact ih _ _

/-- A token ends where no name character follows. -/
def Ends (cs : List Char) : Prop := ∀ c, cs.head? = some c → isNameChar c = false

theorem takeWhile_append {p : Char → Bool} {xs cs : List Char} (h : ∀ x ∈ xs, p x = true)
    (hcs : ∀ c, cs.head? = some c → p c = false) : (xs ++ cs).takeWhile p = xs := by
  rw [List.takeWhile_append_of_pos h]
  cases cs with
  | nil => simp
  | cons c cs => simp [hcs c rfl]

theorem isPrefixOf_append {xs ys cs : List Char} (h : ∀ x ∈ xs, isNameChar x = true) (hcs : Ends cs) :
    xs.isPrefixOf (ys ++ cs) = xs.isPrefixOf ys := by
  induction xs generalizing ys with
  | nil => rfl
  | cons x xs ih =>
    rw [List.forall_mem_cons] at h
    cases ys with
    | nil =>
      cases cs with
      | nil => rfl
      | cons c cs =>
        have hne : x ≠ c := by
          rintro rfl
          rw [hcs x rfl] at h
          exact absurd h.1 Bool.false_ne_true
        simp [List.isPrefixOf, hne]
    | cons y ys => simp only [List.cons_append, List.isPrefixOf, ih h.2]

theorem find?_filter_eq {α : Type} [DecidableEq α] {p q : α → Bool} {xs : List α} {x : α}
    (h : xs.find? p = some x) (hx : q x = true) : (xs.filter q).find? p = some x := by
  induction xs with
  | nil => cases h
  | cons y ys ih =>
    rw [List.find?_cons] at h
    cases hy : p y with
    | true =>
      rw [hy] at h
      obtain rfl : y = x := Option.some.inj h
      rw [List.filter_cons, if_pos hx, List.find?_cons, hy]
    | false =>
      rw [hy] at h
      rw [List.filter_cons]
      split
      · rw [List.find?_cons, hy]
        exact ih h
      · exact ih h

namespace Keyword

theorem text_nameChars (k : Keyword) : ∀ c ∈ k.text.toList, isNameChar c = true := by
  rw [← List.all_eq_true]
  cases k <;> rfl

theorem exists_text (k : Keyword) : ∃ c cs, k.text.toList = c :: cs ∧ isLetter c = true := by
  cases k <;> exact ⟨_, _, rfl, by decide⟩

theorem ofText?_text (k : Keyword) : ofText? k.text = some k := by
  cases k <;> decide

theorem find?_text (k : Keyword) : all.find? (fun x => x.text.toList.isPrefixOf k.text.toList) = some k := by
  cases k <;> decide

end Keyword

namespace Mark

theorem isPrefixOf_text (x m : Mark) (cs : List Char) :
    x.text.toList.isPrefixOf (m.text.toList ++ cs) = x.text.toList.isPrefixOf m.text.toList := by
  cases x <;> cases m <;> rfl

theorem exists_text (m : Mark) : ∃ c cs, m.text.toList = c :: cs ∧ isLetter c = false ∧ isDigit c = false ∧
    isBlank c = false ∧ c ≠ '#' := by
  cases m <;> exact ⟨_, _, rfl, by decide⟩

theorem find?_text (m : Mark) : all.find? (fun x => x.text.toList.isPrefixOf m.text.toList) = some m := by
  cases m <;> decide

end Mark

theorem firstWith_keyword {expected : List Terminal} {k : Keyword} (hk : .keyword k ∈ expected)
    {cs : List Char} (hcs : Ends cs) : firstWith Keyword.text (k.text.toList ++ cs)
      (Keyword.all.filter fun x => decide (Terminal.keyword x ∈ expected)) = some k := by
  have hsame : (fun x : Keyword => x.text.toList.isPrefixOf (k.text.toList ++ cs)) =
      fun x => x.text.toList.isPrefixOf k.text.toList :=
    funext fun x => isPrefixOf_append x.text_nameChars hcs
  rw [firstWith, hsame]
  exact find?_filter_eq k.find?_text (decide_eq_true hk)

theorem firstWith_mark {expected : List Terminal} {m : Mark} (hm : .mark m ∈ expected) (cs : List Char) :
    firstWith Mark.text (m.text.toList ++ cs)
      (Mark.all.filter fun x => decide (Terminal.mark x ∈ expected)) = some m := by
  have hsame : (fun x : Mark => x.text.toList.isPrefixOf (m.text.toList ++ cs)) =
      fun x => x.text.toList.isPrefixOf m.text.toList :=
    funext fun x => Mark.isPrefixOf_text x m cs
  rw [firstWith, hsame]
  exact find?_filter_eq m.find?_text (decide_eq_true hm)

theorem isIdentifier_iff {s : String} : isIdentifier s = true ↔ ∃ c cs, s.toList = c :: cs ∧ isLetter c = true ∧
    (∀ x ∈ s.toList, isNameChar x = true) ∧ Keyword.ofText? s = none := by
  rw [isIdentifier]
  cases hs : s.toList with
  | nil => simp
  | cons c cs =>
    simp only [Bool.and_eq_true, List.all_eq_true, Option.isNone_iff_eq_none, List.cons.injEq,
      List.forall_mem_cons]
    constructor
    · rintro ⟨⟨hc, hcs⟩, hk⟩
      exact ⟨c, cs, ⟨rfl, rfl⟩, hc, ⟨isNameChar_of_isLetter hc, hcs⟩, hk⟩
    · rintro ⟨_, _, ⟨rfl, rfl⟩, hc, ⟨-, hcs⟩, hk⟩
      exact ⟨⟨hc, hcs⟩, hk⟩

theorem isNumber_iff {s : String} : isNumber s = true ↔ ∃ c cs, s.toList = c :: cs ∧
    ∀ x ∈ s.toList, isDigit x = true := by
  rw [isNumber]
  cases s.toList <;> simp

theorem scan?_lexeme {expected : List Terminal} {l : Lexeme} (hl : l.terminal ∈ expected) {cs : List Char}
    (hcs : Ends cs) : scan? expected (l.chars ++ cs) = some (l.terminal, l.chars.length) := by
  have hdigits : ∀ c, cs.head? = some c → isDigit c = false := fun c hc => by
    cases hd : isDigit c with
    | false => rfl
    | true => rw [← hcs c hc, isNameChar_of_isDigit hd]
  cases l with
  | word k =>
    obtain ⟨c, rest, htext, hc⟩ := k.exists_text
    have hword : (k.text.toList ++ cs).takeWhile isNameChar = k.text.toList :=
      takeWhile_append k.text_nameChars hcs
    have hfirst := firstWith_keyword hl hcs
    change scan? expected (k.text.toList ++ cs) = some (.keyword k, k.text.toList.length)
    rw [htext, List.cons_append] at hword hfirst ⊢
    rw [scan?, if_pos hc]
    split
    · have hk : Keyword.ofText? (String.ofList (c :: rest)) = some k := by
        rw [← htext, String.ofList_toList, Keyword.ofText?_text]
      have hmem : Terminal.keyword k ∈ expected := hl
      simp only [hword, hk, if_pos hmem]
    · rw [hfirst, Option.map_some, ← htext, String.length_toList]
  | mark m =>
    obtain ⟨c, rest, htext, hletter, hdigit, -⟩ := m.exists_text
    have hfirst := firstWith_mark hl cs
    change scan? expected (m.text.toList ++ cs) = some (.mark m, m.text.toList.length)
    rw [htext, List.cons_append] at hfirst ⊢
    rw [scan?, hletter, hdigit, if_neg Bool.false_ne_true, if_neg Bool.false_ne_true, hfirst, Option.map_some,
      ← htext, String.length_toList]
  | name s hs =>
    obtain ⟨c, rest, htext, hc, hall, hkey⟩ := isIdentifier_iff.1 hs
    have hword : (s.toList ++ cs).takeWhile isNameChar = s.toList := takeWhile_append hall hcs
    have hmem : Terminal.name ∈ expected := hl
    change scan? expected (s.toList ++ cs) = some (.name, s.toList.length)
    rw [htext, List.cons_append] at hword ⊢
    rw [scan?, if_pos hc, if_pos hmem]
    simp only [hword, ← htext, String.ofList_toList, hkey]
  | number s hs =>
    obtain ⟨c, rest, htext, hall⟩ := isNumber_iff.1 hs
    have hc : isDigit c = true := hall c (htext ▸ List.mem_cons_self)
    have hdigit : (s.toList ++ cs).takeWhile isDigit = s.toList := takeWhile_append hall hdigits
    have hmem : Terminal.number ∈ expected := hl
    change scan? expected (s.toList ++ cs) = some (.number, s.toList.length)
    rw [htext, List.cons_append] at hdigit ⊢
    rw [scan?, not_isLetter_of_isDigit hc, if_neg Bool.false_ne_true, if_pos hc, if_pos hmem, hdigit]

/-- The tokens that come after one, each with something before it. -/
inductive Spells : List Lexeme → List Char → Prop
  | done (gap : Gap) : Spells [] gap.chars
  | token {gap : Gap} {l : Lexeme} {ls : List Lexeme} {cs : List Char} (hgap : gap ≠ []) (h : Spells ls cs) :
      Spells (l :: ls) (gap.chars ++ (l.chars ++ cs))

theorem Gap.ends {gap : Gap} (h : gap ≠ []) (cs : List Char) : Ends (gap.chars ++ cs) := by
  cases gap with
  | nil => exact absurd rfl h
  | cons x gap =>
    intro c hc
    cases x with
    | blank b hb =>
      obtain rfl : b = c := by simpa [Gap.chars, Filler.chars] using hc
      exact not_isNameChar_of_isBlank hb
    | comment body hbody =>
      obtain rfl : '#' = c := by simpa [Gap.chars, Filler.chars] using hc
      decide

theorem Spells.ends {ls : List Lexeme} {cs : List Char} (h : Spells ls cs) : Ends cs := by
  cases h with
  | done gap =>
    cases gap with
    | nil => exact fun c hc => by cases hc
    | cons x gap => exact List.append_nil (Gap.chars (x :: gap)) ▸ Gap.ends (by simp) []
  | token hgap h => exact Gap.ends hgap _

theorem Lexeme.solid (l : Lexeme) (cs : List Char) : Solid (l.chars ++ cs) := by
  have hname : ∀ {c : Char}, isNameChar c = true → isBlank c = false ∧ c ≠ '#' := by
    intro c hc
    constructor
    · cases hb : isBlank c with
      | false => rfl
      | true => rw [← hc, not_isNameChar_of_isBlank hb]
    · rintro rfl
      revert hc
      decide
  obtain ⟨c, rest, hchars, hc⟩ : ∃ c rest, l.chars = c :: rest ∧ (isBlank c = false ∧ c ≠ '#') := by
    cases l with
    | word k =>
      obtain ⟨c, rest, htext, hc⟩ := k.exists_text
      exact ⟨c, rest, htext, hname (isNameChar_of_isLetter hc)⟩
    | mark m =>
      obtain ⟨c, rest, htext, -, -, hc⟩ := m.exists_text
      exact ⟨c, rest, htext, hc⟩
    | name s hs =>
      obtain ⟨c, rest, htext, hc, -⟩ := isIdentifier_iff.1 hs
      exact ⟨c, rest, htext, hname (isNameChar_of_isLetter hc)⟩
    | number s hs =>
      obtain ⟨c, rest, htext, hall⟩ := isNumber_iff.1 hs
      exact ⟨c, rest, htext, hname (isNameChar_of_isDigit (hall c (htext ▸ List.mem_cons_self)))⟩
  intro x hx
  rw [hchars, List.cons_append, List.head?_cons] at hx
  exact Option.some.inj hx ▸ hc

/-- The next token is the first of the list, and the others come after it. -/
def Head.At (h : Head) : List Lexeme → Prop
  | [] => h.token.terminal = .finish
  | l :: ls => h.token.terminal = l.terminal ∧ h.token.text = l.text ∧ Spells ls h.rest.rest

/-- The terminal of the first token. -/
def firstOf : List Lexeme → Terminal
  | [] => .finish
  | l :: _ => l.terminal

theorem readToken_lexeme {expected : List Terminal} {last : Token} {cursor : Cursor} {gap : Gap} {l : Lexeme}
    {ls : List Lexeme} {cs : List Char} (hcursor : cursor.rest = gap.chars ++ (l.chars ++ cs))
    (hl : l.terminal ∈ expected) (hcs : Spells ls cs) :
    ∃ h, readToken expected last cursor = .ok h ∧ h.At (l :: ls) := by
  have hrest : (skipBlanks false cursor.rest cursor.line cursor.column).rest = l.chars ++ cs := by
    rw [hcursor]
    exact rest_skipBlanks gap (l.solid cs) _ _
  have hscan := scan?_lexeme hl hcs.ends
  have hne : l.chars ++ cs ≠ [] := by
    intro hnil
    rw [hnil] at hscan
    cases hscan
  obtain ⟨c, rest, hcons⟩ := List.exists_cons_of_ne_nil hne
  rw [readToken]
  simp only [hrest, hcons]
  rw [hcons] at hscan
  simp only [hscan]
  refine ⟨_, rfl, rfl, ?_, ?_⟩
  · simp only [Cursor.cut, hrest, List.take_left]
    exact String.ofList_toList
  · simp only [Cursor.cut, hrest, List.drop_left]
    exact hcs

theorem readToken_gap {expected : List Terminal} {last : Token} {cursor : Cursor} {gap : Gap}
    (hcursor : cursor.rest = gap.chars) : ∃ h, readToken expected last cursor = .ok h ∧ h.At [] := by
  have hrest : (skipBlanks false cursor.rest cursor.line cursor.column).rest = [] := by
    rw [hcursor, ← List.append_nil gap.chars]
    exact rest_skipBlanks gap (fun c hc => by cases hc) _ _
  rw [readToken]
  simp only [hrest]
  exact ⟨_, rfl, rfl⟩

theorem Head.At.pass {h : Head} {l : Lexeme} {ls : List Lexeme} (hat : h.At (l :: ls))
    (expected : List Terminal) (hfits : firstOf ls ∈ Terminal.finish :: expected) :
    ∃ h', h.pass expected = .ok h' ∧ h'.At ls := by
  obtain ⟨-, -, hspells⟩ := hat
  rw [Head.pass]
  generalize hcs : h.rest.rest = cs at hspells
  cases hspells with
  | done gap => exact readToken_gap hcs
  | @token gap l' ls cs hgap hrest =>
    refine readToken_lexeme hcs ?_ hrest
    rw [firstOf, List.mem_cons] at hfits
    exact hfits.resolve_left (by cases l' <;> simp [Lexeme.terminal])

theorem spells_of_separated {tokens : List (Gap × Lexeme)} (h : ∀ p ∈ tokens, p.1 ≠ []) (trailing : Gap) :
    Spells (tokens.map Prod.snd) (tokens.flatMap (fun p => p.1.chars ++ p.2.chars) ++ trailing.chars) := by
  induction tokens with
  | nil => exact .done trailing
  | cons p rest ih =>
    rw [List.forall_mem_cons] at h
    rw [List.map_cons, List.flatMap_cons, List.append_assoc, List.append_assoc]
    exact .token h.1 (ih h.2)

theorem Layout.start (x : Layout) {expected : List Terminal}
    (hfits : firstOf x.lexemes ∈ Terminal.finish :: expected) :
    ∃ h, Head.start expected x.text = .ok h ∧ h.At x.lexemes := by
  obtain ⟨tokens, trailing, hseparated⟩ := x
  rw [Head.start]
  cases tokens with
  | nil => exact readToken_gap (String.toList_ofList ..)
  | cons p rest =>
    obtain ⟨gap, l⟩ := p
    have hcursor : (String.ofList (Layout.chars ⟨(gap, l) :: rest, trailing, hseparated⟩)).toList =
        gap.chars ++ (l.chars ++ (rest.flatMap (fun p => p.1.chars ++ p.2.chars) ++ trailing.chars)) := by
      rw [String.toList_ofList, Layout.chars, List.flatMap_cons, List.append_assoc, List.append_assoc]
    refine readToken_lexeme hcursor ?_ (spells_of_separated hseparated trailing)
    change l.terminal ∈ _ at hfits
    rw [List.mem_cons] at hfits
    exact hfits.resolve_left (by cases l <;> simp [Lexeme.terminal])

end MovePlan.Text
