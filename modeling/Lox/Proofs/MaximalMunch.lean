import Mathlib.Data.List.TakeWhile
import Lox.Token.Lexer

/-!
Scanning is maximal munch over the terminals of the grammar. The token classes are stated here
as sets of texts, read off the grammar's terminal definitions and independent of `piece?`:
`NUMBER` is `[0-9]+(\.[0-9]+)?`, `STRING` is `"[^"]*"`, `IDENTIFIER` is
`[A-Za-z_][A-Za-z0-9_]*` unless the word is a keyword, every other terminal is its fixed text,
and blanks and `//` comments are skipped. `Scanned before input tokens stop` says how a text is
scanned after `before`: at each place the longest text of any class is taken, and scanning stops
where no class has a nonempty text. The main result is that `Token.scan` gives exactly the
tokens and the stop of this relation, so the relation has one outcome for every source.
-/

namespace Lox

namespace Lexer

/-- Nonempty runs of digits. -/
def IsDigits (w : List Char) : Prop := w ≠ [] ∧ ∀ c ∈ w, c.isDigit

/-- The texts of `NUMBER`: digits, optionally followed by a point and more digits. -/
def IsNumeral (w : List Char) : Prop :=
  IsDigits w ∨ ∃ whole fraction, IsDigits whole ∧ IsDigits fraction ∧ w = whole ++ '.' :: fraction

/-- The texts of `STRING`: a double quote, anything but a double quote, a double quote. -/
def IsQuoted (w : List Char) : Prop := ∃ body, '"' ∉ body ∧ w = '"' :: body ++ ['"']

/-- The texts of `IDENTIFIER`: a letter or underscore, then letters, digits and underscores. -/
def IsWord (w : List Char) : Prop :=
  ∃ c rest, w = c :: rest ∧ (c.isAlpha ∨ c = '_') ∧ ∀ d ∈ rest, d.isAlphanum ∨ d = '_'

/-- The texts skipped between tokens: a run of blanks, or a comment to the end of its line. -/
def IsSkipped (w : List Char) : Prop :=
  (w ≠ [] ∧ ∀ c ∈ w, c = ' ' ∨ c = '\t' ∨ c = '\x0c' ∨ c = '\r' ∨ c = '\n') ∨
    ∃ body, '\n' ∉ body ∧ w = '/' :: '/' :: body

/-- The texts a terminal's tokens have. A word is an identifier exactly when it spells no
keyword; a keyword, like an operator or a punctuation mark, is its fixed text. -/
inductive Spells : Terminal → List Char → Prop
  | fixed {t : Terminal} {w : List Char} : t.text?.map String.toList = some w → Spells t w
  | identifier {w : List Char} :
      IsWord w → Terminal.keyword? (String.ofList w) = none → Spells .identifier w
  | number {w : List Char} : IsNumeral w → Spells .number w
  | string {w : List Char} : IsQuoted w → Spells .string w

/-- A text that some terminal, skipped or not, matches. -/
def IsLexeme (w : List Char) : Prop := IsSkipped w ∨ ∃ t, Spells t w

/-- No longer text, reaching into what follows, is a lexeme. -/
def Longest (w rest : List Char) : Prop := ∀ q, q ≠ [] → q <+: rest → ¬ IsLexeme (w ++ q)

/-- The line of a place: one more than the line feeds before it. -/
def lineAt (before : List Char) : Nat := before.count '\n' + 1

/-- The column of a place: one more than the characters since the last line feed. -/
def columnAt (before : List Char) : Nat := (before.reverse.takeWhile (· ≠ '\n')).length + 1

/-- The value a token carries: a number's double, a string's body, nothing otherwise. -/
def literalOf : Terminal → List Char → Json
  | .number, w => .float (numberValue (w.takeWhile Char.isDigit) ((w.dropWhile Char.isDigit).drop 1))
  | .string, w => .str (String.ofList (w.drop 1).dropLast)
  | _, _ => .null

/-- The error where no terminal matches: an unclosed string at a double quote, an unexpected
character otherwise, on the line of that character. -/
def stopAt (before : List Char) (c : Char) : LexError :=
  if c = '"' then .unterminatedString (lineAt before) else .unexpectedCharacter (lineAt before)

/-- `Scanned before input tokens stop`: scanning `input`, which follows the text `before`, gives
`tokens`, and stops early with `stop` or reaches the end with `none`. -/
inductive Scanned : List Char → List Char → List Token → Option LexError → Prop
  | finished {before : List Char} : Scanned before [] [] none
  | stuck {before rest : List Char} {c : Char} :
      (∀ w, w ≠ [] → w <+: c :: rest → ¬ IsLexeme w) →
      Scanned before (c :: rest) [] (some (stopAt before c))
  | skip {before w rest : List Char} {tokens : List Token} {stop : Option LexError} :
      IsSkipped w → Longest w rest → Scanned (before ++ w) rest tokens stop →
      Scanned before (w ++ rest) tokens stop
  | token {before w rest : List Char} {tokens : List Token} {stop : Option LexError}
      {t : Terminal} :
      Spells t w → Longest w rest → Scanned (before ++ w) rest tokens stop →
      Scanned before (w ++ rest)
        (⟨.terminal t, String.ofList w, literalOf t w, lineAt before, columnAt before⟩ :: tokens)
        stop

/-- The terminal of a text of one or two operator characters. -/
def symbolTerminal? : List Char → Option Terminal
  | [c] => oneCharTerminal? c
  | [c, d] => twoCharTerminal? c d
  | _ => none

theorem oneChar_text {c : Char} {t : Terminal} (h : oneCharTerminal? c = some t) :
    t.text?.map String.toList = some [c] := by
  unfold oneCharTerminal? at h
  split at h <;> cases h <;> rfl

theorem twoChar_text {c d : Char} {t : Terminal} (h : twoCharTerminal? c d = some t) :
    t.text?.map String.toList = some [c, d] := by
  unfold twoCharTerminal? at h
  split at h <;> cases h <;> rfl

theorem oneChar_class {c : Char} {t : Terminal} (h : oneCharTerminal? c = some t) :
    c.isAlpha = false ∧ c.isDigit = false ∧ isBlank c = false ∧ c ≠ '"' ∧ c ≠ '_' := by
  unfold oneCharTerminal? at h
  split at h <;> cases h <;> decide

theorem twoChar_class {c d : Char} {t : Terminal} (h : twoCharTerminal? c d = some t) :
    d = '=' ∧ (oneCharTerminal? c).isSome := by
  unfold twoCharTerminal? at h
  split at h <;> cases h <;> decide

/-- Every fixed text is a keyword or an operator of one or two characters. -/
theorem fixed_text_cases {t : Terminal} {w : List Char}
    (h : t.text?.map String.toList = some w) :
    Terminal.keyword? (String.ofList w) = some t ∨ symbolTerminal? w = some t := by
  cases t <;> simp [Terminal.text?] at h <;> subst h <;> decide

theorem wordStart_not_digit {c : Char} (h : isWordStart c) : c.isDigit = false := by
  simp only [isWordStart, Bool.or_eq_true, decide_eq_true_eq] at h
  rcases h with h | rfl
  · delta Char.isAlpha Char.isUpper Char.isLower at h
    simp only [Char.isDigit, Bool.or_eq_true,
      Bool.and_eq_true, decide_eq_true_eq, Bool.and_eq_false_iff, decide_eq_false_iff_not,
      UInt32.le_iff_toNat_le] at h ⊢
    have : ('A').val.toNat = 65 := rfl
    have : ('Z').val.toNat = 90 := rfl
    have : ('a').val.toNat = 97 := rfl
    have : ('z').val.toNat = 122 := rfl
    have : ('0').val.toNat = 48 := rfl
    have : ('9').val.toNat = 57 := rfl
    omega
  · decide

theorem blank_cases {c : Char} (h : isBlank c) :
    c = ' ' ∨ c = '\t' ∨ c = '\x0c' ∨ c = '\r' ∨ c = '\n' := by
  simpa [isBlank, or_assoc] using h

theorem blank_class {c : Char} (h : isBlank c) :
    isWordStart c = false ∧ c.isDigit = false ∧ c ≠ '/' ∧ c ≠ '"' := by
  rcases blank_cases h with rfl | rfl | rfl | rfl | rfl <;> decide

theorem digit_class {c : Char} (h : c.isDigit) : isWordStart c = false ∧ c ≠ '/' ∧ c ≠ '"' := by
  refine ⟨?_, ?_, ?_⟩
  · cases hw : isWordStart c
    · rfl
    · simp [wordStart_not_digit hw] at h
  all_goals rintro rfl; revert h; decide

theorem wordStart_class {c : Char} (h : isWordStart c) : c ≠ '/' ∧ c ≠ '"' := by
  constructor <;> rintro rfl <;> revert h <;> decide

theorem symbol_head {c : Char} {x : List Char} (h : (symbolTerminal? (c :: x)).isSome) :
    (oneCharTerminal? c).isSome ∧ (x = [] ∨ ∃ d, x = [d] ∧ (twoCharTerminal? c d).isSome) := by
  match x, h with
  | [], h => exact ⟨h, .inl rfl⟩
  | [d], h =>
    obtain ⟨t, ht⟩ := Option.isSome_iff_exists.mp h
    exact ⟨(twoChar_class ht).2, .inr ⟨d, rfl, by simp [symbolTerminal?] at ht; simp [ht]⟩⟩

theorem symbol_class {c : Char} (h : (oneCharTerminal? c).isSome) :
    isBlank c = false ∧ isWordStart c = false ∧ c.isDigit = false ∧ c ≠ '"' := by
  obtain ⟨t, ht⟩ := Option.isSome_iff_exists.mp h
  obtain ⟨halpha, hdigit, hblank, hquote, hunder⟩ := oneChar_class ht
  exact ⟨hblank, by simp [isWordStart, halpha, hunder], hdigit, hquote⟩

theorem isWord_cons {c : Char} {x : List Char} :
    IsWord (c :: x) ↔ isWordStart c ∧ ∀ d ∈ x, isWordPart d := by
  constructor
  · rintro ⟨d, rest, heq, hstart, hpart⟩
    obtain ⟨rfl, rfl⟩ := List.cons.inj heq
    exact ⟨by simpa [isWordStart] using hstart, fun e he => by simpa [isWordPart] using hpart e he⟩
  · rintro ⟨hstart, hpart⟩
    exact ⟨c, x, rfl, by simpa [isWordStart] using hstart,
      fun e he => by simpa [isWordPart] using hpart e he⟩

/-- A word's text as a test: a word-start character, then word characters. -/
def isWordText : List Char → Bool
  | c :: x => isWordStart c && x.all isWordPart
  | [] => false

theorem keyword_text {w : List Char} {t : Terminal}
    (h : Terminal.keyword? (String.ofList w) = some t) :
    t.text?.map String.toList = some w ∧ IsWord w := by
  have hmem := List.mem_of_find?_eq_some h
  have htext : t.text? = some (String.ofList w) := by simpa using List.find?_some h
  -- the sixteen keyword texts are checked as words once, by evaluation
  have hwords : [Terminal.kwAnd, .kwClass, .kwElse, .kwFalse, .kwFor, .kwFun, .kwIf, .kwNil,
      .kwOr, .kwPrint, .kwReturn, .kwSuper, .kwThis, .kwTrue, .kwVar, .kwWhile].all
      (fun k => (k.text?.map String.toList).all isWordText) := by decide
  have hword := List.all_eq_true.mp hwords t hmem
  rw [htext] at hword
  refine ⟨by simp [htext], ?_⟩
  cases w with
  | nil => simp [isWordText] at hword
  | cons c x =>
    simp only [Option.map_some, String.toList_ofList, Option.all_some, isWordText,
      Bool.and_eq_true, List.all_eq_true] at hword
    exact isWord_cons.mpr hword

theorem numeral_head {c : Char} {x : List Char} (h : IsNumeral (c :: x)) : c.isDigit := by
  rcases h with ⟨_, hall⟩ | ⟨whole, fraction, ⟨hne, hall⟩, _, heq⟩
  · exact hall c (List.mem_cons_self ..)
  · obtain ⟨d, rest, rfl⟩ := List.exists_cons_of_ne_nil hne
    simp only [List.cons_append, List.cons.injEq] at heq
    exact heq.1 ▸ hall d (List.mem_cons_self ..)

/-- What a lexeme looks like, by its first character. -/
theorem IsLexeme.cases {c : Char} {x : List Char} (h : IsLexeme (c :: x)) :
    (isBlank c ∧ ∀ d ∈ x, isBlank d) ∨
    (c = '/' ∧ ∃ body, '\n' ∉ body ∧ x = '/' :: body) ∨
    (isWordStart c ∧ ∀ d ∈ x, isWordPart d) ∨
    (c.isDigit ∧ IsNumeral (c :: x)) ∨
    (c = '"' ∧ IsQuoted (c :: x)) ∨
    (symbolTerminal? (c :: x)).isSome := by
  rcases h with (⟨_, hall⟩ | ⟨body, hbody, heq⟩) | ⟨t, ht⟩
  · have hblank : ∀ d ∈ c :: x, isBlank d := fun d hd => by
      simpa [isBlank, or_assoc] using hall d hd
    exact .inl ⟨hblank c (List.mem_cons_self ..), fun d hd => hblank d (List.mem_cons_of_mem _ hd)⟩
  · simp only [List.cons.injEq] at heq
    exact .inr (.inl ⟨heq.1, body, hbody, heq.2⟩)
  · cases ht with
    | fixed hfix =>
      rcases fixed_text_cases hfix with hkw | hsym
      · exact .inr (.inr (.inl (isWord_cons.mp (keyword_text hkw).2)))
      · exact .inr (.inr (.inr (.inr (.inr (by simp [hsym])))))
    | identifier hword _ => exact .inr (.inr (.inl (isWord_cons.mp hword)))
    | number hnum => exact .inr (.inr (.inr (.inl ⟨numeral_head hnum, hnum⟩)))
    | string hquoted =>
      obtain ⟨body, _, heq⟩ := hquoted
      simp only [List.cons_append, List.cons.injEq] at heq
      exact .inr (.inr (.inr (.inr (.inl ⟨heq.1, heq.1 ▸ ⟨body, by assumption, by simp [heq.2]⟩⟩))))

theorem drop_takeWhile_length {p : Char → Bool} (l : List Char) :
    l.drop (l.takeWhile p).length = l.dropWhile p := by
  induction l with
  | nil => rfl
  | cons a l ih => by_cases h : p a <;> simp [List.takeWhile, List.dropWhile, h, ih]

theorem takeWhile_append_drop {p : Char → Bool} (l : List Char) :
    l.takeWhile p ++ l.drop (l.takeWhile p).length = l := by
  rw [drop_takeWhile_length, List.takeWhile_append_dropWhile]

theorem drop_takeWhile_head {p : Char → Bool} {l r : List Char} {d : Char}
    (h : l.drop (l.takeWhile p).length = d :: r) : p d = false := by
  rw [drop_takeWhile_length] at h
  have hne : l.dropWhile p ≠ [] := by simp [h]
  simpa [h] using List.head_dropWhile_not p hne

theorem append_cons_eq_of_all {p : Char → Bool} {a b xs ys : List Char} {x y : Char}
    (ha : ∀ c ∈ a, p c) (hb : ∀ c ∈ b, p c) (hx : p x = false) (hy : p y = false)
    (h : a ++ x :: xs = b ++ y :: ys) : a = b ∧ x = y ∧ xs = ys := by
  induction a generalizing b with
  | nil =>
    cases b with
    | nil => simpa using h
    | cons c b =>
      simp only [List.nil_append, List.cons_append, List.cons.injEq] at h
      have hc := hb c (List.mem_cons_self ..)
      simp [← h.1, hx] at hc
  | cons c a ih =>
    cases b with
    | nil =>
      simp only [List.nil_append, List.cons_append, List.cons.injEq] at h
      have hc := ha c (List.mem_cons_self ..)
      simp [h.1, hy] at hc
    | cons d b =>
      simp only [List.cons_append, List.cons.injEq] at h
      obtain ⟨rfl, h⟩ := h
      obtain ⟨rfl, hxy, hrest⟩ := ih (fun e he => ha e (List.mem_cons_of_mem _ he))
        (fun e he => hb e (List.mem_cons_of_mem _ he)) h
      exact ⟨rfl, hxy, hrest⟩

theorem takeWhile_append_of_all {p : Char → Bool} {a b : List Char} {y : Char}
    (ha : ∀ c ∈ a, p c) (hy : p y = false) : (a ++ y :: b).takeWhile p = a := by
  induction a with
  | nil => simp [hy]
  | cons c a ih =>
    simp [ha c (List.mem_cons_self ..),
      ih fun e he => ha e (List.mem_cons_of_mem _ he)]

theorem dropWhile_append_of_all {p : Char → Bool} {a b : List Char} {y : Char}
    (ha : ∀ c ∈ a, p c) (hy : p y = false) : (a ++ y :: b).dropWhile p = y :: b := by
  induction a with
  | nil => simp [hy]
  | cons c a ih =>
    simp [ha c (List.mem_cons_self ..),
      ih fun e he => ha e (List.mem_cons_of_mem _ he)]

/-- To be longest it is enough that no lexeme reaches one character or more into the rest. -/
theorem longest_of_cons {c : Char} {run rest : List Char}
    (h : ∀ d q r, rest = d :: r → q <+: r → ¬ IsLexeme (c :: (run ++ d :: q))) :
    Longest (c :: run) rest := by
  intro q hq hpre
  obtain ⟨d, q, rfl⟩ := List.exists_cons_of_ne_nil hq
  obtain ⟨s, hs⟩ := hpre
  simpa using h d q (q ++ s) (by simp [← hs]) ⟨s, rfl⟩

/-- What `piece?` has to find at the start of a text: no lexeme at all, a longest skipped
text, or a longest token text with its terminal and value. -/
def PieceSpec (input : List Char) : Option (Piece × List Char × List Char) → Prop
  | none => ∀ w, w ≠ [] → w <+: input → ¬ IsLexeme w
  | some (.skip, w, rest) => input = w ++ rest ∧ IsSkipped w ∧ Longest w rest
  | some (.token t literal, w, rest) =>
    input = w ++ rest ∧ Spells t w ∧ Longest w rest ∧ literal = literalOf t w

theorem literalOf_fixed {t : Terminal} (w : List Char) (h : (t.text?.map String.toList).isSome) :
    literalOf t w = .null := by
  cases t <;> simp_all [literalOf, Terminal.text?]

theorem blank_piece {c : Char} (cs : List Char) (hc : isBlank c) :
    PieceSpec (c :: cs)
      (some (.skip, c :: cs.takeWhile isBlank, cs.drop (cs.takeWhile isBlank).length)) := by
  refine ⟨by simp [takeWhile_append_drop], .inl ⟨List.cons_ne_nil _ _, ?_⟩, ?_⟩
  · intro d hd
    rcases List.mem_cons.mp hd with rfl | hd
    · exact blank_cases hc
    · exact blank_cases (List.mem_takeWhile_imp hd)
  · refine longest_of_cons fun d q r hrest _ hlex => ?_
    have hd := drop_takeWhile_head hrest
    obtain ⟨hword, hdigit, hslash, hquote⟩ := blank_class hc
    rcases IsLexeme.cases hlex with ⟨_, hall⟩ | ⟨rfl, _⟩ | ⟨hw, _⟩ | ⟨hdig, _⟩ | ⟨rfl, _⟩ | hsym
    · simp [hall d (by simp)] at hd
    · exact hslash rfl
    · simp [hword] at hw
    · simp [hdigit] at hdig
    · exact hquote rfl
    · simp [(symbol_class (symbol_head hsym).1).1] at hc

theorem comment_piece (cs : List Char) :
    PieceSpec ('/' :: '/' :: cs)
      (some (.skip, '/' :: ('/' :: cs).takeWhile (· ≠ '\n'),
        ('/' :: cs).drop (('/' :: cs).takeWhile (· ≠ '\n')).length)) := by
  have hrun : ('/' :: cs).takeWhile (· ≠ '\n') = '/' :: cs.takeWhile (· ≠ '\n') :=
    List.takeWhile_cons_of_pos (by decide)
  have hbody : '\n' ∉ cs.takeWhile (· ≠ '\n') := fun h => by
    simpa using List.mem_takeWhile_imp h
  refine ⟨by simp only [List.cons_append, takeWhile_append_drop], .inr ⟨_, hbody, by rw [hrun]⟩, ?_⟩
  refine longest_of_cons fun d q r hrest _ hlex => ?_
  have hd : d = '\n' := by simpa using drop_takeWhile_head hrest
  subst hd
  rcases IsLexeme.cases hlex with ⟨hb, _⟩ | ⟨_, body, hnl, heq⟩ | ⟨hw, _⟩ | ⟨hdig, _⟩ | ⟨hq, _⟩ | hsym
  · exact absurd hb (by decide)
  · rw [hrun] at heq
    simp only [List.cons_append, List.cons.injEq, true_and] at heq
    exact hnl (heq ▸ by simp)
  · exact absurd hw (by decide)
  · exact absurd hdig (by decide)
  · exact absurd hq (by decide)
  · rcases (symbol_head hsym).2 with h | ⟨e, h, _⟩ <;> rw [hrun] at h <;> simp at h

theorem word_piece {c : Char} (cs : List Char) (hc : isWordStart c) :
    PieceSpec (c :: cs)
      (some (.token ((Terminal.keyword? (String.ofList (c :: cs.takeWhile isWordPart))).getD
        .identifier) .null, c :: cs.takeWhile isWordPart,
        cs.drop (cs.takeWhile isWordPart).length)) := by
  have hword : IsWord (c :: cs.takeWhile isWordPart) :=
    isWord_cons.mpr ⟨hc, fun d hd => List.mem_takeWhile_imp hd⟩
  refine ⟨by simp [takeWhile_append_drop], ?_, ?_, ?_⟩
  · cases hk : Terminal.keyword? (String.ofList (c :: cs.takeWhile isWordPart)) with
    | none => exact .identifier hword hk
    | some t => exact .fixed (keyword_text hk).1
  · refine longest_of_cons fun d q r hrest _ hlex => ?_
    have hd := drop_takeWhile_head hrest
    obtain ⟨hslash, hquote⟩ := wordStart_class hc
    rcases IsLexeme.cases hlex with ⟨hb, _⟩ | ⟨rfl, _⟩ | ⟨_, hall⟩ | ⟨hdig, _⟩ | ⟨rfl, _⟩ | hsym
    · simp [(blank_class hb).1] at hc
    · exact hslash rfl
    · simp [hall d (by simp)] at hd
    · simp [wordStart_not_digit hc] at hdig
    · exact hquote rfl
    · simp [(symbol_class (symbol_head hsym).1).2.1] at hc
  · cases hk : Terminal.keyword? (String.ofList (c :: cs.takeWhile isWordPart)) with
    | none => rfl
    | some t => exact (literalOf_fixed _ (by simp [(keyword_text hk).1])).symm

/-- A number without a fraction: its digits, when no point followed by a digit comes next. -/
theorem whole_piece {c : Char} (cs : List Char) (hc : c.isDigit)
    (hno : ∀ d more, cs.drop (cs.takeWhile Char.isDigit).length = '.' :: d :: more →
      d.isDigit = false) :
    PieceSpec (c :: cs)
      (some (.token .number (.float (numberValue (c :: cs.takeWhile Char.isDigit) [])),
        c :: cs.takeWhile Char.isDigit, cs.drop (cs.takeWhile Char.isDigit).length)) := by
  have hall : ∀ d ∈ c :: cs.takeWhile Char.isDigit, d.isDigit := by
    intro d hd
    rcases List.mem_cons.mp hd with rfl | hd
    · exact hc
    · exact List.mem_takeWhile_imp hd
  refine ⟨by simp [takeWhile_append_drop], .number (.inl ⟨List.cons_ne_nil _ _, hall⟩), ?_, ?_⟩
  · refine longest_of_cons fun e q r hrest hpre hlex => ?_
    have he := drop_takeWhile_head hrest
    obtain ⟨hword, hslash, hquote⟩ := digit_class hc
    rcases IsLexeme.cases hlex with ⟨hb, _⟩ | ⟨rfl, _⟩ | ⟨hw, _⟩ | ⟨_, hnum⟩ | ⟨rfl, _⟩ | hsym
    · simp [(blank_class hb).2.1] at hc
    · exact hslash rfl
    · simp [hword] at hw
    · rcases hnum with ⟨_, hdigits⟩ | ⟨whole, fraction, ⟨_, hw⟩, ⟨hf, hfd⟩, heq⟩
      · simp [hdigits e (by simp)] at he
      · -- the point of the numeral is its first non-digit, so it is `e` and the fraction is `q`
        obtain ⟨-, rfl, rfl⟩ := append_cons_eq_of_all (p := Char.isDigit) (x := '.') hw hall
          (by decide) he (by rw [List.cons_append]; exact heq.symm)
        obtain ⟨f, fraction, rfl⟩ := List.exists_cons_of_ne_nil hf
        obtain ⟨s, rfl⟩ := hpre
        simp [hno f (fraction ++ s) (by simp [hrest])] at hfd
    · exact hquote rfl
    · simp [(symbol_class (symbol_head hsym).1).2.2.1] at hc
  · simp [literalOf, List.takeWhile_eq_self_iff.mpr hall, List.dropWhile_eq_nil_iff.mpr hall]

/-- A number with a fraction: digits, a point, and the digits after it. -/
theorem fraction_piece {c d : Char} (cs more : List Char) (hc : c.isDigit) (hd : d.isDigit)
    (hafter : cs.drop (cs.takeWhile Char.isDigit).length = '.' :: d :: more) :
    PieceSpec (c :: cs)
      (some (.token .number (.float (numberValue (c :: cs.takeWhile Char.isDigit)
          ((d :: more).takeWhile Char.isDigit))),
        c :: cs.takeWhile Char.isDigit ++ '.' :: (d :: more).takeWhile Char.isDigit,
        (d :: more).drop ((d :: more).takeWhile Char.isDigit).length)) := by
  have hall : ∀ e ∈ c :: cs.takeWhile Char.isDigit, e.isDigit := by
    intro e he
    rcases List.mem_cons.mp he with rfl | he
    · exact hc
    · exact List.mem_takeWhile_imp he
  have hfrac : ∀ e ∈ (d :: more).takeWhile Char.isDigit, e.isDigit :=
    fun e he => List.mem_takeWhile_imp he
  have hfne : (d :: more).takeWhile Char.isDigit ≠ [] := by
    simp [List.takeWhile_cons_of_pos hd]
  refine ⟨?_, .number (.inr ⟨_, _, ⟨List.cons_ne_nil _ _, hall⟩, ⟨hfne, hfrac⟩, rfl⟩), ?_, ?_⟩
  · have hcs := takeWhile_append_drop (p := Char.isDigit) cs
    have hmore := takeWhile_append_drop (p := Char.isDigit) (d :: more)
    rw [hafter, ← hmore] at hcs
    simp only [List.cons_append, List.append_assoc, hcs]
  · show Longest (c :: (cs.takeWhile Char.isDigit ++ '.' :: (d :: more).takeWhile Char.isDigit)) _
    refine longest_of_cons fun e q r hrest _ hlex => ?_
    have he := drop_takeWhile_head hrest
    obtain ⟨hword, hslash, hquote⟩ := digit_class hc
    rcases IsLexeme.cases hlex with ⟨hb, _⟩ | ⟨rfl, _⟩ | ⟨hw, _⟩ | ⟨_, hnum⟩ | ⟨rfl, _⟩ | hsym
    · simp [(blank_class hb).2.1] at hc
    · exact hslash rfl
    · simp [hword] at hw
    · rcases hnum with ⟨_, hdigits⟩ | ⟨whole, fraction, ⟨_, hw⟩, ⟨_, hfd⟩, heq⟩
      · exact absurd (hdigits '.' (by simp)) (by decide)
      · -- the point of the numeral is the point after the whole digits
        obtain ⟨-, -, rfl⟩ := append_cons_eq_of_all (p := Char.isDigit) (x := '.') (y := '.') hw
          hall (by decide) (by decide)
          (by simp only [List.cons_append, List.append_assoc] at heq ⊢; exact heq.symm)
        simp [hfd e (by simp)] at he
    · exact hquote rfl
    · simp [(symbol_class (symbol_head hsym).1).2.2.1] at hc
  · simp only [literalOf]
    rw [takeWhile_append_of_all (p := Char.isDigit) hall (y := '.') (by decide),
      dropWhile_append_of_all (p := Char.isDigit) hall (y := '.') (by decide)]
    rfl

theorem not_quoted_of_inner {body q : List Char} {d : Char} :
    ¬ IsQuoted ('"' :: (body ++ '"' :: d :: q)) := by
  rintro ⟨body', hq, heq⟩
  simp only [List.cons_append, List.cons.injEq, true_and] at heq
  rcases List.append_eq_append_iff.mp heq with ⟨a, rfl, ha⟩ | ⟨c, _, hc⟩
  · cases a with
    | nil => simp at ha
    | cons e a =>
      simp only [List.cons_append, List.cons.injEq] at ha
      exact hq (ha.1 ▸ by simp)
  · have := congrArg List.length hc
    simp at this
    omega

/-- A closed string: a quote, everything up to the next quote, and that quote. -/
theorem quoted_piece (cs rest : List Char)
    (h : cs.drop (cs.takeWhile (· ≠ '"')).length = '"' :: rest) :
    PieceSpec ('"' :: cs)
      (some (.token .string (.str (String.ofList (cs.takeWhile (· ≠ '"')))),
        '"' :: cs.takeWhile (· ≠ '"') ++ ['"'], rest)) := by
  have hbody : '"' ∉ cs.takeWhile (· ≠ '"') := fun h => by
    simpa using List.mem_takeWhile_imp h
  refine ⟨?_, .string ⟨_, hbody, rfl⟩, ?_, by simp [literalOf]⟩
  · have hcs := takeWhile_append_drop (p := (· ≠ '"')) cs
    rw [h] at hcs
    simp only [List.append_assoc, List.cons_append, List.nil_append, hcs]
  · show Longest ('"' :: (cs.takeWhile (· ≠ '"') ++ ['"'])) rest
    refine longest_of_cons fun d q r _ _ hlex => ?_
    rcases IsLexeme.cases hlex with ⟨hb, _⟩ | ⟨h, _⟩ | ⟨hw, _⟩ | ⟨hdig, _⟩ | ⟨_, hq⟩ | hsym
    · exact absurd hb (by decide)
    · exact absurd h (by decide)
    · exact absurd hw (by decide)
    · exact absurd hdig (by decide)
    · exact not_quoted_of_inner (by simpa using hq)
    · exact (symbol_class (symbol_head hsym).1).2.2.2 rfl

/-- A quote never closed starts no lexeme. -/
theorem unclosed_piece (cs : List Char)
    (h : ∀ rest, cs.drop (cs.takeWhile (· ≠ '"')).length ≠ '"' :: rest) :
    PieceSpec ('"' :: cs) none := by
  have hnone : '"' ∉ cs := by
    intro hmem
    cases hdrop : cs.drop (cs.takeWhile (· ≠ '"')).length with
    | nil =>
      rw [drop_takeWhile_length] at hdrop
      simpa using List.dropWhile_eq_nil_iff.mp hdrop '"' hmem
    | cons e rest =>
      have he : e = '"' := by simpa using drop_takeWhile_head hdrop
      exact h rest (he ▸ hdrop)
  intro w hw hpre hlex
  obtain ⟨x, rfl, hx⟩ := (List.prefix_cons_iff.mp hpre).resolve_left hw
  rcases IsLexeme.cases hlex with ⟨hb, _⟩ | ⟨h, _⟩ | ⟨hw, _⟩ | ⟨hdig, _⟩ | ⟨_, body, _, heq⟩ | hsym
  · exact absurd hb (by decide)
  · exact absurd h (by decide)
  · exact absurd hw (by decide)
  · exact absurd hdig (by decide)
  · simp only [List.cons_append, List.cons.injEq, true_and] at heq
    exact hnone (hx.subset (heq ▸ by simp))
  · exact (symbol_class (symbol_head hsym).1).2.2.2 rfl

theorem two_char_piece {c d : Char} {t : Terminal} (rest : List Char)
    (h : twoCharTerminal? c d = some t) :
    PieceSpec (c :: d :: rest) (some (.token t .null, [c, d], rest)) := by
  refine ⟨rfl, .fixed (twoChar_text h), ?_, (literalOf_fixed _ (by simp [twoChar_text h])).symm⟩
  obtain ⟨hd, hone⟩ := twoChar_class h
  obtain ⟨hblank, hword, hdigit, hquote⟩ := symbol_class hone
  refine longest_of_cons fun e q r _ _ hlex => ?_
  rcases IsLexeme.cases hlex with ⟨hb, _⟩ | ⟨_, body, _, heq⟩ | ⟨hw, _⟩ | ⟨hdig, _⟩ | ⟨hq, _⟩ | hsym
  · simp [hblank] at hb
  · simp [hd] at heq
  · simp [hword] at hw
  · simp [hdigit] at hdig
  · exact hquote hq
  · rcases (symbol_head hsym).2 with h | ⟨f, h, _⟩ <;> simp at h

/-- A one-character operator, where no two-character operator or comment starts. -/
theorem one_char_piece {c : Char} {t : Terminal} (cs : List Char)
    (h : oneCharTerminal? c = some t)
    (hnext : ∀ d rest, cs = d :: rest → twoCharTerminal? c d = none ∧ ¬ (c = '/' ∧ d = '/')) :
    PieceSpec (c :: cs) (some (.token t .null, [c], cs)) := by
  refine ⟨rfl, .fixed (oneChar_text h), ?_, (literalOf_fixed _ (by simp [oneChar_text h])).symm⟩
  obtain ⟨hblank, hword, hdigit, hquote⟩ := symbol_class (c := c) (by simp [h])
  refine longest_of_cons fun d q r hrest _ hlex => ?_
  obtain ⟨htwo, hcomment⟩ := hnext d r hrest
  rcases IsLexeme.cases hlex with ⟨hb, _⟩ | ⟨hc, body, _, heq⟩ | ⟨hw, _⟩ | ⟨hdig, _⟩ | ⟨hq, _⟩ | hsym
  · simp [hblank] at hb
  · simp only [List.nil_append, List.cons.injEq] at heq
    exact hcomment ⟨hc, heq.1⟩
  · simp [hword] at hw
  · simp [hdigit] at hdig
  · exact hquote hq
  · rcases (symbol_head hsym).2 with h | ⟨f, h, hf⟩
    · simp at h
    · simp only [List.nil_append, List.cons.injEq] at h
      obtain ⟨rfl, rfl⟩ := h
      simp [htwo] at hf

/-- A character that starts no token and nothing skipped. -/
theorem no_piece {c : Char} (cs : List Char) (hc : oneCharTerminal? c = none)
    (hblank : isBlank c = false) (hword : isWordStart c = false) (hdigit : c.isDigit = false)
    (hquote : c ≠ '"') : PieceSpec (c :: cs) none := by
  intro w hw hpre hlex
  obtain ⟨x, rfl, -⟩ := (List.prefix_cons_iff.mp hpre).resolve_left hw
  rcases IsLexeme.cases hlex with ⟨hb, _⟩ | ⟨rfl, _⟩ | ⟨hw, _⟩ | ⟨hdig, _⟩ | ⟨hq, _⟩ | hsym
  · simp [hblank] at hb
  · simp [oneCharTerminal?] at hc
  · simp [hword] at hw
  · simp [hdigit] at hdig
  · exact hquote hq
  · have := (symbol_head hsym).1
    simp [hc] at this

/-- `piece?` finds the longest lexeme at the start of every nonempty text, or reports that
none starts there. -/
theorem piece?_spec (c : Char) (cs : List Char) : PieceSpec (c :: cs) (piece? (c :: cs)) := by
  unfold piece?
  dsimp only
  split
  · exact blank_piece cs ‹_›
  rename_i hblank
  split
  · obtain ⟨rfl, hhead⟩ := ‹c = '/' ∧ cs.head? = some '/'›
    obtain ⟨d, cs, rfl⟩ := List.exists_cons_of_ne_nil (l := cs) (by rintro rfl; simp at hhead)
    obtain rfl : d = '/' := by simpa using hhead
    exact comment_piece cs
  rename_i hcomment
  split
  · exact word_piece cs ‹_›
  rename_i hword
  split
  · rename_i hdigit
    split
    · rename_i d more hafter
      split
      · exact fraction_piece cs more hdigit ‹_› hafter
      · rename_i hd
        refine whole_piece cs hdigit fun d' more' h => ?_
        rw [hafter] at h
        simp only [List.cons.injEq] at h
        simpa [← h.2.1] using hd
    · rename_i hno
      exact whole_piece cs hdigit fun d more h => absurd h (hno d more)
  rename_i hdigit
  split
  · subst ‹c = '"'›
    split
    · exact quoted_piece cs _ ‹_›
    · rename_i hno
      exact unclosed_piece cs fun rest h => hno rest h
  rename_i hquote
  have hclass : isBlank c = false ∧ isWordStart c = false ∧ c.isDigit = false := by
    simp_all
  split
  · rename_i d rest
    split
    · exact two_char_piece rest ‹_›
    · rename_i htwo
      cases hone : oneCharTerminal? c with
      | none => exact no_piece _ hone hclass.1 hclass.2.1 hclass.2.2 hquote
      | some t =>
        refine one_char_piece _ hone fun d' rest' h => ?_
        obtain ⟨rfl, rfl⟩ := List.cons.inj h
        exact ⟨htwo, fun ⟨hc, hd⟩ => hcomment ⟨hc, by simp [hd]⟩⟩
  · cases hone : oneCharTerminal? c with
    | none => exact no_piece _ hone hclass.1 hclass.2.1 hclass.2.2 hquote
    | some t => exact one_char_piece _ hone fun _ _ h => nomatch h

/-- The terminal a token text is read as, from its first character. -/
def classify : List Char → Option Terminal
  | [] => none
  | c :: x =>
    if isWordStart c then some ((Terminal.keyword? (String.ofList (c :: x))).getD .identifier)
    else if c.isDigit then some .number
    else if c = '"' then some .string
    else symbolTerminal? (c :: x)

theorem Spells.classify_eq {t : Terminal} {w : List Char} (h : Spells t w) :
    classify w = some t := by
  cases h with
  | fixed hfix =>
    rcases fixed_text_cases hfix with hkw | hsym
    · obtain ⟨c, x, rfl, hstart, -⟩ := (keyword_text hkw).2
      have hc : isWordStart c := by simpa [isWordStart] using hstart
      rw [classify, if_pos hc, hkw]
      rfl
    · cases w with
      | nil => simp [symbolTerminal?] at hsym
      | cons c x =>
        obtain ⟨-, hword, hdigit, hquote⟩ :=
          symbol_class (symbol_head (c := c) (x := x) (by simp [hsym])).1
        simp [classify, hword, hdigit, hquote, hsym]
  | identifier hword hkw =>
    obtain ⟨c, x, rfl, hstart, -⟩ := hword
    have hc : isWordStart c := by simpa [isWordStart] using hstart
    rw [classify, if_pos hc, hkw]
    rfl
  | number hnum =>
    cases w with
    | nil =>
      rcases hnum with ⟨h, _⟩ | ⟨_, _, _, _, heq⟩
      · exact absurd rfl h
      · simp at heq
    | cons c x =>
      have hc := numeral_head hnum
      simp [classify, (digit_class hc).1, hc]
  | string hquoted =>
    obtain ⟨body, _, rfl⟩ := hquoted
    simp [classify, isWordStart]

theorem IsSkipped.classify_eq {w : List Char} (h : IsSkipped w) : classify w = none := by
  rcases h with ⟨hne, hall⟩ | ⟨body, _, rfl⟩
  · obtain ⟨c, x, rfl⟩ := List.exists_cons_of_ne_nil hne
    have hc : isBlank c := by simpa [isBlank, or_assoc] using hall c (List.mem_cons_self ..)
    obtain ⟨hword, hdigit, -, hquote⟩ := blank_class hc
    cases hsym : symbolTerminal? (c :: x) with
    | none => simp [classify, hword, hdigit, hquote, hsym]
    | some t =>
      simp [(symbol_class (symbol_head (c := c) (x := x) (by simp [hsym])).1).1] at hc
  · cases body with
    | nil => simp [classify, symbolTerminal?, twoCharTerminal?, isWordStart]
    | cons e body => cases body <;> simp [classify, symbolTerminal?, isWordStart]

theorem IsLexeme.ne_nil {w : List Char} (h : IsLexeme w) : w ≠ [] := by
  rintro rfl
  rcases h with (⟨hne, _⟩ | ⟨_, _, h⟩) | ⟨t, ht⟩
  · exact hne rfl
  · simp at h
  · simpa [classify] using ht.classify_eq

/-- Two longest lexemes at one place are one and the same. -/
theorem longest_unique {w₁ r₁ w₂ r₂ : List Char} (h : w₁ ++ r₁ = w₂ ++ r₂)
    (h₁ : IsLexeme w₁) (h₂ : IsLexeme w₂) (hl₁ : Longest w₁ r₁) (hl₂ : Longest w₂ r₂) :
    w₁ = w₂ ∧ r₁ = r₂ := by
  rcases List.append_eq_append_iff.mp h with ⟨a, rfl, rfl⟩ | ⟨b, rfl, rfl⟩
  · by_cases ha : a = []
    · subst ha
      simp
    · exact absurd h₂ (hl₁ a ha ⟨r₂, rfl⟩)
  · by_cases hb : b = []
    · subst hb
      simp
    · exact absurd h₁ (hl₂ b hb ⟨r₁, rfl⟩)

/-- Where a longest lexeme starts, `piece?` finds exactly it. -/
theorem piece?_of_longest {c : Char} {x w rest : List Char} (hin : c :: x = w ++ rest)
    (hw : IsLexeme w) (hl : Longest w rest) : ∃ p, piece? (c :: x) = some (p, w, rest) := by
  have hspec := piece?_spec c x
  rcases hp : piece? (c :: x) with _ | ⟨p, w', rest'⟩
  · rw [hp] at hspec
    exact absurd hw (hspec w hw.ne_nil ⟨rest, hin.symm⟩)
  · rw [hp] at hspec
    cases p with
    | skip =>
      obtain ⟨heq, hskip, hl'⟩ := hspec
      obtain ⟨rfl, rfl⟩ := longest_unique (heq.symm.trans hin) (.inl hskip) hw hl' hl
      exact ⟨_, rfl⟩
    | token t literal =>
      obtain ⟨heq, hspells, hl', -⟩ := hspec
      obtain ⟨rfl, rfl⟩ := longest_unique (heq.symm.trans hin) (.inr ⟨t, hspells⟩) hw hl' hl
      exact ⟨_, rfl⟩

theorem advance_place (before w : List Char) :
    advance (lineAt before) (columnAt before) w = (lineAt (before ++ w), columnAt (before ++ w)) := by
  induction w generalizing before with
  | nil => simp [advance]
  | cons c w ih =>
    have hnext := ih (before ++ [c])
    rw [List.append_assoc, List.singleton_append] at hnext
    rw [← hnext]
    by_cases hc : c = '\n'
    · subst hc
      simp [advance, lineAt, columnAt]
    · simp [advance, hc, lineAt, columnAt]

/-- With fuel beyond its length, scanning a text from a place gives what `Scanned` relates it
to. -/
theorem scanFrom_scanned {fuel : Nat} {cs : List Char} (before : List Char) (acc : List Token)
    (hfuel : cs.length < fuel) :
    ∃ tokens stop, Scanned before cs tokens stop ∧
      scanFrom fuel cs (lineAt before) (columnAt before) acc = ⟨acc.reverse ++ tokens, stop⟩ := by
  induction fuel generalizing before cs acc with
  | zero => omega
  | succ fuel ih =>
    cases cs with
    | nil => exact ⟨[], none, .finished, by simp [scanFrom]⟩
    | cons c cs =>
      have hspec := piece?_spec c cs
      rcases hp : piece? (c :: cs) with _ | ⟨p, w, rest⟩
      · rw [hp] at hspec
        exact ⟨[], _, .stuck hspec, by simp [scanFrom, hp, stopAt]⟩
      rw [hp] at hspec
      cases p with
      | skip =>
        obtain ⟨heq, hskip, hlong⟩ := hspec
        have hlen : rest.length < fuel := by
          have hw := List.length_pos_iff.mpr (IsLexeme.ne_nil (.inl hskip))
          have := congrArg List.length heq
          simp only [List.length_cons, List.length_append] at this hfuel
          omega
        obtain ⟨tokens, stop, hscan, hrun⟩ := ih (before ++ w) acc hlen
        refine ⟨tokens, stop, heq ▸ .skip hskip hlong hscan, ?_⟩
        simp [scanFrom, hp, advance_place, hrun]
      | token t literal =>
        obtain ⟨heq, hspells, hlong, rfl⟩ := hspec
        have hlen : rest.length < fuel := by
          have hw := List.length_pos_iff.mpr (IsLexeme.ne_nil (.inr ⟨t, hspells⟩))
          have := congrArg List.length heq
          simp only [List.length_cons, List.length_append] at this hfuel
          omega
        obtain ⟨tokens, stop, hscan, hrun⟩ := ih (before ++ w)
          (⟨.terminal t, String.ofList w, literalOf t w, lineAt before, columnAt before⟩ :: acc) hlen
        refine ⟨⟨.terminal t, String.ofList w, literalOf t w, lineAt before, columnAt before⟩ ::
          tokens, stop, ?_, ?_⟩
        · rw [heq]
          exact .token hspells hlong hscan
        · simp [scanFrom, hp, advance_place, hrun]

/-- Scanning a text gives whatever `Scanned` relates it to, with fuel beyond its length. -/
theorem scanFrom_of_scanned {before cs : List Char} {tokens : List Token}
    {stop : Option LexError} (h : Scanned before cs tokens stop) {fuel : Nat} (acc : List Token)
    (hfuel : cs.length < fuel) :
    scanFrom fuel cs (lineAt before) (columnAt before) acc = ⟨acc.reverse ++ tokens, stop⟩ := by
  obtain ⟨fuel, rfl⟩ := Nat.exists_eq_succ_of_ne_zero (Nat.ne_zero_of_lt hfuel)
  induction h generalizing fuel acc with
  | finished => simp [scanFrom]
  | @stuck before rest c hno =>
    have hp : piece? (c :: rest) = none := by
      have hspec := piece?_spec c rest
      rcases hp : piece? (c :: rest) with _ | ⟨p, w, r⟩
      · rfl
      rw [hp] at hspec
      cases p with
      | skip =>
        obtain ⟨heq, hskip, -⟩ := hspec
        exact absurd (.inl hskip) (hno w (IsLexeme.ne_nil (.inl hskip)) ⟨r, heq.symm⟩)
      | token t literal =>
        obtain ⟨heq, hspells, -⟩ := hspec
        exact absurd (.inr ⟨t, hspells⟩)
          (hno w (IsLexeme.ne_nil (.inr ⟨t, hspells⟩)) ⟨r, heq.symm⟩)
    simp [scanFrom, hp, stopAt]
  | @skip before w rest tokens stop hskip hlong _ ih =>
    obtain ⟨c, x, rfl⟩ := List.exists_cons_of_ne_nil (IsLexeme.ne_nil (.inl hskip))
    obtain ⟨p, hp⟩ := piece?_of_longest (x := x ++ rest) rfl (.inl hskip) hlong
    have hspec := piece?_spec c (x ++ rest)
    rw [hp] at hspec
    cases p with
    | skip =>
      have hlen : rest.length < fuel := by simp at hfuel; omega
      obtain ⟨fuel, rfl⟩ := Nat.exists_eq_succ_of_ne_zero (Nat.ne_zero_of_lt hlen)
      simp [scanFrom, hp, advance_place, ih acc fuel hlen]
    | token t literal =>
      have := hspec.2.1.classify_eq
      simp [hskip.classify_eq] at this
  | @token before w rest tokens stop t hspells hlong _ ih =>
    obtain ⟨c, x, rfl⟩ := List.exists_cons_of_ne_nil (IsLexeme.ne_nil (.inr ⟨t, hspells⟩))
    obtain ⟨p, hp⟩ := piece?_of_longest (x := x ++ rest) rfl (.inr ⟨t, hspells⟩) hlong
    have hspec := piece?_spec c (x ++ rest)
    rw [hp] at hspec
    cases p with
    | skip =>
      have := hspec.2.1.classify_eq
      simp [hspells.classify_eq] at this
    | token t' literal =>
      obtain ⟨-, hspells', -, rfl⟩ := hspec
      obtain rfl : t' = t := Option.some.inj (hspells'.classify_eq.symm.trans hspells.classify_eq)
      have hlen : rest.length < fuel := by simp at hfuel; omega
      obtain ⟨fuel, rfl⟩ := Nat.exists_eq_succ_of_ne_zero (Nat.ne_zero_of_lt hlen)
      simp [scanFrom, hp, advance_place, ih _ fuel hlen]

theorem Spells.ne_eof {t : Terminal} {w : List Char} (h : Spells t w) : t ≠ .eof := by
  rintro rfl
  cases h with
  | fixed hfix => simp [Terminal.text?] at hfix

theorem Scanned.not_eof {before cs : List Char} {tokens : List Token} {stop : Option LexError}
    (h : Scanned before cs tokens stop) : ∀ tok ∈ tokens, tok.kind ≠ .terminal .eof := by
  induction h with
  | finished => simp
  | stuck => simp
  | skip _ _ _ ih => exact ih
  | token hspells _ _ ih =>
    intro tok htok
    rcases List.mem_cons.mp htok with rfl | htok
    · simpa using hspells.ne_eof
    · exact ih tok htok

end Lexer

open Lexer in
/-- `Token.scan` gives exactly the tokens and the stop that `Scanned` relates the source to. -/
theorem Token.scan_eq_iff (source : String) (tokens : List Token) (stop : Option LexError) :
    Token.scan source = ⟨tokens, stop⟩ ↔ Scanned [] source.toList tokens stop := by
  constructor
  · intro h
    obtain ⟨tokens', stop', hscan, hrun⟩ :=
      scanFrom_scanned [] [] (Nat.lt_succ_self source.toList.length)
    have hscan' : Token.scan source = ⟨tokens', stop'⟩ := by
      simpa [Token.scan, lineAt, columnAt] using hrun
    rw [hscan'] at h
    cases h
    exact hscan
  · intro h
    simpa [Token.scan, lineAt, columnAt] using scanFrom_of_scanned h [] (Nat.lt_succ_self _)

open Lexer in
/-- Tokenizing is maximal munch over the grammar's terminals. `Token.scan` gives exactly the
tokens and the stop of `Scanned`: at each place blanks and comments are skipped and otherwise the
longest token text is taken, a word being a keyword exactly when it spells one, each token at the
line and column of its first character; scanning stops at the first place where no terminal
matches, with an unclosed string at a quote and an unexpected character otherwise. The listing
(`Token.tokenize`), the scanned tokens and then the end-of-input token, holds that token exactly
once, last, with an empty lexeme, column zero and the line of the last scanned token, or line
one. -/
theorem tokenize_maximal_munch (source : String) :
    (∀ tokens stop, Token.scan source = ⟨tokens, stop⟩ ↔ Scanned [] source.toList tokens stop) ∧
    (Token.tokenize source).countP (·.kind = .terminal .eof) = 1 ∧
    (Token.tokenize source).getLast? =
      some ⟨.terminal .eof, "", .null, ((Token.scan source).tokens.getLast?.map (·.line)).getD 1, 0⟩ := by
  have hscan := (Token.scan_eq_iff source (Token.scan source).tokens (Token.scan source).error).mp rfl
  refine ⟨Token.scan_eq_iff source, ?_, by simp [Token.tokenize, Token.endOfInput]⟩
  have hnone : (Token.scan source).tokens.countP (·.kind = .terminal .eof) = 0 :=
    List.countP_eq_zero.mpr fun tok htok => by simp [hscan.not_eof tok htok]
  simp [Token.tokenize, List.countP_append, hnone, Token.endOfInput]

/-- `1.` is a number and a point, `or` a keyword but `orchid` a word, `!=` one operator. -/
example : (Token.scan "1. or orchid!=").tokens.map (·.kind) =
    [.terminal .number, .terminal .dot, .terminal .kwOr, .terminal .identifier,
      .terminal .bangEqual] := by
  decide

end Lox
