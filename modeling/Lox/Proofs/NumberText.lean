import Mathlib
import Lox.Proofs.ShortestDecimal
import Lox.Number.Text
import Lox.Number.Read
import Lox.Value

/-!
# A finite number prints as its shortest decimal

Lox prints a finite double as its sign and a text for its shortest decimal (`Decimal.ofParts`).
The text is always a numeral (`FloatText.Numeral`): a run of digits, maybe a point and a second
run, and maybe an exponent. Every such numeral reads back as the decimal it spells
(`Numeral.read`, `Numeral.readFloat`). Each of the three forms `NumberStyle.magnitude` writes is
a numeral of the decimal's value (`lox_magnitude_numeral`): zero, positional and exponent form.

The text is positional exactly for zero and for leading powers of ten in `[-3, 7)`. The
thresholds `1/1000` and `10 ^ 7` are straddled by no double's rounding interval, so this is
the range of the double's own magnitude (`Decimal.plain_ofParts_iff`). There the host writes
the same digits and adds `.0` to an integer. Elsewhere the text is `c.rE` and the leading
power, with `r` ending in no zero because the shortest decimal has no trailing zero digit.

The decimal rounds to the double (`Decimal.ofParts_rounds`). Reading the text gives that
decimal's value; turning it into a double is the host's `Float.ofScientific`.
-/

namespace Lox

theorem digitChar_ne_zero {k : ℕ} (h0 : 0 < k) (h : k < 10) : Nat.digitChar k ≠ '0' := by
  interval_cases k <;> decide

/-- The digits of a positive number do not start with `0`. -/
theorem toDigits_head_ne_zero {n : ℕ} (hn : 0 < n) :
    ∃ c cs, Nat.toDigits 10 n = c :: cs ∧ c ≠ '0' := by
  induction n using Nat.strong_induction_on with
  | _ n ih =>
    rw [Nat.toDigits_eq_if (by norm_num)]
    split
    · next h => exact ⟨_, [], rfl, digitChar_ne_zero hn h⟩
    · next h =>
      obtain ⟨c, cs, hcs, hc⟩ := ih (n / 10) (by omega) (by omega)
      exact ⟨c, cs ++ _, by rw [hcs, List.cons_append], hc⟩

/-- The last digit is that of the remainder by ten. -/
theorem toDigits_getLast (n : ℕ) :
    (Nat.toDigits 10 n).getLast? = some (Nat.digitChar (n % 10)) := by
  rw [Nat.toDigits_eq_if (by norm_num)]
  split
  · next h =>
    rw [Nat.mod_eq_of_lt h]
    rfl
  · simp

theorem lt_pow_length_toDigits (n : ℕ) : n < 10 ^ (Nat.toDigits 10 n).length :=
  (Nat.length_toDigits_le_iff (by norm_num) Nat.length_toDigits_pos).mp le_rfl

theorem pow_length_toDigits_le {n : ℕ} (hn : 0 < n) :
    10 ^ ((Nat.toDigits 10 n).length - 1) ≤ n := by
  have hpos : 0 < (Nat.toDigits 10 n).length := Nat.length_toDigits_pos
  by_cases hlen : (Nat.toDigits 10 n).length = 1
  · rw [hlen]
    exact hn
  · -- with one digit fewer the number would be below the power
    by_contra hlt
    have hle := (Nat.length_toDigits_le_iff (b := 10) (n := n)
      (k := (Nat.toDigits 10 n).length - 1) (by norm_num) (by omega)).mpr (by omega)
    omega

theorem isDigit_of_mem_zeros {z : ℕ} {c : Char} (h : c ∈ List.replicate z '0') :
    c.isDigit = true := by
  rw [(List.mem_replicate.mp h).2]
  rfl

namespace Decimal

theorem digitsValue_toDigits (n : ℕ) : digitsValue (Nat.toDigits 10 n) = n :=
  Nat.ofDigitChars_ten_toDigits

theorem digitsValue_append (l m : List Char) :
    digitsValue (l ++ m) = 10 ^ m.length * digitsValue l + digitsValue m := by
  show Nat.ofDigitChars 10 (l ++ m) 0 = _
  rw [Nat.ofDigitChars_append, Nat.ofDigitChars_eq_ofDigitChars_zero]
  rfl

theorem digitsValue_zeros (z : ℕ) : digitsValue (List.replicate z '0') = 0 := by
  show Nat.ofDigitChars 10 _ 0 = 0
  simp

theorem value_ofNumeral (W F : List Char) (ex : ℤ) :
    (ofNumeral W F ex).value = digitsValue (W ++ F) * 10 ^ (ex - F.length) := rfl

end Decimal

namespace FloatText

/-- What may follow a run of digits without extending it: nothing, or a character that is
neither a digit nor an underscore. -/
def EndsRun (rest : List Char) : Prop := ∀ c ∈ rest.head?, c.isDigit = false ∧ c ≠ '_'

theorem endsRun_nil : EndsRun [] := fun _ h => by simp at h

theorem endsRun_cons {c : Char} {rest : List Char} (h : c.isDigit = false) (h' : c ≠ '_') :
    EndsRun (c :: rest) := fun _ hc => by
  cases hc
  exact ⟨h, h'⟩

theorem digit_ne_underscore {c : Char} (h : c.isDigit = true) : c ≠ '_' := by
  rintro rfl
  revert h
  decide

/-- A run of digits followed by what cannot extend it is read whole. -/
theorem digitRun_append {ds rest : List Char} (hne : ds ≠ []) (hds : ∀ c ∈ ds, c.isDigit = true)
    (hrest : EndsRun rest) : digitRun (ds ++ rest) = some (ds, rest) := by
  induction ds with
  | nil => exact absurd rfl hne
  | cons c ds ih =>
    have hc := hds c (by simp)
    cases ds with
    | nil =>
      cases rest with
      | nil => simp [digitRun, hc]
      | cons r rs =>
        obtain ⟨hr, hr'⟩ := hrest r rfl
        simp [digitRun, hc, hr, hr']
    | cons c' ds =>
      have hc' := hds c' (by simp)
      have hrun := ih (by simp) (fun x hx => hds x (List.mem_cons_of_mem _ hx))
      simp only [List.cons_append] at hrun ⊢
      simp [digitRun, hc, hc', digit_ne_underscore hc', hrun]

theorem optionalRun_append {ds rest : List Char} (hne : ds ≠ [])
    (hds : ∀ c ∈ ds, c.isDigit = true) (hrest : EndsRun rest) :
    optionalRun (ds ++ rest) = some (ds, rest) := by
  obtain ⟨c, cs, rfl⟩ := List.exists_cons_of_ne_nil hne
  have hc := hds c (by simp)
  simp only [optionalRun, List.cons_append, hc, if_true]
  exact digitRun_append hne hds hrest

theorem digitRun_toDigits (n : ℕ) :
    digitRun (Nat.toDigits 10 n) = some (Nat.toDigits 10 n, []) := by
  simpa using digitRun_append Nat.toDigits_ne_nil
    (fun c hc => Nat.isDigit_of_mem_toDigits (by norm_num) (by norm_num) hc) endsRun_nil

/-- An integer written after `E` reads back as the exponent. -/
theorem exponentPart_repr (e : ℤ) : exponentPart ('E' :: e.repr.toList) = some (e, []) := by
  cases e with
  | ofNat m =>
    -- no sign: the first digit is neither `-` nor `+`
    obtain ⟨c, cs, hcs⟩ := List.exists_cons_of_ne_nil (@Nat.toDigits_ne_nil m 10)
    have hc : c.isDigit = true :=
      Nat.isDigit_of_mem_toDigits (b := 10) (n := m) (by norm_num) (by norm_num) (by simp [hcs])
    have hrun := digitRun_toDigits m
    have hval := Decimal.digitsValue_toDigits m
    rw [hcs] at hrun hval
    simp only [Int.repr, Nat.repr, String.toList_ofList, hcs]
    rw [exponentPart, if_pos (by decide), hrun]
    · simp [hval]
    all_goals
      rintro b ⟨⟩
      revert hc
      decide
  | negSucc m =>
    simp [exponentPart, Int.repr, digitRun_toDigits, Decimal.digitsValue_toDigits]
    omega

section Forms

variable {W F tail : List Char} {ex : ℤ}

/-- A numeral with no point: its digits, then an exponent or nothing. -/
theorem unsignedDecimal_whole (hW : W ≠ []) (hWd : ∀ c ∈ W, c.isDigit = true)
    (htail : EndsRun tail) (hdot : tail.head? ≠ some '.')
    (hexp : exponentPart tail = some (ex, [])) :
    unsignedDecimal? (W ++ tail) = some ⟨Decimal.digitsValue W, ex⟩ := by
  have hWe : W.isEmpty = false := List.isEmpty_eq_false_iff.mpr hW
  rw [unsignedDecimal?, optionalRun_append hW hWd htail]
  dsimp only [Option.bind_eq_bind, Option.bind]
  split
  · exact absurd rfl hdot
  · simp [hWe, hexp, Decimal.ofNumeral]

/-- A numeral with a point between two runs of digits, then an exponent or nothing. -/
theorem unsignedDecimal_point (hW : W ≠ []) (hWd : ∀ c ∈ W, c.isDigit = true)
    (hF : F ≠ []) (hFd : ∀ c ∈ F, c.isDigit = true) (htail : EndsRun tail)
    (hexp : exponentPart tail = some (ex, [])) :
    unsignedDecimal? (W ++ '.' :: (F ++ tail)) = some (Decimal.ofNumeral W F ex) := by
  have hWe : W.isEmpty = false := List.isEmpty_eq_false_iff.mpr hW
  rw [unsignedDecimal?, optionalRun_append hW hWd (endsRun_cons (by decide) (by decide))]
  simp only [Option.bind_eq_bind, Option.bind, optionalRun_append hF hFd htail, hWe, hexp]
  simp

end Forms

/-- The exponent after a numeral, if any, as the number texts write it. -/
def exponentTail : Option ℤ → List Char
  | none => []
  | some e => 'E' :: e.repr.toList

theorem exponentPart_exponentTail (e : Option ℤ) :
    exponentPart (exponentTail e) = some (e.getD 0, []) := by
  cases e with
  | none => rfl
  | some e => exact exponentPart_repr e

theorem endsRun_exponentTail (e : Option ℤ) : EndsRun (exponentTail e) := by
  cases e with
  | none => exact endsRun_nil
  | some e => exact endsRun_cons (by decide) (by decide)

theorem mem_repr {e : ℤ} {c : Char} (h : c ∈ e.repr.toList) : c.isDigit = true ∨ c = '-' := by
  cases e with
  | ofNat m =>
    exact .inl (Nat.isDigit_of_mem_toDigits (b := 10) (by norm_num) (by norm_num)
      (by simpa [Int.repr] using h))
  | negSucc m =>
    simp only [Int.repr, String.toList_append, Nat.toList_repr, List.mem_append] at h
    rcases h with h | h
    · exact .inr (by simpa using h)
    · exact .inl (Nat.isDigit_of_mem_toDigits (by norm_num) (by norm_num) h)

theorem isBlank_of_isDigit {c : Char} (h : c.isDigit = true) : isBlank c = false := by
  unfold isBlank
  simp only [Bool.or_eq_false_iff, decide_eq_false_iff_not]
  refine ⟨⟨⟨⟨⟨?_, ?_⟩, ?_⟩, ?_⟩, ?_⟩, ?_⟩ <;> (rintro rfl; revert h; decide)

theorem toLower_of_isDigit {c : Char} (hc : c.isDigit = true) : c.toLower = c := by
  unfold Char.toLower
  rw [dif_neg]
  -- the digits lie below the capitals
  simp only [Char.isDigit, Bool.and_eq_true, decide_eq_true_eq] at hc
  rintro ⟨hA, -⟩
  have h9 := hc.2
  revert h9 hA
  simp [UInt32.le_iff_toNat_le]
  omega

/-- Blanks are trimmed from neither end of a text that has none. -/
theorem trim_of_not_blank {cs : List Char} (h : ∀ c ∈ cs, isBlank c = false) :
    ((cs.dropWhile isBlank).reverse.dropWhile isBlank).reverse = cs := by
  have keep : ∀ l : List Char, (∀ c ∈ l, isBlank c = false) → l.dropWhile isBlank = l := by
    intro l hl
    cases l with
    | nil => rfl
    | cons c l => simp [hl c (by simp)]
  rw [keep cs h, keep cs.reverse (fun c hc => h c (List.mem_reverse.mp hc)), List.reverse_reverse]

/-- A numeral as the number texts write one: a run of digits, then a point and a second run of
digits unless that run is empty, then an exponent or nothing. -/
structure Numeral where
  whole : List Char
  -- The digits after the point; there is no point when there are none.
  fraction : List Char
  exponent : Option ℤ
  whole_ne : whole ≠ []
  whole_digits : ∀ c ∈ whole, c.isDigit = true
  fraction_digits : ∀ c ∈ fraction, c.isDigit = true

namespace Numeral

variable (n : Numeral)

/-- The characters of the numeral. -/
def chars : List Char :=
  n.whole ++ ((if n.fraction = [] then [] else '.' :: n.fraction) ++ exponentTail n.exponent)

/-- The decimal the numeral spells. -/
def decimal : Decimal := Decimal.ofNumeral n.whole n.fraction (n.exponent.getD 0)

/-- A numeral reads back as the decimal it spells. -/
theorem read : unsignedDecimal? n.chars = some n.decimal := by
  unfold chars decimal
  split
  · next hF =>
    rw [List.nil_append, unsignedDecimal_whole n.whole_ne n.whole_digits
      (endsRun_exponentTail _) ?_ (exponentPart_exponentTail _), hF]
    · simp [Decimal.ofNumeral]
    · cases n.exponent <;> simp [exponentTail]
  · next hF =>
    exact unsignedDecimal_point n.whole_ne n.whole_digits hF n.fraction_digits
      (endsRun_exponentTail _) (exponentPart_exponentTail _)

theorem chars_head : ∃ c rest, n.chars = c :: rest ∧ c.isDigit = true := by
  obtain ⟨c, cs, hcs⟩ := List.exists_cons_of_ne_nil n.whole_ne
  exact ⟨c, _, by rw [chars, hcs, List.cons_append], n.whole_digits c (by simp [hcs])⟩

/-- A numeral is written with digits, the point, the exponent mark and the exponent's sign. -/
theorem mem_chars {c : Char} (h : c ∈ n.chars) :
    c.isDigit = true ∨ c = '.' ∨ c = 'E' ∨ c = '-' := by
  unfold chars at h
  simp only [List.mem_append] at h
  rcases h with h | h | h
  · exact .inl (n.whole_digits c h)
  · split at h
    · simp at h
    · rcases List.mem_cons.mp h with h | h
      · exact .inr (.inl h)
      · exact .inl (n.fraction_digits c h)
  · cases he : n.exponent with
    | none => simp [he, exponentTail] at h
    | some e =>
      rw [he, exponentTail, List.mem_cons] at h
      rcases h with h | h
      · exact .inr (.inr (.inl h))
      · rcases mem_repr h with h | h
        · exact .inl h
        · exact .inr (.inr (.inr h))

/-- A numeral is plain, digits and a point only, exactly when it has no exponent. -/
theorem plain_iff : (∀ c ∈ n.chars, c.isDigit = true ∨ c = '.') ↔ n.exponent = none := by
  constructor
  · intro h
    cases he : n.exponent with
    | none => rfl
    | some e =>
      have hE : 'E' ∈ n.chars := by simp [chars, he, exponentTail]
      rcases h 'E' hE with h | h <;> exact absurd h (by decide)
  · intro he c hc
    simp only [chars, he, exponentTail, List.append_nil, List.mem_append] at hc
    rcases hc with hc | hc
    · exact .inl (n.whole_digits c hc)
    · split at hc
      · simp at hc
      · rcases List.mem_cons.mp hc with hc | hc
        · exact .inr hc
        · exact .inl (n.fraction_digits c hc)

theorem not_blank {c : Char} (h : c ∈ n.chars) : isBlank c = false := by
  rcases n.mem_chars h with h | h | h | h
  · exact isBlank_of_isDigit h
  all_goals
    subst h
    decide

/-- A numeral after an optional minus sign reads as its decimal with that sign. -/
theorem readFloat (neg : Bool) :
    readFloat? ((if neg then "-" else "") ++ String.ofList n.chars) =
      some (n.decimal.toFloat neg) := by
  obtain ⟨c, rest, hcs, hc⟩ := n.chars_head
  have hblank : ∀ x ∈ (if neg then ['-'] else []) ++ n.chars, isBlank x = false := by
    intro x hx
    rw [List.mem_append] at hx
    rcases hx with hx | hx
    · cases neg <;> simp at hx
      subst hx
      decide
    · exact n.not_blank hx
  have htext : ((if neg then "-" else "") ++ String.ofList n.chars).toList =
      (if neg then ['-'] else []) ++ n.chars := by
    cases neg <;> simp
  -- a numeral starts with a digit, so it is none of the words a float may be
  have hword : ∀ (w : String) (x : Char), w.toList.head? = some x → x.isDigit = false →
      String.ofList (n.chars.map Char.toLower) ≠ w := by
    intro w x hx hxd h
    have hhead := congrArg (fun s : String => s.toList.head?) h
    simp only [String.toList_ofList, hcs, List.map_cons, List.head?_cons, toLower_of_isDigit hc,
      hx, Option.some.injEq] at hhead
    rw [hhead, hxd] at hc
    contradiction
  have hinf := hword "inf" 'i' (by simp) (by decide)
  have hinfinity := hword "infinity" 'i' (by simp) (by decide)
  have hnan := hword "nan" 'n' (by simp) (by decide)
  unfold readFloat?
  rw [htext, trim_of_not_blank hblank]
  dsimp only
  -- the sign: only a minus can come first
  split
  · next b heq =>
    cases neg
    · simp only [Bool.false_eq_true, if_false, List.nil_append, hcs, List.cons.injEq] at heq
      rw [heq.1] at hc
      contradiction
    · simp only [if_true, List.cons_append, List.nil_append, List.cons.injEq, true_and] at heq
      simp [← heq, hinf, hinfinity, hnan, n.read]
  · next b heq =>
    cases neg
    · simp only [Bool.false_eq_true, if_false, List.nil_append, hcs, List.cons.injEq] at heq
      rw [heq.1] at hc
      contradiction
    · simp at heq
  · next hminus _ =>
    cases neg
    · simp [hinf, hinfinity, hnan, n.read]
    · exact absurd rfl (hminus n.chars)

end Numeral

end FloatText

namespace NumberStyle

theorem sign_append_repr_natAbs (e : ℤ) :
    (if e < 0 then "-" else "") ++ Nat.repr e.natAbs = e.repr := by
  cases e with
  | ofNat m => simp [Int.repr]
  | negSucc m => simp only [Int.repr, Int.natAbs_negSucc, Int.negSucc_lt_zero, if_true]

/-- The exponent form of a digit string: its first digit, a point, the other digits or else `0`,
then `E` and the exponent as an integer is written. -/
theorem lox_scientific (c : Char) (rest : List Char) (e : ℤ) :
    lox.scientific (String.ofList (c :: rest)) e =
      String.ofList (c :: '.' :: (if rest = [] then ['0'] else rest)) ++ "E" ++ e.repr := by
  have hlen : lox.exponentDigits - (Nat.repr e.natAbs).length = 0 := by
    have := @Nat.length_repr_pos e.natAbs
    simp only [lox]
    omega
  unfold scientific
  simp only [String.toList_ofList, hlen]
  rw [← sign_append_repr_natAbs e]
  apply String.toList_injective
  cases rest <;> simp [lox, zeros]

/-- The positional text of the digits of a number is a numeral with no exponent. -/
theorem lox_positional_numeral (D : ℕ) (e : ℤ) :
    ∃ n : FloatText.Numeral, (lox.positional (Nat.repr D) e).toList = n.chars ∧
      n.exponent = none ∧ n.decimal.value = D * 10 ^ (e + 1 - (Nat.repr D).length) := by
  have hdig : ∀ c ∈ Nat.toDigits 10 D, c.isDigit = true :=
    fun c hc => Nat.isDigit_of_mem_toDigits (by norm_num) (by norm_num) hc
  have hlen : (Nat.repr D).length = (Nat.toDigits 10 D).length := by
    rw [← String.length_toList, Nat.toList_repr]
  unfold positional
  dsimp only
  rw [hlen]
  split
  · -- below one: `0.` and zeros before the digits
    next hpoint =>
    set z := (-(e + 1)).toNat with hz
    have hF : List.replicate z '0' ++ Nat.toDigits 10 D ≠ [] := by simp
    have hval :
        Decimal.digitsValue (['0'] ++ (List.replicate z '0' ++ Nat.toDigits 10 D)) = D := by
      rw [← List.append_assoc, Decimal.digitsValue_append, List.singleton_append,
        ← List.replicate_succ, Decimal.digitsValue_zeros, Decimal.digitsValue_toDigits]
      ring
    have hexp : (0 : ℤ) - ((z + (Nat.toDigits 10 D).length : ℕ) : ℤ) =
        e + 1 - (Nat.toDigits 10 D).length := by omega
    refine ⟨⟨['0'], List.replicate z '0' ++ Nat.toDigits 10 D, none, by simp, by simp,
      List.forall_mem_append.mpr ⟨fun _ hc => isDigit_of_mem_zeros hc, hdig⟩⟩, ?_, rfl, ?_⟩
    · simp [FloatText.Numeral.chars, zeros, FloatText.exponentTail, hF]
    · rw [FloatText.Numeral.decimal, Decimal.value_ofNumeral, hval]
      simp only [Option.getD_none, List.length_append, List.length_replicate, hexp]
  · split
    · -- an integer: the digits and zeros
      next hpoint hlong =>
      set k := (e + 1 - (Nat.toDigits 10 D).length).toNat with hk
      have hk' : e + 1 - ((Nat.toDigits 10 D).length : ℤ) = (k : ℤ) := by omega
      refine ⟨⟨Nat.toDigits 10 D ++ List.replicate k '0', [], none, by simp,
        List.forall_mem_append.mpr ⟨hdig, fun _ hc => isDigit_of_mem_zeros hc⟩, by simp⟩,
        ?_, rfl, ?_⟩
      · simp [FloatText.Numeral.chars, zeros, FloatText.exponentTail, lox]
      · rw [FloatText.Numeral.decimal, Decimal.value_ofNumeral, List.append_nil,
          Decimal.digitsValue_append, Decimal.digitsValue_zeros, Decimal.digitsValue_toDigits]
        simp only [Option.getD_none, List.length_nil, List.length_replicate, hk', zpow_natCast]
        push_cast
        ring
    · -- the point inside the digits
      next hpoint hlong =>
      set p := (e + 1).toNat with hp
      have hpos : 0 < p := by omega
      have hlt : p < (Nat.toDigits 10 D).length := by omega
      have hdrop : (Nat.toDigits 10 D).drop p ≠ [] := by
        simp only [ne_eq, List.drop_eq_nil_iff, not_le]
        exact hlt
      have hexp : (0 : ℤ) - (((Nat.toDigits 10 D).length - p : ℕ) : ℤ) =
          e + 1 - (Nat.toDigits 10 D).length := by omega
      refine ⟨⟨(Nat.toDigits 10 D).take p, (Nat.toDigits 10 D).drop p, none, ?_,
        fun c hc => hdig c (List.mem_of_mem_take hc),
        fun c hc => hdig c (List.mem_of_mem_drop hc)⟩, ?_, rfl, ?_⟩
      · simp only [ne_eq, List.take_eq_nil_iff, not_or]
        exact ⟨by omega, Nat.toDigits_ne_nil⟩
      · simp [FloatText.Numeral.chars, FloatText.exponentTail, hdrop]
      · rw [FloatText.Numeral.decimal, Decimal.value_ofNumeral, List.take_append_drop,
          Decimal.digitsValue_toDigits]
        simp only [Option.getD_none, List.length_drop, hexp]

/-- The exponent form of the digits of a number is a numeral with that exponent. -/
theorem lox_scientific_numeral (D : ℕ) (e : ℤ) :
    ∃ n : FloatText.Numeral, (lox.scientific (Nat.repr D) e).toList = n.chars ∧
      n.exponent = some e ∧ n.decimal.value = D * 10 ^ (e + 1 - (Nat.repr D).length) := by
  obtain ⟨c, rest, hcs⟩ := List.exists_cons_of_ne_nil (@Nat.toDigits_ne_nil D 10)
  have hdig : ∀ x ∈ c :: rest, x.isDigit = true := fun x hx =>
    Nat.isDigit_of_mem_toDigits (b := 10) (n := D) (by norm_num) (by norm_num) (hcs ▸ hx)
  have hD : Decimal.digitsValue (c :: rest) = D := hcs ▸ Decimal.digitsValue_toDigits D
  have hrepr : Nat.repr D = String.ofList (c :: rest) := by
    rw [Nat.repr_eq_ofList_toDigits, hcs]
  have hlen : (Nat.repr D).length = rest.length + 1 := by
    rw [← String.length_toList, Nat.toList_repr, hcs, List.length_cons]
  set r := if rest = [] then ['0'] else rest with hr
  have hr_ne : r ≠ [] := by
    rw [hr]
    split
    · simp
    · assumption
  have hr_dig : ∀ x ∈ r, x.isDigit = true := by
    rw [hr]
    split
    · simp
    · exact fun x hx => hdig x (List.mem_cons_of_mem c hx)
  refine ⟨⟨[c], r, some e, by simp, by simpa using hdig c (by simp), hr_dig⟩, ?_, rfl, ?_⟩
  · rw [hrepr, lox_scientific, ← hr]
    simp [FloatText.Numeral.chars, FloatText.exponentTail, hr_ne]
  · rw [FloatText.Numeral.decimal, Decimal.value_ofNumeral, hlen]
    simp only [Option.getD_some]
    by_cases hrest : rest = []
    · -- one digit: the mantissa is written `c.0`, ten times the digit a place lower
      subst hrest
      have hr0 : r = ['0'] := by simp [hr]
      have h10 : Decimal.digitsValue ([c] ++ ['0']) = 10 * D := by
        rw [Decimal.digitsValue_append, hD]
        simp [Decimal.digitsValue]
      rw [hr0, h10]
      simp only [List.length_singleton, List.length_nil]
      push_cast
      rw [show e - 1 = -1 + e by ring, zpow_add₀ (by norm_num)]
      ring_nf
    · have hrr : r = rest := by simp [hr, hrest]
      rw [hrr, List.singleton_append, hD]
      congr 2
      push_cast
      ring

/-- Every text of a Lox number's magnitude is a numeral of the decimal's value, with an exponent
exactly when the decimal is nonzero and its leading power lies outside `[-3, 7)`. -/
theorem lox_magnitude_numeral (d : Decimal) :
    ∃ n : FloatText.Numeral, (lox.magnitude d).toList = n.chars ∧ n.decimal.value = d.value ∧
      (n.exponent = none ↔ d.digits = 0 ∨ (-3 ≤ d.leading ∧ d.leading < 7)) := by
  have hval : (d.digits : ℚ) * 10 ^ (d.leading + 1 - (Nat.repr d.digits).length) = d.value := by
    rw [Decimal.leading, Decimal.digitText, Decimal.value]
    congr 2
    ring
  unfold magnitude
  split
  · next hz =>
    refine ⟨⟨['0'], [], none, by simp, by simp, by simp⟩, rfl, ?_, by simp [hz]⟩
    rw [FloatText.Numeral.decimal, Decimal.value_ofNumeral]
    simp [Decimal.value, hz, Decimal.digitsValue]
  · next hz =>
    split
    · next hrange =>
      obtain ⟨n, hchars, hnone, hv⟩ := lox_positional_numeral d.digits d.leading
      refine ⟨n, hchars, hv.trans hval, ?_⟩
      simp only [lox] at hrange
      simp [hnone, hrange]
    · next hrange =>
      obtain ⟨n, hchars, hsome, hv⟩ := lox_scientific_numeral d.digits d.leading
      refine ⟨n, hchars, hv.trans hval, ?_⟩
      simp only [lox] at hrange
      simp [hsome, hz, hrange]

/-- Where Lox writes a nonzero decimal without trailing zeros with an exponent, the text is
`c.rE` and the leading power: a first digit that is not zero, then the other digits, or `0`
alone, ending in no zero. -/
theorem lox_magnitude_scientific {d : Decimal} (ht : d.Trimmed) (hd : 0 < d.digits)
    (hr : ¬(-3 ≤ d.leading ∧ d.leading < 7)) :
    ∃ c r, lox.magnitude d = String.ofList (c :: '.' :: r) ++ "E" ++ d.leading.repr ∧
      c ≠ '0' ∧ c.isDigit = true ∧ (∀ x ∈ r, x.isDigit = true) ∧
      (r = ['0'] ∨ (r ≠ [] ∧ r.getLast? ≠ some '0')) := by
  obtain ⟨c, rest, hcs, hc0⟩ := toDigits_head_ne_zero hd
  have hdig : ∀ x ∈ c :: rest, x.isDigit = true := fun x hx =>
    Nat.isDigit_of_mem_toDigits (b := 10) (n := d.digits) (by norm_num) (by norm_num) (hcs ▸ hx)
  have hmag : lox.magnitude d = lox.scientific (String.ofList (c :: rest)) d.leading := by
    have hlox : ¬(lox.plainLow ≤ d.leading ∧ d.leading < lox.plainHigh) := by
      simpa only [lox] using hr
    rw [magnitude, if_neg (Nat.pos_iff_ne_zero.mp hd), if_neg hlox, Decimal.digitText,
      Nat.repr_eq_ofList_toDigits, hcs]
  refine ⟨c, if rest = [] then ['0'] else rest, by rw [hmag, lox_scientific], hc0,
    hdig c (by simp), ?_, ?_⟩
  · split
    · simp
    · exact fun x hx => hdig x (List.mem_cons_of_mem c hx)
  · split
    · exact .inl rfl
    · next hrest =>
      -- the last digit is that of a number that does not end in zero
      have hlast := toDigits_getLast d.digits
      have hmod : d.digits % 10 ≠ 0 := ht.resolve_left (Nat.pos_iff_ne_zero.mp hd)
      rw [hcs, List.getLast?_cons] at hlast
      refine .inr ⟨hrest, fun h => ?_⟩
      rw [h, Option.getD_some, Option.some.injEq] at hlast
      exact digitChar_ne_zero (Nat.pos_of_ne_zero hmod) (Nat.mod_lt _ (by norm_num)) hlast.symm

/-- Where Lox writes a number positionally, the host's text is the same with `.0` added to an
integer. -/
theorem shown_magnitude_of_plain {d : Decimal}
    (h : d.digits = 0 ∨ (-3 ≤ d.leading ∧ d.leading < 7)) :
    shown.magnitude d =
      lox.magnitude d ++ (if '.' ∈ (lox.magnitude d).toList then "" else ".0") := by
  unfold magnitude
  by_cases hz : d.digits = 0
  · simp [hz, shown, json, lox]
  · have hr : -3 ≤ d.leading ∧ d.leading < 7 := h.resolve_left hz
    have hshown : shown.plainLow ≤ d.leading ∧ d.leading < shown.plainHigh := by
      simp only [shown, json]
      omega
    have hlox : lox.plainLow ≤ d.leading ∧ d.leading < lox.plainHigh := by
      simp only [lox]
      omega
    rw [if_neg hz, if_neg hz, if_pos hshown, if_pos hlox]
    have hdig : '.' ∉ Nat.toDigits 10 d.digits := fun hc => by
      have := Nat.isDigit_of_mem_toDigits (b := 10) (by norm_num) (by norm_num) hc
      revert this
      decide
    unfold positional
    dsimp only
    split
    · simp
    · split
      · -- only the integers differ: the host writes `.0` after them
        apply String.toList_injective
        simp [shown, json, lox, zeros, Decimal.digitText, hdig]
      · simp

end NumberStyle

namespace Decimal

variable {d : Decimal}

theorem length_digitText (d : Decimal) :
    (d.digitText.length : ℤ) = (Nat.toDigits 10 d.digits).length := by
  rw [digitText, ← String.length_toList, Nat.toList_repr]

/-- The leading power of ten is that of the leading digit: no more than the value. -/
theorem pow_leading_le (hd : 0 < d.digits) : (10 : ℚ) ^ d.leading ≤ d.value := by
  have hpos := @Nat.length_toDigits_pos 10 d.digits
  have hle : ((10 ^ ((Nat.toDigits 10 d.digits).length - 1) : ℕ) : ℚ) ≤ d.digits := by
    exact_mod_cast pow_length_toDigits_le hd
  have hlead : d.leading = (((Nat.toDigits 10 d.digits).length - 1 : ℕ) : ℤ) + d.exponent := by
    rw [leading, length_digitText]
    omega
  rw [hlead, zpow_add₀ (by norm_num), zpow_natCast, value]
  push_cast at hle
  exact mul_le_mul_of_nonneg_right hle (by positivity)

/-- The value lies below the next power of ten. -/
theorem value_lt_pow_leading (d : Decimal) : d.value < 10 ^ (d.leading + 1) := by
  have hlt : (d.digits : ℚ) < ((10 ^ (Nat.toDigits 10 d.digits).length : ℕ) : ℚ) := by
    exact_mod_cast lt_pow_length_toDigits d.digits
  have hlead : d.leading + 1 = (((Nat.toDigits 10 d.digits).length : ℕ) : ℤ) + d.exponent := by
    rw [leading, length_digitText]
    omega
  rw [hlead, zpow_add₀ (by norm_num), zpow_natCast, value]
  push_cast at hlt
  exact mul_lt_mul_of_pos_right hlt (by positivity)

/-- A power of ten is at most a nonzero value exactly when it is at most the leading power. -/
theorem pow_le_value_iff (hd : 0 < d.digits) (t : ℤ) :
    (10 : ℚ) ^ t ≤ d.value ↔ t ≤ d.leading := by
  constructor
  · intro h
    by_contra hlt
    have hup : (10 : ℚ) ^ (d.leading + 1) ≤ 10 ^ t :=
      zpow_le_zpow_right₀ (by norm_num) (by omega)
    linarith [d.value_lt_pow_leading]
  · intro h
    exact (zpow_le_zpow_right₀ (by norm_num) h).trans (pow_leading_le hd)

theorem value_eq_zero_iff : d.value = 0 ↔ d.digits = 0 := by
  have : (10 : ℚ) ^ d.exponent ≠ 0 := zpow_ne_zero _ (by norm_num)
  simp [value, this]

variable {p : BinaryParts}

/-- The decimal of a nonzero double is nonzero: it lies above half the double's last step. -/
theorem digits_ofParts_eq_zero_iff (hp : p.Finite) :
    (ofParts p).digits = 0 ↔ p.significand = 0 := by
  constructor
  · intro hz
    by_contra hm
    have hlow := (ofParts_rounds hp).bounds.1
    have hgap := p.gapBelow_le
    have hq : (0 : ℚ) < 2 ^ p.exponent := by positivity
    have hsig : (1 : ℚ) ≤ p.significand := by exact_mod_cast Nat.one_le_iff_ne_zero.mpr hm
    have hv : (2 : ℚ) ^ p.exponent ≤ p.value := by
      rw [BinaryParts.value]
      nlinarith
    rw [value_eq_zero_iff.mpr hz] at hlow
    linarith
  · intro hm
    simp [ofParts, hm]

/-- The decimal of a finite double is written positionally exactly when the double is zero or
its magnitude lies in `[1/1000, 10 ^ 7)`. -/
theorem plain_ofParts_iff (hp : p.Finite) :
    ((ofParts p).digits = 0 ∨ (-3 ≤ (ofParts p).leading ∧ (ofParts p).leading < 7)) ↔
      (p.value = 0 ∨ (1 / 1000 ≤ p.value ∧ p.value < 10 ^ 7)) := by
  have hzero : p.value = 0 ↔ p.significand = 0 := by
    have : (2 : ℚ) ^ p.exponent ≠ 0 := zpow_ne_zero _ (by norm_num)
    simp [BinaryParts.value, this]
  rw [digits_ofParts_eq_zero_iff hp, hzero]
  by_cases hm : p.significand = 0
  · simp [hm]
  · have hm' : 0 < p.significand := Nat.pos_of_ne_zero hm
    have hd : 0 < (ofParts p).digits :=
      Nat.pos_of_ne_zero (mt (digits_ofParts_eq_zero_iff hp).mp hm)
    -- the leading power against `-3` and `7` is the decimal against the thresholds, and no
    -- double's interval straddles those
    have hlow := pow_le_value_iff hd (-3)
    have hhigh := pow_le_value_iff hd 7
    have hthousandth := thousandth_le_value_ofParts_iff hp hm'
    have htenMillion := tenMillion_le_value_ofParts_iff hp hm'
    norm_num at hlow hhigh hthousandth htenMillion
    simp only [hm, false_or]
    constructor
    · rintro ⟨h1, h2⟩
      exact ⟨hthousandth.mp (hlow.mpr h1), lt_of_not_ge fun h => by
        have := hhigh.mp (htenMillion.mpr h)
        omega⟩
    · rintro ⟨h1, h2⟩
      exact ⟨hlow.mp (hthousandth.mpr h1), by
        by_contra h
        have := htenMillion.mp (hhigh.mpr (by omega))
        linarith⟩

end Decimal

open Float.Model in
/-- A finite double is neither a NaN nor an infinity. -/
theorem isNaN_isInf_of_isFinite {x : Float} (hx : x.isFinite = true) :
    x.isNaN = false ∧ x.isInf = false := by
  simp only [Float.isFinite, Float.isNaN, Float.isInf, Float.Model.isFinite, Float.Model.isNaN,
    Float.Model.isInf] at *
  cases h : x.toModel.unpack <;>
    simp_all [UnpackedFloat.isFinite, UnpackedFloat.isNaN, UnpackedFloat.isInf]

/-- A finite double is written as its sign and the text of its shortest decimal. -/
theorem NumberStyle.render_of_isFinite (st : NumberStyle) {x : Float} (hx : x.isFinite = true) :
    st.render x = (if (BinaryParts.ofFloat x).negative then "-" else "") ++
      st.magnitude (Decimal.shortest x) := by
  obtain ⟨hnan, hinf⟩ := isNaN_isInf_of_isFinite hx
  simp only [NumberStyle.render, hnan, hinf, Bool.false_eq_true, if_false]
  rfl

/-- How Lox prints a finite double. Its text is the sign, then a numeral for the shortest
decimal that rounds to the double; the numeral reads back as a decimal of the same value. It is
plain exactly for zero and for magnitudes from `1/1000` up to below `10 ^ 7`, and then it is the
host's text less a trailing `.0`. Otherwise it is `c.rE` and the power of ten of the leading
digit, `c` a nonzero digit and `r` the other digits, or `0`, ending in no zero. -/
theorem finite_numbers_print_as_their_shortest_decimal (x : Float) (hx : x.isFinite = true)
    {p : BinaryParts} {d : Decimal} {text : String} (hpx : BinaryParts.ofFloat x = p)
    (hdx : Decimal.shortest x = d) (htextd : NumberStyle.lox.magnitude d = text) :
    Value.text (.num x) = (if p.negative then "-" else "") ++ text ∧
    p.Rounds d.value ∧
    (∃ d' : Decimal, FloatText.unsignedDecimal? text.toList = some d' ∧ d'.value = d.value ∧
      readFloat? (Value.text (.num x)) = some (d'.toFloat p.negative)) ∧
    ((∀ c ∈ text.toList, c.isDigit = true ∨ c = '.') ↔
      p.value = 0 ∨ (1 / 1000 ≤ p.value ∧ p.value < 10 ^ 7)) ∧
    ((∀ c ∈ text.toList, c.isDigit = true ∨ c = '.') → NumberStyle.shown.render x =
      Value.text (.num x) ++ (if '.' ∈ text.toList then "" else ".0")) ∧
    (¬(∀ c ∈ text.toList, c.isDigit = true ∨ c = '.') →
      ∃ c r, text = String.ofList (c :: '.' :: r) ++ "E" ++ d.leading.repr ∧
      c ≠ '0' ∧ c.isDigit = true ∧ (∀ c ∈ r, c.isDigit = true) ∧
      (r = ['0'] ∨ (r ≠ [] ∧ r.getLast? ≠ some '0')) ∧
      (10 : ℚ) ^ d.leading ≤ d.value ∧ d.value < 10 ^ (d.leading + 1)) := by
  subst hpx hdx htextd
  set p := BinaryParts.ofFloat x
  set d := Decimal.shortest x
  set text := NumberStyle.lox.magnitude d
  have hp : p.Finite := BinaryParts.ofFloat_finite hx
  have htext : Value.text (.num x) = (if p.negative then "-" else "") ++ text :=
    NumberStyle.render_of_isFinite _ hx
  obtain ⟨n, hchars, hvalue, hnone⟩ := NumberStyle.lox_magnitude_numeral d
  -- the text is plain exactly when its numeral has no exponent
  have hplain : (∀ c ∈ text.toList, c.isDigit = true ∨ c = '.') ↔
      d.digits = 0 ∨ (-3 ≤ d.leading ∧ d.leading < 7) := by
    rw [← hnone, ← n.plain_iff, ← hchars]
  refine ⟨htext, Decimal.ofParts_rounds hp, ⟨n.decimal, hchars ▸ n.read, hvalue, ?_⟩,
    hplain.trans (Decimal.plain_ofParts_iff hp), fun h => ?_, fun h => ?_⟩
  · have hnumeral : text = String.ofList n.chars := by rw [← hchars, String.ofList_toList]
    rw [htext, hnumeral]
    exact n.readFloat p.negative
  · rw [NumberStyle.render_of_isFinite _ hx, htext,
      NumberStyle.shown_magnitude_of_plain (hplain.mp h), String.append_assoc]
  · have hd : 0 < d.digits := Nat.pos_of_ne_zero fun hz => h (hplain.mpr (.inl hz))
    have hr : ¬(-3 ≤ d.leading ∧ d.leading < 7) := fun hr => h (hplain.mpr (.inr hr))
    obtain ⟨c, r, hform, hc0, hc, hr, hlast⟩ :=
      NumberStyle.lox_magnitude_scientific (Decimal.ofParts_trimmed _) hd hr
    exact ⟨c, r, hform, hc0, hc, hr, hlast, Decimal.pow_leading_le hd, d.value_lt_pow_leading⟩

/-- `1e-7` is finite, and its text reads back as a decimal of its shortest decimal's value. -/
theorem ten_millionth_reads_back :
    (1e-7 : Float).isFinite = true ∧
      ∃ d' : Decimal,
        FloatText.unsignedDecimal? (NumberStyle.lox.magnitude (Decimal.shortest 1e-7)).toList =
          some d' ∧ d'.value = (Decimal.shortest 1e-7).value ∧
        readFloat? (Value.text (.num 1e-7)) =
          some (d'.toFloat (BinaryParts.ofFloat 1e-7).negative) :=
  have h : (1e-7 : Float).isFinite = true := by decide +kernel
  ⟨h, (finite_numbers_print_as_their_shortest_decimal 1e-7 h rfl rfl rfl).2.2.1⟩

example : Value.text (.num 1e-7) = "1.0E-7" := by decide +kernel

example : Value.text (.num 12345678.0) = "1.2345678E7" := by decide +kernel

end Lox
