import RoleMining.Json.Reader
import RoleMining.Json.Writer
import RoleMining.Proofs.Binary64.Shortest

/-!
# Numbers that are written and read

An integer is written in its digits. A double is written with the digits of its shortest numeral, a
point or an exponent saying where they stand. The three layouts of a double spell the same value, so
each of them is read as the number, as long as what follows it is no part of a numeral.
-/
namespace RoleMining.Json

/-! ### Digits -/

theorem digitsValue_eq (cs : List Char) : digitsValue cs = Nat.ofDigitChars 10 cs 0 := rfl

theorem digitsValue_toDigits (n : ℕ) : digitsValue (Nat.toDigits 10 n) = n :=
  Nat.ofDigitChars_ten_toDigits

theorem digitsValue_zero_cons (cs : List Char) : digitsValue ('0' :: cs) = digitsValue cs := rfl

theorem digitsValue_zeros_append (k : ℕ) (cs : List Char) :
    digitsValue (List.replicate k '0' ++ cs) = digitsValue cs := by
  rw [digitsValue_eq, Nat.ofDigitChars_append, Nat.ofDigitChars_replicate_zero, Nat.mul_zero,
    digitsValue_eq]

theorem digitsValue_append_zeros (cs : List Char) (k : ℕ) :
    digitsValue (cs ++ List.replicate k '0') = 10 ^ k * digitsValue cs := by
  rw [digitsValue_eq, Nat.ofDigitChars_append, Nat.ofDigitChars_replicate_zero, digitsValue_eq]

def AllDigits (cs : List Char) : Prop := ∀ c ∈ cs, isDigit c = true

theorem allDigits_toDigits (n : ℕ) : AllDigits (Nat.toDigits 10 n) := fun _ hc =>
  Nat.isDigit_of_mem_toDigits (by decide) (by decide) hc

theorem allDigits_zeros (k : ℕ) : AllDigits (List.replicate k '0') := fun c hc => by
  rw [List.eq_of_mem_replicate hc]
  rfl

theorem AllDigits.append {xs ys : List Char} (hx : AllDigits xs) (hy : AllDigits ys) :
    AllDigits (xs ++ ys) := fun c hc => (List.mem_append.1 hc).elim (hx c) (hy c)

/-- The digits of a whole part: a zero that stands alone, or digits that begin with no zero. -/
structure IsWhole (cs : List Char) : Prop where
  ne_nil : cs ≠ []
  allDigits : AllDigits cs
  eq_zero : cs.head? = some '0' → cs = ['0']

theorem head?_toDigits_ne_zero {n : ℕ} (hn : 0 < n) : (Nat.toDigits 10 n).head? ≠ some '0' := by
  induction n using Nat.strongRecOn with
  | ind n ih =>
    rw [Nat.toDigits_eq_if (by decide)]
    split_ifs with hlt
    · have hdigits : ∀ d < 10, 0 < d → d.digitChar ≠ '0' := by decide
      simpa using hdigits n hlt hn
    · rw [List.head?_append_of_ne_nil _ Nat.toDigits_ne_nil]
      exact ih (n / 10) (by omega) (by omega)

theorem isWhole_toDigits (n : ℕ) : IsWhole (Nat.toDigits 10 n) where
  ne_nil := Nat.toDigits_ne_nil
  allDigits := allDigits_toDigits n
  eq_zero hhead := by
    rcases Nat.eq_zero_or_pos n with rfl | hn
    · rfl
    · exact absurd hhead (head?_toDigits_ne_zero hn)

/-- A first part of the digits, or the digits with more behind them, begin as the digits do. -/
theorem isWhole_of_head? {cs : List Char} {n : ℕ} (hn : 0 < n) (hdigits : AllDigits cs)
    (hhead : cs.head? = (Nat.toDigits 10 n).head?) : IsWhole cs where
  ne_nil := by
    rintro rfl
    exact Nat.toDigits_ne_nil (List.head?_eq_none_iff.1 hhead.symm)
  allDigits := hdigits
  eq_zero hzero := absurd (hhead ▸ hzero) (head?_toDigits_ne_zero hn)

/-! ### What ends a numeral -/

/-- The text does not begin with a digit. -/
def NoDigit (rest : List Char) : Prop := ∀ c ∈ rest.head?, isDigit c = false

/-- The text goes on with nothing that a numeral could go on with. -/
def Ended (rest : List Char) : Prop :=
  ∀ c ∈ rest.head?, isDigit c = false ∧ c ≠ '.' ∧ c ≠ 'e' ∧ c ≠ 'E'

theorem Ended.noDigit {rest : List Char} (h : Ended rest) : NoDigit rest :=
  fun c hc => (h c hc).1

theorem takeWhile_append {cs rest : List Char} (hcs : AllDigits cs) (hrest : NoDigit rest) :
    (cs ++ rest).takeWhile isDigit = cs := by
  rw [List.takeWhile_append_of_pos hcs]
  cases rest with
  | nil => simp
  | cons c rest => simp [hrest c rfl]

theorem dropWhile_append {cs rest : List Char} (hcs : AllDigits cs) (hrest : NoDigit rest) :
    (cs ++ rest).dropWhile isDigit = rest := by
  rw [List.dropWhile_append_of_pos hcs]
  cases rest with
  | nil => rfl
  | cons c rest => simp [hrest c rfl]

/-! ### The parts of a numeral -/

variable {cs whole fraction rest : List Char}

theorem readWhole?_append (hwhole : IsWhole whole) (hrest : NoDigit rest) :
    readWhole? (whole ++ rest) = some (whole, rest) := by
  have hnil : (whole.isEmpty) = false := List.isEmpty_eq_false_iff.2 hwhole.ne_nil
  unfold readWhole?
  split
  next tail he =>
    have hzero := hwhole.eq_zero (by
      rw [← List.head?_append_of_ne_nil _ hwhole.ne_nil, he]
      rfl)
    rw [hzero] at he ⊢
    cases he
    rfl
  next =>
    rw [takeWhile_append hwhole.allDigits hrest, dropWhile_append hwhole.allDigits hrest]
    simp [hnil]

theorem readFraction_point (hfraction : AllDigits fraction) (hne : fraction ≠ [])
    (hrest : NoDigit rest) : readFraction ('.' :: (fraction ++ rest)) = (fraction, rest) := by
  rw [readFraction, takeWhile_append hfraction hrest, dropWhile_append hfraction hrest]
  simp [hne]

theorem readFraction_of_no_point (hrest : '.' ∉ rest.head?) : readFraction rest = ([], rest) := by
  unfold readFraction
  split
  next => simp at hrest
  next => rfl

theorem readExponent_mark {size : List Char} (hsize : AllDigits size) (hne : size ≠ [])
    (hrest : NoDigit rest) (negative : Bool) :
    readExponent ('e' :: (if negative then '-' else '+') :: (size ++ rest)) =
      (some (if negative then -(digitsValue size : ℤ) else digitsValue size), rest) := by
  unfold readExponent
  cases negative
  all_goals
    simp only [Bool.false_eq_true, if_false, if_true, BEq.rfl, Bool.true_or]
    rw [takeWhile_append hsize hrest, dropWhile_append hsize hrest]
    simp [hne]

theorem readExponent_of_ended (hrest : Ended rest) : readExponent rest = (none, rest) := by
  unfold readExponent
  cases rest with
  | nil => rfl
  | cons c rest =>
    obtain ⟨-, -, he, hE⟩ := hrest c rfl
    simp [he, hE]

/-- A whole part that nothing follows is an integer. -/
theorem readMagnitude?_int (hwhole : IsWhole whole) (hlength : whole.length ≤ Text.maxNumeralDigits)
    (hrest : Ended rest) (negative : Bool) : readMagnitude? negative (whole ++ rest) =
      some (.int (if negative then -(digitsValue whole : ℤ) else digitsValue whole), rest) := by
  have hpoint : '.' ∉ rest.head? := fun hc => (hrest _ hc).2.1 rfl
  rw [readMagnitude?, readWhole?_append hwhole hrest.noDigit]
  simp only [Option.bind_eq_bind, Option.bind_some, readFraction_of_no_point hpoint,
    readExponent_of_ended hrest]
  simp [hlength]

/-- With a fraction or an exponent behind it the numeral is a double. -/
theorem readMagnitude?_float {exponent : Option ℤ} {afterWhole afterFraction : List Char}
    (hwhole : IsWhole whole) (hafter : NoDigit afterWhole)
    (hfraction : readFraction afterWhole = (fraction, afterFraction))
    (hexponent : readExponent afterFraction = (exponent, rest))
    (hfloat : fraction ≠ [] ∨ exponent ≠ none) (negative : Bool) :
    readMagnitude? negative (whole ++ afterWhole) = some (.float (Binary64.ofDecimal negative
      (digitsValue (whole ++ fraction)) (exponent.getD 0 - fraction.length)), rest) := by
  rw [readMagnitude?, readWhole?_append hwhole hafter]
  simp only [Option.bind_eq_bind, Option.bind_some, hfraction, hexponent]
  rw [if_neg]
  simpa [imp_iff_not_or] using hfloat

/-! ### The three layouts of a double -/

section Layout

variable {n : ℕ} {leading : ℤ} (hn : 0 < n) (hrest : Ended rest) (negative : Bool)

include hrest in
/-- Below one the numeral begins with a zero and a point. -/
theorem readMagnitude?_layout_small (hlow : -4 ≤ leading) (hhigh : leading < 0) :
    readMagnitude? negative (Binary64.layout (Nat.toDigits 10 n) leading ++ rest) =
      some (.float (Binary64.ofDecimal negative n (leading + 1 - (Nat.toDigits 10 n).length)),
        rest) := by
  have hfraction := (allDigits_zeros (-leading - 1).toNat).append (allDigits_toDigits n)
  have hne : List.replicate (-leading - 1).toNat '0' ++ Nat.toDigits 10 n ≠ [] :=
    List.append_ne_nil_of_right_ne_nil _ Nat.toDigits_ne_nil
  have hread := readMagnitude?_float (isWhole_toDigits 0) (fun c hc => by cases hc; rfl)
    (readFraction_point hfraction hne hrest.noDigit) (readExponent_of_ended hrest) (.inl hne)
    negative
  have hvalue : digitsValue (Nat.toDigits 10 0 ++
      (List.replicate (-leading - 1).toNat '0' ++ Nat.toDigits 10 n)) = n := by
    rw [Nat.toDigits_zero, List.singleton_append, digitsValue_zero_cons, digitsValue_zeros_append,
      digitsValue_toDigits]
  have hshift : (none : Option ℤ).getD 0 -
      ((List.replicate (-leading - 1).toNat '0' ++ Nat.toDigits 10 n).length : ℕ) =
        leading + 1 - (Nat.toDigits 10 n).length := by
    rw [List.length_append, List.length_replicate, Option.getD_none]
    omega
  rw [hvalue, hshift] at hread
  rw [Binary64.layout, if_pos ⟨hlow, hhigh⟩]
  exact hread

include hn hrest

/-- A whole number of up to sixteen places has one decimal, a zero. -/
theorem readMagnitude?_layout_whole (hlow : 0 ≤ leading) (hhigh : leading < 16)
    (hlength : (Nat.toDigits 10 n).length ≤ leading.toNat + 1) :
    readMagnitude? negative (Binary64.layout (Nat.toDigits 10 n) leading ++ rest) =
      some (.float (Binary64.ofDecimal negative
        (10 ^ (leading.toNat + 1 - (Nat.toDigits 10 n).length + 1) * n) (-1)), rest) := by
  set zeros := List.replicate (leading.toNat + 1 - (Nat.toDigits 10 n).length) '0' with hzeros
  have hwhole : IsWhole (Nat.toDigits 10 n ++ zeros) :=
    isWhole_of_head? hn ((allDigits_toDigits n).append (allDigits_zeros _))
      (List.head?_append_of_ne_nil _ Nat.toDigits_ne_nil)
  have hread := readMagnitude?_float hwhole (fun c hc => by cases hc; rfl)
    (readFraction_point (allDigits_zeros 1) (by decide) hrest.noDigit)
    (readExponent_of_ended hrest) (.inl (by decide)) negative
  have hvalue : digitsValue (Nat.toDigits 10 n ++ zeros ++ List.replicate 1 '0') =
      10 ^ (leading.toNat + 1 - (Nat.toDigits 10 n).length + 1) * n := by
    rw [List.append_assoc, hzeros, List.replicate_append_replicate, digitsValue_append_zeros,
      digitsValue_toDigits]
  rw [hvalue] at hread
  rw [Binary64.layout, if_neg (by omega), if_pos ⟨hlow, hhigh⟩]
  dsimp only
  rw [if_pos hlength, List.append_assoc]
  exact hread

/-- The point may stand between the digits. -/
theorem readMagnitude?_layout_point (hlow : 0 ≤ leading) (hhigh : leading < 16)
    (hlength : leading.toNat + 1 < (Nat.toDigits 10 n).length) :
    readMagnitude? negative (Binary64.layout (Nat.toDigits 10 n) leading ++ rest) =
      some (.float (Binary64.ofDecimal negative n (leading + 1 - (Nat.toDigits 10 n).length)),
        rest) := by
  set digits := Nat.toDigits 10 n with hdigits
  have hwhole : IsWhole (digits.take (leading.toNat + 1)) := by
    refine isWhole_of_head? hn (fun c hc => allDigits_toDigits n c (List.mem_of_mem_take hc)) ?_
    rw [List.head?_take, if_neg (Nat.succ_ne_zero _)]
  have hfraction : AllDigits (digits.drop (leading.toNat + 1)) := fun c hc =>
    allDigits_toDigits n c (List.mem_of_mem_drop hc)
  have hne : digits.drop (leading.toNat + 1) ≠ [] := by
    simpa [List.drop_eq_nil_iff] using hlength
  have hread := readMagnitude?_float hwhole (fun c hc => by cases hc; rfl)
    (readFraction_point hfraction hne hrest.noDigit) (readExponent_of_ended hrest) (.inl hne)
    negative
  have hshift : (none : Option ℤ).getD 0 - ((digits.drop (leading.toNat + 1)).length : ℕ) =
      leading + 1 - digits.length := by
    rw [List.length_drop, Option.getD_none]
    omega
  rw [List.take_append_drop, hdigits, digitsValue_toDigits, ← hdigits, hshift] at hread
  rw [Binary64.layout, if_neg (by omega), if_pos ⟨hlow, hhigh⟩]
  dsimp only
  rw [if_neg (by omega), List.append_assoc]
  exact hread

omit hn in
/-- The exponent has a sign and at least two digits. -/
theorem readExponent_sign (leading : ℤ) :
    let size := Nat.toDigits 10 leading.natAbs
    readExponent ('e' :: (if leading < 0 then '-' else '+') ::
      ((if size.length < 2 then '0' :: size else size) ++ rest)) = (some leading, rest) := by
  intro size
  have hsize : AllDigits (if size.length < 2 then '0' :: size else size) := by
    split_ifs
    · exact (allDigits_zeros 1).append (allDigits_toDigits _)
    · exact allDigits_toDigits _
  have hne : (if size.length < 2 then '0' :: size else size) ≠ [] := by
    split_ifs
    · exact List.cons_ne_nil _ _
    · exact Nat.toDigits_ne_nil
  have hvalue : digitsValue (if size.length < 2 then '0' :: size else size) = leading.natAbs := by
    split_ifs
    · exact digitsValue_toDigits _
    · exact digitsValue_toDigits _
  have hread := readExponent_mark hsize hne hrest.noDigit (decide (leading < 0))
  rw [hvalue] at hread
  simp only [decide_eq_true_eq] at hread
  rw [hread]
  congr 2
  split_ifs <;> omega

/-- Far from the point the numeral has one digit before it and an exponent. -/
theorem readMagnitude?_layout_exponent (hfar : leading < -4 ∨ 16 ≤ leading) :
    readMagnitude? negative (Binary64.layout (Nat.toDigits 10 n) leading ++ rest) =
      some (.float (Binary64.ofDecimal negative n (leading + 1 - (Nat.toDigits 10 n).length)),
        rest) := by
  have hexponent := readExponent_sign hrest leading
  set digits := Nat.toDigits 10 n with hdigits
  have hpos : 0 < digits.length := Nat.length_toDigits_pos
  have hwhole : IsWhole (digits.take 1) := by
    refine isWhole_of_head? hn (fun c hc => allDigits_toDigits n c (List.mem_of_mem_take hc)) ?_
    rw [List.head?_take, if_neg one_ne_zero]
  rw [Binary64.layout, if_neg (by omega), if_neg (by omega)]
  dsimp only at hexponent ⊢
  set size := (if (Nat.toDigits 10 leading.natAbs).length < 2 then
    '0' :: Nat.toDigits 10 leading.natAbs else Nat.toDigits 10 leading.natAbs)
  set mark := 'e' :: (if leading < 0 then '-' else '+') :: (size ++ rest) with hmark
  have hmarked : NoDigit mark := fun c hc => by cases hc; rfl
  have hfraction : readFraction ((if digits.length ≤ 1 then [] else '.' :: digits.drop 1) ++ mark) =
      (digits.drop 1, mark) := by
    by_cases hone : digits.length ≤ 1
    · rw [if_pos hone, List.drop_of_length_le hone]
      exact readFraction_of_no_point (by simp [hmark])
    · rw [if_neg hone]
      exact readFraction_point (fun c hc => allDigits_toDigits n c (List.mem_of_mem_drop hc))
        (fun hnil => hone (List.drop_eq_nil_iff.1 hnil)) hmarked
  have hafter : NoDigit ((if digits.length ≤ 1 then [] else '.' :: digits.drop 1) ++ mark) := by
    by_cases hone : digits.length ≤ 1
    · rw [if_pos hone]
      exact hmarked
    · rw [if_neg hone]
      exact fun c hc => by cases hc; rfl
  have hread := readMagnitude?_float hwhole hafter hfraction hexponent (.inr (by simp)) negative
  have hshift : (some leading).getD 0 - ((digits.drop 1).length : ℕ) =
      leading + 1 - digits.length := by
    rw [Option.getD_some, List.length_drop]
    omega
  rw [List.take_append_drop, hdigits, digitsValue_toDigits, ← hdigits, hshift] at hread
  rw [List.append_assoc, List.append_assoc]
  exact hread

/-- Each layout spells the value of the digits at their place. -/
theorem exists_readMagnitude?_layout (place : ℤ) : ∃ (n' : ℕ) (shift : ℤ),
    (n' : ℚ) * 10 ^ shift = n * 10 ^ place ∧
      readMagnitude? negative (Binary64.layout (Nat.toDigits 10 n)
        (place + (Nat.toDigits 10 n).length - 1) ++ rest) =
          some (.float (Binary64.ofDecimal negative n' shift), rest) := by
  set leading := place + (Nat.toDigits 10 n).length - 1 with hleading
  have hplace : leading + 1 - (Nat.toDigits 10 n).length = place := by omega
  rcases lt_or_ge leading (-4) with hfar | hlow
  · exact ⟨n, _, by rw [hplace], readMagnitude?_layout_exponent hn hrest negative (.inl hfar)⟩
  rcases lt_or_ge leading 0 with hsmall | hnonneg
  · exact ⟨n, _, by rw [hplace], readMagnitude?_layout_small hrest negative hlow hsmall⟩
  rcases lt_or_ge leading 16 with hmiddle | hfar
  · rcases le_or_gt (Nat.toDigits 10 n).length (leading.toNat + 1) with hwhole | hpoint
    · refine ⟨_, _, ?_, readMagnitude?_layout_whole hn hrest negative hnonneg hmiddle hwhole⟩
      have hpower : (leading.toNat + 1 - (Nat.toDigits 10 n).length : ℕ) = place := by omega
      rw [Nat.cast_mul, Nat.cast_pow, Nat.cast_ofNat, pow_succ, ← zpow_natCast, hpower,
        zpow_neg_one]
      ring
    · exact ⟨n, _, by rw [hplace],
        readMagnitude?_layout_point hn hrest negative hnonneg hmiddle hpoint⟩
  · exact ⟨n, _, by rw [hplace], readMagnitude?_layout_exponent hn hrest negative (.inr hfar)⟩

end Layout

/-! ### Signed numbers -/

theorem exists_digit_of_readMagnitude? {negative : Bool} {r : Json × List Char}
    (h : readMagnitude? negative cs = some r) : ∃ c tail, cs = c :: tail ∧ isDigit c = true := by
  obtain ⟨whole, hwhole, -⟩ := Option.bind_eq_some_iff.1 h
  unfold readWhole? at hwhole
  split at hwhole
  next tail => exact ⟨'0', tail, rfl, rfl⟩
  next =>
    dsimp only at hwhole
    split_ifs at hwhole with hnil
    cases cs with
    | nil => simp at hnil
    | cons c tail =>
      refine ⟨c, tail, rfl, ?_⟩
      by_contra hc
      simp [hc] at hnil

theorem ne_of_isDigit {c other : Char} (hc : isDigit c = true) (hother : isDigit other = false) :
    c ≠ other := by
  rintro rfl
  exact Bool.false_ne_true (hother.symm.trans hc)

/-- A minus before a magnitude makes it negative. -/
theorem readNumber?_signed {negative : Bool} {r : Json × List Char}
    (h : readMagnitude? negative cs = some r) :
    readNumber? ((if negative then ['-'] else []) ++ cs) = some r := by
  obtain ⟨c, tail, rfl, hc⟩ := exists_digit_of_readMagnitude? h
  have hminus : c ≠ '-' := ne_of_isDigit hc rfl
  have hletter : c ≠ 'I' := ne_of_isDigit hc rfl
  have hword : after? "Infinity".toList (c :: tail) = none := by
    rw [show "Infinity".toList = 'I' :: "nfinity".toList from rfl, after?,
      if_neg (by simpa using hletter.symm)]
  cases negative
  · unfold readNumber?
    split
    next he => cases he; exact absurd rfl hminus
    next => exact h
  · rw [if_pos rfl, List.singleton_append, readNumber?, hword]
    exact h

/-- An integer that is not too long is read as it was written. -/
theorem readNumber?_decimal {n : ℤ}
    (hlength : (Nat.toDigits 10 n.natAbs).length ≤ Text.maxNumeralDigits) (hrest : Ended rest) :
    readNumber? (Text.decimal n ++ rest) = some (.int n, rest) := by
  have hread := readNumber?_signed
    (readMagnitude?_int (isWhole_toDigits n.natAbs) hlength hrest (decide (n < 0)))
  rw [digitsValue_toDigits] at hread
  unfold Text.decimal
  split_ifs with hsign
  · rw [if_pos (by simpa using hsign), if_pos (by simpa using hsign)] at hread
    rwa [show -(n.natAbs : ℤ) = n by omega] at hread
  · rw [if_neg (by simpa using hsign), if_neg (by simpa using hsign)] at hread
    rwa [show (n.natAbs : ℤ) = n by omega] at hread

/-- A finite double is read as it was written. -/
theorem readNumber?_toText {x : Binary64} (hx : x.isFinite = true) (hrest : Ended rest) :
    readNumber? (x.toText.toList ++ rest) = some (.float x, rest) := by
  cases x with
  | nan => cases hx
  | infinite => cases hx
  | finite negative m e normal =>
    unfold Binary64.toText
    dsimp only
    by_cases hzero : m = 0
    · subst hzero
      obtain rfl : e = -1074 := normal.2.2.2.resolve_left (by decide)
      have hread := readNumber?_signed (readMagnitude?_float (isWhole_toDigits 0)
        (fun c hc => by cases hc; rfl)
        (readFraction_point (allDigits_zeros 1) (by decide) hrest.noDigit)
        (readExponent_of_ended hrest) (.inl (by decide)) negative)
      rw [if_pos rfl, String.toList_ofList, List.append_assoc]
      exact hread
    · have hm : 0 < m := Nat.pos_of_ne_zero hzero
      rw [if_neg hzero]
      set shortest := (Binary64.shortestDigits (.finite false m e normal)).trim 20 with hshortest
      have hvalue : (shortest.digits : ℚ) * 10 ^ shortest.place =
          (Binary64.shortestDigits (.finite false m e normal)).value := by
        rw [← Binary64.Digits.value_trim 20, ← hshortest, Binary64.Digits.value,
          Binary64.tenTo_eq]
      have hpos : 0 < shortest.digits := by
        refine Nat.pos_of_ne_zero fun hnone => ?_
        rw [hnone, Nat.cast_zero, zero_mul] at hvalue
        exact Binary64.value_shortestDigits_ne_zero normal hm hvalue.symm
      obtain ⟨n, shift, hsame, hread⟩ :=
        exists_readMagnitude?_layout hpos hrest negative shortest.place
      rw [Binary64.ofDecimal_eq_of_value hm (hsame.trans hvalue)] at hread
      rw [String.toList_ofList, List.append_assoc]
      exact readNumber?_signed hread

end RoleMining.Json
