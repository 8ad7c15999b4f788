import RoleMining.Population.Assignments
import RoleMining.Proofs.Binary64.Exact

/-!
# Integers in weight cells

An integer in a cell is read twice: as an integer, and digit by digit in double precision. As long
as it is small enough nothing is rounded on the way, and the two readings agree.
-/
namespace RoleMining

namespace Binary64

theorem isFinite_neg (x : Binary64) : (-x).isFinite = x.isFinite := by
  cases x <;> rfl

theorem value_neg (x : Binary64) : (-x).value = -x.value := by
  cases x with
  | nan => exact neg_zero.symm
  | infinite => exact neg_zero.symm
  | finite negative =>
    cases negative
    · rfl
    · exact (neg_neg _).symm

end Binary64

namespace Cell

/-! ### How an integer is written -/

/-- A sign is one character or none, and only a minus makes a number negative. -/
def IsSign (sign : List Char) (negative : Bool) : Prop :=
  (sign = ['-'] ∧ negative = true) ∨ (sign = ['+'] ∧ negative = false) ∨
    (sign = [] ∧ negative = false)

/-- A cell that holds digits with a sign, between spaces. -/
structure Spells (cell : String) (negative : Bool) (digits : List Char) : Prop where
  ne_nil : digits ≠ []
  isDigit : ∀ c ∈ digits, isDigit c = true
  exists_spaces : ∃ before sign after, cell.toList = before ++ ((sign ++ digits) ++ after) ∧
    IsSign sign negative ∧ (∀ c ∈ before, isSpace c = true) ∧ ∀ c ∈ after, isSpace c = true

theorem exists_sign (cs : List Char) :
    ∃ sign, IsSign sign (takeSign cs).1 ∧ cs = sign ++ (takeSign cs).2 := by
  unfold takeSign
  split
  next rest => exact ⟨['-'], .inl ⟨rfl, rfl⟩, rfl⟩
  next rest => exact ⟨['+'], .inr (.inl ⟨rfl, rfl⟩), rfl⟩
  next => exact ⟨[], .inr (.inr ⟨rfl, rfl⟩), rfl⟩

theorem forall_mem_takeWhile {p : Char → Bool} (cs : List Char) :
    ∀ c ∈ cs.takeWhile p, p c = true :=
  List.all_eq_true.1 List.all_takeWhile

theorem forall_mem_of_dropWhile_eq_nil {p : Char → Bool} {cs : List Char}
    (h : cs.dropWhile p = []) : ∀ c ∈ cs, p c = true := by
  have hall := forall_mem_takeWhile (p := p) cs
  rwa [← List.append_nil (cs.takeWhile p), ← h, List.takeWhile_append_dropWhile] at hall

/-- Without an exponent mark nothing is taken. -/
theorem takeExponent_of_unmarked {cs : List Char} (h : (takeExponent cs).2.2 = false) :
    takeExponent cs = (0, cs, false) := by
  unfold takeExponent at h ⊢
  cases cs with
  | nil => rfl
  | cons c rest =>
    dsimp only at h ⊢
    split_ifs at h ⊢
    rfl

/-- A numeral that is written as an integer is its digits, scaled only by those left out. -/
theorem value_of_isWhole {cell : String} {v : Numeral} (h : numeral? cell = some v)
    (hwhole : v.isWhole = true) :
    let signed := takeSign (cell.toList.dropWhile isSpace)
    let s := (signed.2.takeWhile isDigit).foldl Significand.push {}
    s.taken ≠ 0 ∧ v.value = scale (if signed.1 then -s.value else s.value) s.dropped ∧
      (signed.2.dropWhile isDigit).dropWhile isSpace = [] := by
  unfold numeral? at h
  dsimp only at h ⊢
  generalize takeSign (cell.toList.dropWhile isSpace) = signed at h ⊢
  generalize (signed.2.takeWhile isDigit).foldl Significand.push {} = s at h ⊢
  generalize signed.2.dropWhile isDigit = rest at h ⊢
  split at h
  next =>
    -- behind a point the numeral is no integer
    rw [Option.ite_none_left_eq_some, Option.ite_none_left_eq_some] at h
    obtain ⟨-, -, h⟩ := h
    cases h
    cases hwhole
  next =>
    simp only [List.length_nil, Nat.zero_min, List.take_nil, List.foldl_nil, Int.natCast_zero,
      sub_zero] at h
    rw [Option.ite_none_left_eq_some, Option.ite_none_left_eq_some] at h
    obtain ⟨htaken, hvalid, h⟩ := h
    cases h
    have hmark : takeExponent rest = (0, rest, false) :=
      takeExponent_of_unmarked (by simpa using hwhole)
    simp only [hmark, add_zero, Bool.or_eq_true, Bool.not_eq_true', not_or, Bool.not_eq_false,
      List.isEmpty_iff] at hvalid ⊢
    exact ⟨htaken, trivial, hvalid.2⟩

/-- Digits behind a sign, with nothing but spaces before and behind them. -/
theorem spells_takeSign {cell : String}
    (hne : (takeSign (cell.toList.dropWhile isSpace)).2.takeWhile isDigit ≠ [])
    (hafter : ∀ c ∈ (takeSign (cell.toList.dropWhile isSpace)).2.dropWhile isDigit,
      isSpace c = true) :
    Spells cell (takeSign (cell.toList.dropWhile isSpace)).1
      ((takeSign (cell.toList.dropWhile isSpace)).2.takeWhile isDigit) := by
  obtain ⟨sign, hsign, hrest⟩ := exists_sign (cell.toList.dropWhile isSpace)
  generalize takeSign (cell.toList.dropWhile isSpace) = signed at hne hafter hsign hrest ⊢
  refine ⟨hne, forall_mem_takeWhile _, cell.toList.takeWhile isSpace, sign,
    signed.2.dropWhile isDigit, ?_, hsign, forall_mem_takeWhile _, hafter⟩
  rw [List.append_assoc, List.takeWhile_append_dropWhile, ← hrest,
    List.takeWhile_append_dropWhile]

theorem exists_spells {cell : String} {v : Numeral} (h : numeral? cell = some v)
    (hwhole : v.isWhole = true) : ∃ negative digits, Spells cell negative digits ∧
      let s := digits.foldl Significand.push {}
      v.value = scale (if negative then -s.value else s.value) s.dropped := by
  obtain ⟨htaken, hvalue, hafter⟩ := value_of_isWhole h hwhole
  refine ⟨_, _, spells_takeSign (fun hnil => ?_) (forall_mem_of_dropWhile_eq_nil hafter), hvalue⟩
  rw [hnil] at htaken
  exact htaken rfl

/-! ### Double precision -/

/-- The value of a number that goes on with some digits. -/
def continued (start : ℕ) (digits : List Char) : ℕ :=
  (digits.map digitOf).foldl (fun value digit => 10 * value + digit) start

theorem le_continued (start : ℕ) (digits : List Char) : start ≤ continued start digits := by
  induction digits generalizing start with
  | nil => exact le_rfl
  | cons c digits ih =>
    have hle := ih (10 * start + digitOf c)
    unfold continued at hle ⊢
    rw [List.map_cons, List.foldl_cons]
    omega

/-- Digits that are all taken are read exactly, as long as the number they spell is small. -/
theorem exactly_foldl_push {digits : List Char} {s : Significand} {start : ℕ}
    (hs : Binary64.Exactly start s.value) (htaken : s.taken + digits.length ≤ maxTaken)
    (hsmall : continued start digits < 2 ^ 53) :
    Binary64.Exactly (continued start digits) (digits.foldl Significand.push s).value ∧
      (digits.foldl Significand.push s).dropped = s.dropped := by
  induction digits generalizing s start with
  | nil => exact ⟨hs, rfl⟩
  | cons c digits ih =>
    have hle := le_continued (10 * start + digitOf c) digits
    rw [List.length_cons] at htaken
    change continued (10 * start + digitOf c) digits < 2 ^ 53 at hsmall
    have hten : Binary64.Exactly 10 10 := Binary64.exactly_ofInt (by omega) (by omega)
    have hdigit : Binary64.Exactly (digitOf c) (.ofInt (digitOf c)) :=
      Binary64.exactly_ofInt (by omega) (by omega)
    have hshifted : Binary64.Exactly (start * 10) (s.value * 10) := by
      rw [hs.mul hten]
      exact Binary64.exactly_ofInt (by omega) (by omega)
    have hnext : Binary64.Exactly ((10 * start + digitOf c : ℕ) : ℤ)
        (s.value * 10 + .ofInt (digitOf c)) := by
      rw [hshifted.add hdigit, mul_comm]
      exact Binary64.exactly_ofInt (by omega) (by omega)
    have hpush : s.push c =
        { s with value := s.value * 10 + .ofInt (digitOf c), taken := s.taken + 1 } :=
      if_pos (by omega)
    rw [List.foldl_cons, hpush]
    exact ih hnext (by dsimp only; omega) hsmall

/-- A small integer is not changed when nothing was left out. -/
theorem scale_zero {x : Binary64} {n : ℤ} (hx : x.isFinite = true) (hvalue : x.value = n)
    (hsmall : n.natAbs < 2 ^ 53) : (scale x 0).isFinite = true ∧ (scale x 0).value = n := by
  have hone : Binary64.Exactly 1 (power 0) := by constructor <;> decide +kernel
  change (x / power 0).isFinite = true ∧ (x / power 0).value = n
  generalize power 0 = y at hone ⊢
  obtain ⟨hy, hyvalue, -⟩ := hone
  cases x with
  | nan => cases hx
  | infinite => cases hx
  | finite =>
    cases y with
    | nan => cases hy
    | infinite => cases hy
    | finite =>
      change Binary64.isFinite (if Binary64.value _ = 0 then _ else if Binary64.value _ = 0 then
          Binary64.zero _ else .ofRat (Binary64.value _ / Binary64.value _)) = true ∧
        Binary64.value (if Binary64.value _ = 0 then _ else if Binary64.value _ = 0 then
          Binary64.zero _ else .ofRat (Binary64.value _ / Binary64.value _)) = n
      rw [hvalue, hyvalue, Int.cast_one, if_neg one_ne_zero, div_one]
      split_ifs with hzero
      · exact ⟨rfl, by simp [Binary64.value, Binary64.zero, hzero]⟩
      · exact ⟨(Binary64.finite_ofInt hsmall).1, (Binary64.finite_ofInt hsmall).2.1⟩

/-! ### The integer -/

theorem toNat_of_isDigit {c : Char} (h : isDigit c = true) : 48 ≤ c.toNat ∧ c.toNat ≤ 57 := by
  unfold isDigit at h
  rw [Bool.and_eq_true, decide_eq_true_eq, decide_eq_true_eq] at h
  exact h

theorem toNat_of_isSpace {c : Char} (h : isSpace c = true) :
    c.toNat = 32 ∨ 9 ≤ c.toNat ∧ c.toNat ≤ 13 := by
  unfold isSpace at h
  rw [Bool.or_eq_true, Bool.and_eq_true, decide_eq_true_eq, decide_eq_true_eq, beq_iff_eq] at h
  rcases h with rfl | h
  · exact .inl rfl
  · exact .inr h

theorem surroundsNumeral_of_isSpace {c : Char} (h : isSpace c = true) :
    Text.surroundsNumeral c = true := by
  have := toNat_of_isSpace h
  simp [Text.surroundsNumeral, Text.isBlank, Text.blankRanges]
  omega

theorem surroundsNumeral_of_isDigit {c : Char} (h : isDigit c = true) :
    Text.surroundsNumeral c = false := by
  have := toNat_of_isDigit h
  simp [Text.surroundsNumeral, Text.isBlank, Text.blankRanges]
  omega

theorem digitValue?_of_isDigit {c : Char} (h : isDigit c = true) :
    Text.digitValue? c = some (digitOf c) := by
  obtain ⟨hlow, hhigh⟩ := toNat_of_isDigit h
  have hfirst : Text.digitZeros.find? (fun start => start ≤ c.toNat && c.toNat ≤ start + 9) =
      some 0x30 := by
    rw [Text.digitZeros, List.find?_cons_of_pos]
    simp
    omega
  rw [Text.digitValue?, hfirst]
  rfl

theorem numeralDigits?_of_digits {digits : List Char} (hne : digits ≠ [])
    (h : ∀ c ∈ digits, isDigit c = true) :
    Text.numeralDigits? digits = some (digits.map digitOf) := by
  fun_induction Text.numeralDigits? digits with
  | case1 => exact absurd rfl hne
  | case2 c => simp [digitValue?_of_isDigit (h c (by simp))]
  | case3 c rest ih => exact absurd (h '_' (by simp)) (by decide)
  | case4 c rest hnil hline ih =>
    have hrest : rest ≠ [] := by simpa using hnil
    have hdigits : ∀ d ∈ rest, isDigit d = true := fun d hd => h d (List.mem_cons_of_mem _ hd)
    simp [digitValue?_of_isDigit (h c (by simp)), ih hrest hdigits]

theorem trimList_append {p : Char → Bool} {before middle after : List Char} {first last : Char}
    (hbefore : ∀ c ∈ before, p c = true) (hafter : ∀ c ∈ after, p c = true)
    (hfirst : middle.head? = some first) (hlast : middle.getLast? = some last)
    (hpfirst : p first = false) (hplast : p last = false) :
    Text.trimList p (before ++ (middle ++ after)) = middle := by
  have hfront : (middle ++ after).dropWhile p = middle ++ after := by
    obtain ⟨rest, rfl⟩ := List.head?_eq_some_iff.1 hfirst
    rw [List.cons_append, List.dropWhile_cons_of_neg (by simp [hpfirst])]
  have hback : middle.reverse.dropWhile p = middle.reverse := by
    obtain ⟨rest, rfl⟩ := List.getLast?_eq_some_iff.1 hlast
    rw [List.reverse_append, List.reverse_singleton, List.singleton_append,
      List.dropWhile_cons_of_neg (by simp [hplast])]
  have hreverse : ∀ c ∈ after.reverse, p c = true := fun c hc => hafter c (List.mem_reverse.1 hc)
  rw [Text.trimList, List.dropWhile_append_of_pos hbefore, hfront, List.reverse_append,
    List.dropWhile_append_of_pos hreverse, hback, List.reverse_reverse]

theorem natural?_of_digits {digits : List Char} (hne : digits ≠ [])
    (hdigits : ∀ c ∈ digits, isDigit c = true) {m : ℕ} (h : Text.natural? digits = some m) :
    m = continued 0 digits := by
  rw [Text.natural?, numeralDigits?_of_digits hne hdigits] at h
  simp only [Option.bind_eq_bind, Option.bind_some] at h
  split_ifs at h
  exact (Option.some.inj h).symm

namespace Spells

variable {cell : String} {negative : Bool} {digits : List Char}

/-- Spaces are among the blanks that may surround an integer, and signs and digits are not. -/
theorem exists_trimList (h : Spells cell negative digits) : ∃ sign, IsSign sign negative ∧
    Text.trimList Text.surroundsNumeral cell.toList = sign ++ digits := by
  obtain ⟨before, sign, after, hcell, hsign, hbefore, hafter⟩ := h.exists_spaces
  have hlast : (sign ++ digits).getLast? = some (digits.getLast h.ne_nil) := by
    rw [List.getLast?_append_of_ne_nil _ h.ne_nil, List.getLast?_eq_some_getLast h.ne_nil]
  have hplast := surroundsNumeral_of_isDigit (h.isDigit _ (List.getLast_mem h.ne_nil))
  obtain ⟨first, hfirst, hpfirst⟩ : ∃ first, (sign ++ digits).head? = some first ∧
      Text.surroundsNumeral first = false := by
    rcases hsign with ⟨rfl, -⟩ | ⟨rfl, -⟩ | ⟨rfl, -⟩
    · exact ⟨'-', rfl, by decide⟩
    · exact ⟨'+', rfl, by decide⟩
    · exact ⟨digits.head h.ne_nil, List.head?_eq_some_head h.ne_nil,
        surroundsNumeral_of_isDigit (h.isDigit _ (List.head_mem h.ne_nil))⟩
  refine ⟨sign, hsign, ?_⟩
  rw [hcell]
  exact trimList_append (fun c hc => surroundsNumeral_of_isSpace (hbefore c hc))
    (fun c hc => surroundsNumeral_of_isSpace (hafter c hc)) hfirst hlast hpfirst hplast

/-- The integer in a cell is what its digits spell. -/
theorem integer?_eq (h : Spells cell negative digits) {n : ℤ}
    (hread : Text.integer? cell = some n) :
    n = if negative then -(continued 0 digits : ℤ) else continued 0 digits := by
  obtain ⟨sign, hsign, htrim⟩ := h.exists_trimList
  have hnatural : (Text.natural? digits).bind (fun m : ℕ =>
      some (if negative then -(m : ℤ) else m)) = some n := by
    rw [Text.integer?, htrim] at hread
    rcases hsign with ⟨rfl, rfl⟩ | ⟨rfl, rfl⟩ | ⟨rfl, rfl⟩
    · simpa using hread
    · simpa using hread
    · rw [List.nil_append] at hread
      split at hread
      next => exact absurd (h.isDigit '-' List.mem_cons_self) (by decide)
      next => exact absurd (h.isDigit '+' List.mem_cons_self) (by decide)
      next => simpa using hread
  obtain ⟨m, hm, hn⟩ := Option.bind_eq_some_iff.1 hnatural
  rw [← Option.some.inj hn, natural?_of_digits h.ne_nil h.isDigit hm]

theorem length_le (h : Spells cell negative digits) :
    digits.length ≤ (cell.toList.filter Cell.isDigit).length := by
  obtain ⟨before, sign, after, hcell, -⟩ := h.exists_spaces
  have hsub : digits.Sublist cell.toList := by
    rw [hcell]
    exact ((List.sublist_append_right _ _).trans (List.sublist_append_left _ _)).trans
      (List.sublist_append_right _ _)
  have hfilter := (hsub.filter Cell.isDigit).length_le
  rwa [List.filter_eq_self.2 h.isDigit] at hfilter

end Spells

/-- The two readings of an integer with at most seventeen digits agree when it is small. -/
theorem value_eq_of_small {cell : String} {v : Numeral} {n : ℤ} (h : numeral? cell = some v)
    (hwhole : v.isWhole = true) (hinteger : Text.integer? cell = some n)
    (hshort : (cell.toList.filter isDigit).length ≤ maxTaken) (hsmall : n.natAbs < 2 ^ 53) :
    v.value.isFinite = true ∧ v.value.value = n := by
  obtain ⟨negative, digits, hspells, hvalue⟩ := exists_spells h hwhole
  have hnumber := hspells.integer?_eq hinteger
  have hbound : continued 0 digits < 2 ^ 53 := by
    split_ifs at hnumber <;> omega
  have hzero : Binary64.Exactly (0 : ℕ) ({} : Significand).value :=
    Binary64.exactly_ofInt le_rfl (by omega)
  have hfew : ({} : Significand).taken + digits.length ≤ maxTaken := by
    rw [Nat.zero_add]
    exact hspells.length_le.trans hshort
  obtain ⟨hexact, hdropped⟩ := exactly_foldl_push hzero hfew hbound
  generalize digits.foldl Significand.push {} = s at hvalue hexact hdropped
  have hsigned : (if negative then -s.value else s.value).isFinite = true ∧
      (if negative then -s.value else s.value).value = n := by
    rw [hnumber]
    split_ifs
    · rw [Binary64.isFinite_neg, Binary64.value_neg, hexact.value, Int.cast_neg]
      exact ⟨hexact.isFinite, rfl⟩
    · exact ⟨hexact.isFinite, hexact.value⟩
  rw [hvalue, hdropped]
  exact scale_zero hsigned.1 hsigned.2 hsmall

end Cell
end RoleMining
