import Mathlib.Data.List.Basic
import RoleMining.Json.Reader
import RoleMining.Json.Writer

/-!
# Texts that are written and read

Every character has one escaped form, and reading that form gives the character back: a short
escape, the character itself, one UTF-16 code unit, or two of them. A code unit that is written by
itself is no half of a pair, since the halves are no characters.
-/
namespace RoleMining.Json

/-! ### Code units -/

/-- With one digit more, the digits before are those of the quotient. -/
theorem hexadecimal_succ {width : ℕ} (hwidth : 0 < width) (n : ℕ) :
    (Text.hexadecimal (width + 1) n).toList =
      (Text.hexadecimal width (n / 16)).toList ++ [(n % 16).digitChar] := by
  simp only [Text.hexadecimal, String.toList_ofList]
  rcases Nat.lt_or_ge n 16 with hlt | hge
  · rw [Nat.toDigits_of_lt_base hlt, Nat.div_eq_of_lt hlt, Nat.mod_eq_of_lt hlt, Nat.toDigits_zero,
      List.length_singleton, List.length_singleton, Nat.add_sub_cancel]
    congr 1
    rw [← List.replicate_succ', Nat.sub_add_cancel hwidth]
  · rw [Nat.toDigits_of_base_le (by decide) hge, List.length_append, List.length_singleton,
      Nat.add_sub_add_right, List.append_assoc]

theorem hexadecimal_one {n : ℕ} (hn : n < 16) : (Text.hexadecimal 1 n).toList = [n.digitChar] := by
  rw [Text.hexadecimal, String.toList_ofList, Nat.toDigits_of_lt_base hn]
  rfl

theorem hexValue?_digitChar {d : ℕ} (hd : d < 16) : hexValue? d.digitChar = some d := by
  have hall : ∀ d < 16, hexValue? d.digitChar = some d := by decide
  exact hall d hd

/-- The four digits of a code unit are read as the unit. -/
theorem readUnit?_hexadecimal {unit : ℕ} (hunit : unit < 0x10000) (rest : List Char) :
    readUnit? ((Text.hexadecimal 4 unit).toList ++ rest) = some (unit, rest) := by
  rw [hexadecimal_succ (by decide), hexadecimal_succ (by decide), hexadecimal_succ (by decide),
    hexadecimal_one (by omega)]
  simp only [List.cons_append, List.nil_append, readUnit?]
  rw [hexValue?_digitChar (by omega), hexValue?_digitChar (by omega),
    hexValue?_digitChar (by omega), hexValue?_digitChar (by omega)]
  simp only [Option.bind_eq_bind, Option.bind_some, Option.some.injEq, Prod.mk.injEq, and_true]
  omega

/-- No character is numbered as a half of a pair. -/
theorem toNat_not_surrogate (c : Char) : ¬ (0xd800 ≤ c.toNat ∧ c.toNat ≤ 0xdfff) := by
  have hvalid : c.toNat < 0xd800 ∨ (0xdfff < c.toNat ∧ c.toNat < 0x110000) := c.valid
  omega

theorem toNat_lt (c : Char) : c.toNat < 0x110000 := by
  have hvalid : c.toNat < 0xd800 ∨ (0xdfff < c.toNat ∧ c.toNat < 0x110000) := c.valid
  omega

theorem readEscape?_unit_cons (cs : List Char) : readEscape? ('u' :: cs) =
    (readUnit? cs).bind fun (unit, rest) =>
      if 0xd800 ≤ unit ∧ unit ≤ 0xdbff then
        match readLowHalf? rest with
        | some (low, rest) =>
          some (Char.ofNat (0x10000 + (unit - 0xd800) * 0x400 + (low - 0xdc00)), rest)
        | none => some ('\ufffd', rest)
      else if 0xdc00 ≤ unit ∧ unit ≤ 0xdfff then some ('\ufffd', rest)
      else some (Char.ofNat unit, rest) := rfl

theorem readEscape?_unit {c : Char} (hc : c.toNat < 0x10000) (rest : List Char) :
    readEscape? ('u' :: ((Text.hexadecimal 4 c.toNat).toList ++ rest)) = some (c, rest) := by
  have hsurrogate := toNat_not_surrogate c
  rw [readEscape?_unit_cons, readUnit?_hexadecimal hc, Option.bind_some]
  dsimp only
  rw [if_neg (by omega), if_neg (by omega), Char.ofNat_toNat]

theorem readEscape?_pair {c : Char} {offset : ℕ} (hc : c.toNat = 0x10000 + offset)
    (rest : List Char) :
    readEscape? ('u' :: ((Text.hexadecimal 4 (0xd800 + offset / 0x400)).toList ++
      (unitEscape (0xdc00 + offset % 0x400) ++ rest))) = some (c, rest) := by
  have hlt := toNat_lt c
  have hlow : readLowHalf? (unitEscape (0xdc00 + offset % 0x400) ++ rest) =
      some (0xdc00 + offset % 0x400, rest) := by
    rw [unitEscape, List.cons_append, List.cons_append, readLowHalf?,
      readUnit?_hexadecimal (by omega)]
    simp only [Option.bind_eq_bind, Option.bind_some]
    rw [if_pos (by omega)]
  have hnumber : 0x10000 + (0xd800 + offset / 0x400 - 0xd800) * 0x400 +
      (0xdc00 + offset % 0x400 - 0xdc00) = c.toNat := by
    omega
  rw [readEscape?_unit_cons, readUnit?_hexadecimal (by omega), Option.bind_some]
  dsimp only
  rw [hlow, if_pos (by omega)]
  dsimp only
  rw [hnumber, Char.ofNat_toNat]

/-! ### Characters -/

/-- The characters with a short escape, and the letter behind its backslash. -/
def shortEscapes : List (Char × Char) :=
  [('"', '"'), ('\\', '\\'), ('\n', 'n'), ('\r', 'r'), ('\t', 't'), ('\x0c', 'f'), ('\x08', 'b')]

/-- A character has a short escape, stands for itself, or is written by one code unit or two. -/
theorem escapeChar_cases (c : Char) :
    (∃ letter, (c, letter) ∈ shortEscapes ∧ escapeChar c = ['\\', letter]) ∨
    (c ≠ '"' ∧ c ≠ '\\' ∧ 0x20 ≤ c.toNat ∧ c.toNat ≤ 0x7e ∧ escapeChar c = [c]) ∨
    (c.toNat < 0x10000 ∧ escapeChar c = unitEscape c.toNat) ∨
    ∃ offset, c.toNat = 0x10000 + offset ∧ escapeChar c =
      unitEscape (0xd800 + offset / 0x400) ++ unitEscape (0xdc00 + offset % 0x400) := by
  obtain ⟨escaped, hescaped⟩ : ∃ escaped, escapeChar c = escaped := ⟨_, rfl⟩
  rw [hescaped]
  unfold escapeChar at hescaped
  dsimp only at hescaped
  split_ifs at hescaped with hquote hbackslash hnewline hreturn htab hfeed hback hplain hunit
  all_goals subst hescaped
  · exact .inl ⟨'"', by rw [eq_of_beq hquote]; decide, rfl⟩
  · exact .inl ⟨'\\', by rw [eq_of_beq hbackslash]; decide, rfl⟩
  · exact .inl ⟨'n', by rw [eq_of_beq hnewline]; decide, rfl⟩
  · exact .inl ⟨'r', by rw [eq_of_beq hreturn]; decide, rfl⟩
  · exact .inl ⟨'t', by rw [eq_of_beq htab]; decide, rfl⟩
  · exact .inl ⟨'f', by rw [eq_of_beq hfeed]; decide, rfl⟩
  · exact .inl ⟨'b', by rw [eq_of_beq hback]; decide, rfl⟩
  · rw [Bool.and_eq_true, decide_eq_true_eq, decide_eq_true_eq] at hplain
    exact .inr (.inl ⟨by simpa using hquote, by simpa using hbackslash, hplain.1, hplain.2, rfl⟩)
  · exact .inr (.inr (.inl ⟨hunit, rfl⟩))
  · exact .inr (.inr (.inr ⟨_, (Nat.add_sub_of_le (Nat.not_lt.1 hunit)).symm, rfl⟩))

theorem readEscape?_short {c letter : Char} (h : (c, letter) ∈ shortEscapes) (rest : List Char) :
    readEscape? (letter :: rest) = some (c, rest) := by
  simp only [shortEscapes, List.mem_cons, Prod.mk.injEq, List.not_mem_nil, or_false] at h
  rcases h with ⟨rfl, rfl⟩ | ⟨rfl, rfl⟩ | ⟨rfl, rfl⟩ | ⟨rfl, rfl⟩ | ⟨rfl, rfl⟩ | ⟨rfl, rfl⟩ |
    ⟨rfl, rfl⟩ <;> rfl

/-- What stands behind a backslash is read as one character. -/
theorem readString?_backslash {tail rest : List Char} {c : Char}
    (h : readEscape? tail = some (c, rest)) (fuel : ℕ) (taken : List Char) :
    readString? (fuel + 1) taken ('\\' :: tail) = readString? fuel (c :: taken) rest := by
  rw [readString?, h]
  rfl

/-- What is written for a character is read as the character. -/
theorem readString?_escapeChar (c : Char) (fuel : ℕ) (taken rest : List Char) :
    readString? (fuel + 1) taken (escapeChar c ++ rest) = readString? fuel (c :: taken) rest := by
  obtain ⟨letter, hletter, he⟩ | ⟨hquote, hbackslash, hlow, -, he⟩ | ⟨hunit, he⟩ |
    ⟨offset, hoffset, he⟩ := escapeChar_cases c
  · rw [he, List.cons_append, List.singleton_append]
    exact readString?_backslash (readEscape?_short hletter rest) fuel taken
  · rw [he, List.singleton_append, readString?, if_neg (by simpa using hquote),
      if_neg (by simpa using hbackslash), if_neg (by omega)]
  · rw [he, unitEscape, List.cons_append, List.cons_append]
    exact readString?_backslash (readEscape?_unit hunit rest) fuel taken
  · rw [he, List.append_assoc, unitEscape, List.cons_append, List.cons_append]
    exact readString?_backslash (readEscape?_pair hoffset rest) fuel taken

theorem escapeChar_ne_nil (c : Char) : escapeChar c ≠ [] := by
  obtain ⟨letter, -, he⟩ | ⟨-, -, -, -, he⟩ | ⟨-, he⟩ | ⟨offset, -, he⟩ := escapeChar_cases c
  all_goals
    rw [he]
    exact List.cons_ne_nil _ _

/-! ### Texts -/

theorem length_le_length_escaped (cs : List Char) :
    cs.length ≤ (cs.flatMap escapeChar).length := by
  induction cs with
  | nil => exact Nat.le_refl 0
  | cons c cs ih =>
    have hpos := List.length_pos_of_ne_nil (escapeChar_ne_nil c)
    rw [List.flatMap_cons, List.length_append, List.length_cons]
    omega

theorem readString?_flatMap (cs : List Char) {fuel : ℕ} (hfuel : cs.length < fuel)
    (taken rest : List Char) : readString? fuel taken (cs.flatMap escapeChar ++ '"' :: rest) =
      some (String.ofList (taken.reverse ++ cs), rest) := by
  induction cs generalizing fuel taken with
  | nil =>
    obtain ⟨fuel, rfl⟩ := Nat.exists_eq_add_one_of_ne_zero (Nat.ne_zero_of_lt hfuel)
    simp [readString?]
  | cons c cs ih =>
    obtain ⟨fuel, rfl⟩ := Nat.exists_eq_add_one_of_ne_zero (Nat.ne_zero_of_lt hfuel)
    rw [List.flatMap_cons, List.append_assoc, readString?_escapeChar,
      ih (by simpa using hfuel), List.reverse_cons, List.append_assoc, List.singleton_append]

/-- A text between its quotes is read as it was written. -/
theorem exists_writeString (s : String) (rest : List Char) : ∃ body,
    writeString s ++ rest = '"' :: body ∧
      readString? (body.length + 1) [] body = some (s, rest) := by
  refine ⟨s.toList.flatMap escapeChar ++ '"' :: rest, by simp [writeString], ?_⟩
  have hlength := length_le_length_escaped s.toList
  rw [readString?_flatMap _ (by rw [List.length_append]; omega)]
  simp

example : writeString "a\u00e9\n😀" = "\"a\\u00e9\\n\\ud83d\\ude00\"".toList := by decide

end RoleMining.Json
