import RoleMining.Proofs.Json.Strings

/-!
# Written values are plain text

Whatever a value holds, its text has no characters but the printable ones of ASCII and line breaks,
so it is the same in every encoding that a file may have.
-/
namespace RoleMining.Json

/-- A line break or a printable character of ASCII. -/
def IsPlain (c : Char) : Prop := c = '\n' ∨ 0x20 ≤ c.toNat ∧ c.toNat ≤ 0x7e

instance (c : Char) : Decidable (IsPlain c) := inferInstanceAs (Decidable (_ ∨ _))

def AllPlain (cs : List Char) : Prop := ∀ c ∈ cs, IsPlain c

instance (cs : List Char) : Decidable (AllPlain cs) := List.decidableBAll IsPlain cs

variable {cs cs' : List Char} {c : Char}

@[simp] theorem allPlain_append : AllPlain (cs ++ cs') ↔ AllPlain cs ∧ AllPlain cs' :=
  List.forall_mem_append

@[simp] theorem allPlain_cons : AllPlain (c :: cs) ↔ IsPlain c ∧ AllPlain cs :=
  List.forall_mem_cons

@[simp] theorem allPlain_nil : AllPlain [] := fun _ hc => nomatch hc

theorem allPlain_replicate (hc : IsPlain c) (k : ℕ) : AllPlain (List.replicate k c) :=
  fun _ hd => List.eq_of_mem_replicate hd ▸ hc

theorem AllPlain.of_subset (h : AllPlain cs) (hsubset : cs' ⊆ cs) : AllPlain cs' :=
  fun c hc => h c (hsubset hc)

/-! ### Scalars -/

theorem allPlain_toDigits {base : ℕ} (hlow : 1 < base) (hhigh : base ≤ 16) (n : ℕ) :
    AllPlain (Nat.toDigits base n) := by
  have hdigit : ∀ d < 16, IsPlain d.digitChar := by decide
  induction n using Nat.strongRecOn with
  | ind n ih =>
    rw [Nat.toDigits_eq_if hlow]
    split_ifs with hlt
    · exact allPlain_cons.2 ⟨hdigit n (by omega), allPlain_nil⟩
    · have hpos : 0 < n := by omega
      have hmod : n % base < base := Nat.mod_lt n (by omega)
      exact allPlain_append.2 ⟨ih (n / base) (Nat.div_lt_self hpos hlow),
        allPlain_cons.2 ⟨hdigit _ (by omega), allPlain_nil⟩⟩

theorem allPlain_decimal (n : Int) : AllPlain (Text.decimal n) := by
  have hdigits : AllPlain (Nat.toDigits 10 n.natAbs) :=
    allPlain_toDigits (by decide) (by decide) n.natAbs
  unfold Text.decimal
  split_ifs
  · exact allPlain_cons.2 ⟨by decide, hdigits⟩
  · exact hdigits

theorem allPlain_layout (hcs : AllPlain cs) (leading : Int) :
    AllPlain (Binary64.layout cs leading) := by
  have hzeros := allPlain_replicate (c := '0') (by decide)
  have htake (k : ℕ) : AllPlain (cs.take k) := hcs.of_subset (List.take_subset k cs)
  have hdrop (k : ℕ) : AllPlain (cs.drop k) := hcs.of_subset (List.drop_subset k cs)
  have hsize : AllPlain (Nat.toDigits 10 leading.natAbs) :=
    allPlain_toDigits (by decide) (by decide) leading.natAbs
  have hmark : IsPlain '.' ∧ IsPlain '0' ∧ IsPlain 'e' ∧ IsPlain '-' ∧ IsPlain '+' := by decide
  unfold Binary64.layout
  dsimp only
  split_ifs <;> simp only [allPlain_append, allPlain_cons, allPlain_nil, hcs, hzeros, htake, hdrop,
    hsize, hmark, and_self]

theorem allPlain_writeFloat (x : Binary64) : AllPlain (writeFloat x) := by
  cases x with
  | nan => decide
  | infinite negative => cases negative <;> decide
  | finite negative m e normal =>
    have hsign : AllPlain (if negative then ['-'] else []) := by cases negative <;> decide
    change AllPlain (Binary64.toText (.finite negative m e normal)).toList
    unfold Binary64.toText
    dsimp only
    split
    · rw [String.toList_ofList]
      exact allPlain_append.2 ⟨hsign, by decide⟩
    · rw [String.toList_ofList]
      have hdigits (k : ℕ) : AllPlain (Nat.toDigits 10 k) :=
        allPlain_toDigits (by decide) (by decide) k
      exact allPlain_append.2 ⟨hsign, allPlain_layout (hdigits _) _⟩

theorem allPlain_unitEscape (unit : ℕ) : AllPlain (unitEscape unit) := by
  have hmark : IsPlain '\\' ∧ IsPlain 'u' := by decide
  rw [unitEscape, Text.hexadecimal, String.toList_ofList]
  simp only [allPlain_cons, allPlain_append, hmark, true_and]
  exact ⟨allPlain_replicate (by decide) _, allPlain_toDigits (by decide) (by decide) unit⟩

theorem allPlain_escapeChar (c : Char) : AllPlain (escapeChar c) := by
  have hshort : ∀ escape ∈ shortEscapes, AllPlain ['\\', escape.2] := by decide
  obtain ⟨letter, hletter, he⟩ | ⟨-, -, hlow, hhigh, he⟩ | ⟨-, he⟩ | ⟨offset, -, he⟩ :=
    escapeChar_cases c
  · exact he ▸ hshort (c, letter) hletter
  · exact he ▸ allPlain_cons.2 ⟨.inr ⟨hlow, hhigh⟩, allPlain_nil⟩
  · exact he ▸ allPlain_unitEscape _
  · exact he ▸ allPlain_append.2 ⟨allPlain_unitEscape _, allPlain_unitEscape _⟩

theorem allPlain_writeString (s : String) : AllPlain (writeString s) := by
  have hquote : AllPlain ['"'] := by decide
  refine allPlain_cons.2 ⟨by decide, allPlain_append.2 ⟨fun c hc => ?_, hquote⟩⟩
  obtain ⟨d, -, hd⟩ := List.mem_flatMap.1 hc
  exact allPlain_escapeChar d c hd

/-! ### Values -/

variable {layout : Layout} {depth : ℕ}

theorem allPlain_newline : AllPlain (layout.newline depth) := by
  cases layout with
  | indented => exact allPlain_cons.2 ⟨.inl rfl, allPlain_replicate (by decide) _⟩
  | compact => exact allPlain_nil

theorem allPlain_comma : AllPlain (layout.comma depth) := by
  cases layout with
  | indented => exact allPlain_cons.2 ⟨by decide, allPlain_newline⟩
  | compact => exact (by decide : AllPlain [',', ' '])

mutual

theorem allPlain_write (layout : Layout) : ∀ (depth : ℕ) (value : Json),
    AllPlain (write layout depth value)
  | _, .null => (by decide : AllPlain "null".toList)
  | _, .bool true => (by decide : AllPlain "true".toList)
  | _, .bool false => (by decide : AllPlain "false".toList)
  | _, .int n => allPlain_decimal n
  | _, .float x => allPlain_writeFloat x
  | _, .str s => allPlain_writeString s
  | _, .list [] => (by decide : AllPlain ['[', ']'])
  | depth, .list (item :: items) => by
    have hbrackets : IsPlain '[' ∧ IsPlain ']' := by decide
    simp only [write, allPlain_cons, allPlain_append, allPlain_nil, allPlain_newline,
      allPlain_write layout (depth + 1) item, allPlain_writeItems layout (depth + 1) items,
      hbrackets, and_self]
  | _, .object [] => (by decide : AllPlain ['\x7b', '\x7d'])
  | depth, .object ((name, value) :: fields) => by
    have hbraces : IsPlain '\x7b' ∧ IsPlain '\x7d' ∧ IsPlain ':' ∧ IsPlain ' ' := by decide
    simp only [write, allPlain_cons, allPlain_append, allPlain_nil, allPlain_newline,
      allPlain_writeString, allPlain_write layout (depth + 1) value,
      allPlain_writeFields layout (depth + 1) fields, hbraces, and_self]

theorem allPlain_writeItems (layout : Layout) : ∀ (depth : ℕ) (items : List Json),
    AllPlain (writeItems layout depth items)
  | _, [] => allPlain_nil
  | depth, item :: items => by
    simp only [writeItems, allPlain_append, allPlain_comma, allPlain_write layout depth item,
      allPlain_writeItems layout depth items, and_self]

theorem allPlain_writeFields (layout : Layout) : ∀ (depth : ℕ) (fields : List (String × Json)),
    AllPlain (writeFields layout depth fields)
  | _, [] => allPlain_nil
  | depth, (name, value) :: fields => by
    have hcolon : IsPlain ':' ∧ IsPlain ' ' := by decide
    simp only [writeFields, allPlain_append, allPlain_cons, allPlain_comma, allPlain_writeString,
      allPlain_write layout depth value, allPlain_writeFields layout depth fields, hcolon, and_self]

end

theorem allPlain_render (value : Json) (layout : Layout) :
    AllPlain (value.render layout).toList := by
  rw [render, String.toList_ofList]
  exact allPlain_write layout 0 value

end RoleMining.Json
