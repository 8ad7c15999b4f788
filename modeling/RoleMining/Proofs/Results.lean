import Mathlib.Data.List.Forall2

/-!
# Lists of results

Taking every step of a list succeeds when each step does, and then gives the answers in the order of
the steps; otherwise the failure is that of one of the steps.
-/
namespace RoleMining

variable {α β ε : Type}

/-- Whether a result is the empty list needs no equality of failures. -/
instance decidableEqOkNil (result : Except ε (List α)) : Decidable (result = .ok []) :=
  match result with
  | .ok [] => isTrue rfl
  | .ok (_ :: _) => isFalse (by simp)
  | .error _ => isFalse (by simp)

theorem bind_eq_ok_iff {x : Except ε α} {f : α → Except ε β} {y : β} :
    x >>= f = .ok y ↔ ∃ a, x = .ok a ∧ f a = .ok y := by
  cases x <;> simp [bind, Except.bind]

/-- Where a second step never fails, the first one did. -/
theorem eq_error_of_bind {x : Except ε α} {f : α → Except ε β} {e : ε}
    (hf : ∀ a, ∃ b, f a = .ok b) (h : x >>= f = .error e) : x = .error e := by
  cases x with
  | ok a =>
    obtain ⟨b, hb⟩ := hf a
    cases hb.symm.trans h
  | error e' => exact congrArg Except.error (Except.error.inj h)

/-- A trait of the answer, where it can be read at all, is that of an answer. -/
theorem exists_ok_of_toOption_map {x : Except ε α} {f : α → β} {y : β}
    (h : x.toOption.map f = some y) : ∃ a, x = .ok a ∧ f a = y := by
  cases x with
  | error e => cases h
  | ok a => exact ⟨a, rfl, Option.some_inj.1 h⟩

theorem mapM_eq_ok_iff {f : α → Except ε β} {xs : List α} {ys : List β} :
    xs.mapM f = .ok ys ↔ List.Forall₂ (fun x y => f x = .ok y) xs ys := by
  induction xs generalizing ys with
  | nil => cases ys <;> simp [pure, Except.pure]
  | cons x xs ih =>
    rw [List.mapM_cons]
    cases hx : f x with
    | error e => cases ys <;> simp [bind, Except.bind, hx]
    | ok y =>
      cases hxs : xs.mapM f with
      | error e => cases ys <;> simp [bind, Except.bind, hx, ← ih, hxs]
      | ok ys' => cases ys <;> simp [bind, Except.bind, pure, Except.pure, hx, ← ih, hxs]

theorem mem_of_mapM_eq_ok {f : α → Except ε β} {xs : List α} {ys : List β}
    (h : xs.mapM f = .ok ys) {y : β} : y ∈ ys ↔ ∃ x ∈ xs, f x = .ok y := by
  have hall := mapM_eq_ok_iff.1 h
  clear h
  induction hall with
  | nil => simp
  | cons hx _ ih => simp [ih, hx, eq_comm]

theorem exists_of_mem_of_mapM_eq_ok {f : α → Except ε β} {xs : List α} {ys : List β}
    (h : xs.mapM f = .ok ys) {x : α} (hx : x ∈ xs) : ∃ y ∈ ys, f x = .ok y := by
  have hall := mapM_eq_ok_iff.1 h
  clear h
  induction hall with
  | nil => cases hx
  | cons hy _ ih =>
    rcases List.mem_cons.1 hx with rfl | hx
    · exact ⟨_, List.mem_cons_self, hy⟩
    · obtain ⟨y, hmem, hy⟩ := ih hx
      exact ⟨y, List.mem_cons_of_mem _ hmem, hy⟩

/-- A trait of the answers that each step fixes comes in the order of the steps. -/
theorem map_eq_of_mapM_eq_ok {γ : Type} {f : α → Except ε β} {trait : β → γ} {fixed : α → γ}
    (hf : ∀ x y, f x = .ok y → trait y = fixed x) {xs : List α} {ys : List β}
    (h : xs.mapM f = .ok ys) : ys.map trait = xs.map fixed := by
  have hall := mapM_eq_ok_iff.1 h
  clear h
  induction hall with
  | nil => rfl
  | cons hy _ ih => rw [List.map_cons, List.map_cons, hf _ _ hy, ih]

theorem exists_of_mapM_eq_error {f : α → Except ε β} {xs : List α} {e : ε}
    (h : xs.mapM f = .error e) : ∃ x ∈ xs, f x = .error e := by
  induction xs with
  | nil => cases h
  | cons x xs ih =>
    rw [List.mapM_cons] at h
    cases hx : f x with
    | error e' =>
      simp only [bind, Except.bind, hx, Except.error.injEq] at h
      exact ⟨x, List.mem_cons_self, h ▸ hx⟩
    | ok y =>
      cases hxs : xs.mapM f with
      | error e' =>
        simp only [bind, Except.bind, hx, hxs, Except.error.injEq] at h
        obtain ⟨x', hx', he⟩ := ih (h ▸ hxs)
        exact ⟨x', List.mem_cons_of_mem _ hx', he⟩
      | ok ys => simp [bind, Except.bind, pure, Except.pure, hx, hxs] at h

/-- All steps succeed when each of them does. -/
theorem exists_mapM_eq_ok {f : α → Except ε β} {xs : List α} (h : ∀ x ∈ xs, ∃ y, f x = .ok y) :
    ∃ ys, xs.mapM f = .ok ys := by
  cases hxs : xs.mapM f with
  | ok ys => exact ⟨ys, rfl⟩
  | error e =>
    obtain ⟨x, hx, he⟩ := exists_of_mapM_eq_error hxs
    obtain ⟨y, hy⟩ := h x hx
    rw [hy] at he
    cases he

theorem mapM_eq_ok_map {f : α → Except ε β} {g : α → β} {xs : List α}
    (h : ∀ x ∈ xs, f x = .ok (g x)) : xs.mapM f = .ok (xs.map g) := by
  rw [mapM_eq_ok_iff, List.forall₂_map_right_iff, List.forall₂_same]
  exact h

theorem mapM_congr {f g : α → Except ε β} {xs : List α} (h : ∀ x ∈ xs, f x = g x) :
    xs.mapM f = xs.mapM g := by
  induction xs with
  | nil => rfl
  | cons x xs ih =>
    rw [List.mapM_cons, List.mapM_cons, h x List.mem_cons_self,
      ih fun y hy => h y (List.mem_cons_of_mem x hy)]

/-- Where a step fails and all that fail do so alike, the list does. -/
theorem mapM_eq_error {f : α → Except ε β} {xs : List α} {e : ε} {x : α} (hx : x ∈ xs)
    (hfails : f x = .error e) (halike : ∀ y ∈ xs, ∀ e', f y = .error e' → e' = e) :
    xs.mapM f = .error e := by
  cases h : xs.mapM f with
  | ok ys =>
    obtain ⟨y, -, hy⟩ := exists_of_mem_of_mapM_eq_ok h hx
    cases hfails.symm.trans hy
  | error e' =>
    obtain ⟨y, hy, he⟩ := exists_of_mapM_eq_error h
    rw [halike y hy e' he]

theorem filterM_eq_ok {keep : α → Except ε Bool} {kept : α → Bool} {xs : List α}
    (h : ∀ x ∈ xs, keep x = .ok (kept x)) : xs.filterM keep = .ok (xs.filter kept) := by
  have haux : ∀ acc, List.filterAuxM keep xs acc = .ok ((xs.filter kept).reverse ++ acc) := by
    induction xs with
    | nil => exact fun acc => rfl
    | cons x xs ih =>
      intro acc
      rw [List.filterAuxM, h x List.mem_cons_self]
      change List.filterAuxM keep xs (bif kept x then x :: acc else acc) = _
      rw [ih (fun y hy => h y (List.mem_cons_of_mem _ hy)), List.filter_cons]
      cases kept x <;> simp
  unfold List.filterM
  rw [haux]
  simp [bind, Except.bind, pure, Except.pure]

theorem exists_of_filterM_eq_error {keep : α → Except ε Bool} {xs : List α} {e : ε}
    (h : xs.filterM keep = .error e) : ∃ x ∈ xs, keep x = .error e := by
  have haux : ∀ acc, List.filterAuxM keep xs acc = .error e → ∃ x ∈ xs, keep x = .error e := by
    clear h
    induction xs with
    | nil => exact fun acc h => nomatch h
    | cons x xs ih =>
      intro acc h
      rw [List.filterAuxM] at h
      cases hx : keep x with
      | error e' =>
        rw [hx] at h
        exact ⟨x, List.mem_cons_self, hx.trans (congrArg Except.error (Except.error.inj h))⟩
      | ok kept =>
        rw [hx] at h
        obtain ⟨y, hy, hfails⟩ := ih _ h
        exact ⟨y, List.mem_cons_of_mem x hy, hfails⟩
  exact haux [] (eq_error_of_bind (fun _ => ⟨_, rfl⟩) h)

end RoleMining
