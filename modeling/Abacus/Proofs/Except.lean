import Abacus.Fault
import Mathlib.Control.Monad.Basic

/-!
# Computations that may fail

How such a computation is taken apart, and what it means that two of them go alike.
-/

namespace Abacus

/-!
## Results of steps

What is known of the steps of a computation that may fail when something is known of its result.
-/

section

variable {ε ε' α β : Type}

theorem bind_eq_ok_iff {x : Except ε α} {f : α → Except ε β} {b : β} :
    x >>= f = .ok b ↔ ∃ a, x = .ok a ∧ f a = .ok b := by
  cases x with
  | error e => exact ⟨nofun, fun ⟨_, h, _⟩ ↦ nomatch h⟩
  | ok a => exact ⟨fun h ↦ ⟨a, rfl, h⟩, fun ⟨_, ha, h⟩ ↦ by cases ha; exact h⟩

theorem bind_eq_error_iff {x : Except ε α} {f : α → Except ε β} {e : ε} :
    x >>= f = .error e ↔ x = .error e ∨ ∃ a, x = .ok a ∧ f a = .error e := by
  cases x with
  | error e' =>
    refine ⟨fun h ↦ .inl (by cases h; rfl), ?_⟩
    rintro (h | ⟨_, h, _⟩)
    · cases h
      rfl
    · cases h
  | ok a =>
    refine ⟨fun h ↦ .inr ⟨a, rfl, h⟩, ?_⟩
    rintro (h | ⟨_, ha, h⟩)
    · cases h
    · cases ha
      exact h

theorem ite_eq_ok_iff {p : Prop} [Decidable p] {a b : α} {e : ε} :
    (if p then .ok a else .error e : Except ε α) = .ok b ↔ p ∧ a = b := by
  by_cases hp : p
  · rw [if_pos hp, Except.ok.injEq, and_iff_right hp]
  · rw [if_neg hp]
    exact ⟨nofun, fun h ↦ absurd h.1 hp⟩

theorem ite_eq_error_iff {p : Prop} [Decidable p] {a : α} {e e' : ε} :
    (if p then .ok a else .error e : Except ε α) = .error e' ↔ ¬p ∧ e = e' := by
  by_cases hp : p
  · rw [if_pos hp]
    exact ⟨nofun, fun h ↦ absurd hp h.1⟩
  · rw [if_neg hp, Except.error.injEq, and_iff_right hp]

@[simp] theorem ok_bind (a : α) (f : α → Except ε β) : (Except.ok a >>= f) = f a := rfl

theorem map_eq_ok_iff {x : Except ε α} {f : α → β} {b : β} :
    x.map f = .ok b ↔ ∃ a, x = .ok a ∧ f a = b := by
  cases x with
  | error e => exact ⟨nofun, nofun⟩
  | ok a => exact ⟨fun h ↦ ⟨a, rfl, by cases h; rfl⟩, fun ⟨_, ha, h⟩ ↦ by cases ha; cases h; rfl⟩

theorem mapError_eq_error_iff {x : Except ε α} {f : ε → ε'} {e : ε'} :
    x.mapError f = .error e ↔ ∃ e', x = .error e' ∧ f e' = e := by
  cases x with
  | error e' =>
    refine ⟨fun h ↦ ⟨e', rfl, by cases h; rfl⟩, ?_⟩
    rintro ⟨_, h, rfl⟩
    cases h
    rfl
  | ok a => exact ⟨nofun, nofun⟩

theorem mapError_bind (x : Except ε α) (f : α → Except ε β) (g : ε → ε') :
    (x >>= f).mapError g = x.mapError g >>= fun a ↦ (f a).mapError g := by
  cases x with
  | error | ok => rfl

/-! ### Results without their errors -/

@[simp] theorem toOption_bind (x : Except ε α) (f : α → Except ε β) :
    (x >>= f).toOption = x.toOption.bind fun a ↦ (f a).toOption := by
  cases x with
  | error | ok => rfl

@[simp] theorem toOption_mapError (x : Except ε α) (f : ε → ε') :
    (x.mapError f).toOption = x.toOption := by
  cases x with
  | error | ok => rfl

theorem toOption_eq_some_iff {x : Except ε α} {a : α} : x.toOption = some a ↔ x = .ok a := by
  cases x with
  | error e => exact ⟨nofun, nofun⟩
  | ok b => exact ⟨fun h ↦ by cases h; rfl, fun h ↦ by cases h; rfl⟩

end

/-!
## Results that are alike

Two runs are compared step by step: their results are both values or both errors, in one relation or
another, and what is done with related values gives related results. Errors are compared by their
reports, whose offsets and wordings may differ.
-/

section

/-- Reports of the same kind about the same text. -/
structure Fault.Alike (f f' : Fault) : Prop where
  kind : f.kind = f'.kind
  text : f.text = f'.text

theorem Fault.Alike.trans {f f' f'' : Fault} (h : f.Alike f') (h' : f'.Alike f'') : f.Alike f'' :=
  ⟨h.kind.trans h'.kind, h.text.trans h'.text⟩

theorem optionRel_cases {α β : Type} {r : α → β → Prop} {a : Option α} {b : Option β}
    (h : Option.Rel r a b) :
    (a = none ∧ b = none) ∨ ∃ x y, a = some x ∧ b = some y ∧ r x y := by
  cases h with
  | none => exact .inl ⟨rfl, rfl⟩
  | some h => exact .inr ⟨_, _, rfl, rfl, h⟩

/-! ### Results of steps -/

variable {ε ε' α α' β β' : Type} {re : ε → ε' → Prop} {ra : α → α' → Prop}
  {rb : β → β' → Prop}

/-- Two results that are both errors in one relation, or both values in another. -/
inductive Matches (re : ε → ε' → Prop) (ra : α → α' → Prop) : Except ε α → Except ε' α' → Prop where
  | error {e : ε} {e' : ε'} (h : re e e') : Matches re ra (.error e) (.error e')
  | ok {a : α} {a' : α'} (h : ra a a') : Matches re ra (.ok a) (.ok a')

namespace Matches

theorem bind {x : Except ε α} {x' : Except ε' α'} {f : α → Except ε β} {f' : α' → Except ε' β'}
    (h : Matches re ra x x') (hf : ∀ a a', ra a a' → Matches re rb (f a) (f' a')) :
    Matches re rb (x >>= f) (x' >>= f') := by
  cases h with
  | error h => exact .error h
  | ok h => exact hf _ _ h

theorem trans {re : ε → ε → Prop} {ra : α → α → Prop}
    (he : ∀ e e' e'', re e e' → re e' e'' → re e e'')
    (ha : ∀ a a' a'', ra a a' → ra a' a'' → ra a a'') {x x' x'' : Except ε α}
    (h : Matches re ra x x') (h' : Matches re ra x' x'') : Matches re ra x x'' := by
  cases h with
  | error h =>
    cases h' with
    | error h' => exact .error (he _ _ _ h h')
  | ok h =>
    cases h' with
    | ok h' => exact .ok (ha _ _ _ h h')

end Matches

end

end Abacus
