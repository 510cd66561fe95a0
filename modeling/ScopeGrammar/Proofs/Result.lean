set_option autoImplicit false

namespace ScopeGrammar

variable {ε α β γ δ : Type}

theorem bind_eq_ok {x : Except ε α} {f : α → Except ε β} {b : β} :
    (x >>= f) = .ok b ↔ ∃ a, x = .ok a ∧ f a = .ok b := by
  cases x <;> simp [bind, Except.bind]

theorem map_eq_ok {x : Except ε α} {f : α → β} {b : β} :
    x.map f = .ok b ↔ ∃ a, x = .ok a ∧ f a = b := by
  cases x <;> simp [Except.map]

theorem toOption_eq_some {x : Except ε α} {a : α} : x.toOption = some a ↔ x = .ok a := by
  cases x <;> simp [Except.toOption]

theorem toOption_bind (x : Except ε α) (f : α → Except ε β) :
    (x >>= f).toOption = x.toOption.bind fun a => (f a).toOption := by
  cases x <;> rfl

theorem map_bind_eq {x y : Except ε α} {f g : α → Except ε β} (view : α → γ) (view' : β → δ)
    (same : x.map view = y.map view)
    (later : ∀ a b, view a = view b → (f a).map view' = (g b).map view') :
    (x >>= f).map view' = (y >>= g).map view' := by
  cases x with
  | error e =>
    cases y with
    | error e' =>
      cases same
      rfl
    | ok b => cases same
  | ok a =>
    cases y with
    | error e' => cases same
    | ok b => exact later a b (Except.ok.inj same)

theorem map_bind_congr (x : Except ε α) {f g : α → Except ε β} (view : β → δ)
    (later : ∀ a, (f a).map view = (g a).map view) : (x >>= f).map view = (x >>= g).map view := by
  cases x with
  | error e => rfl
  | ok a => exact later a

end ScopeGrammar
