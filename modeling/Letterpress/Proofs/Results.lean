/-!
# Results of steps that may fail

A step behind another one is taken from the result of the first. A result stays where a failure
may become another one.
-/

namespace Letterpress

variable {ε ε' α β γ δ : Type}

@[simp] theorem ok_bind (a : α) (f : α → Except ε β) : (Except.ok a >>= f) = f a :=
  rfl

theorem bind_eq_ok {x : Except ε α} {f : α → Except ε β} {b : β} :
    x >>= f = .ok b ↔ ∃ a, x = .ok a ∧ f a = .ok b := by
  cases x with
  | error e => exact ⟨(nomatch ·), fun ⟨_, h, _⟩ => nomatch h⟩
  | ok a => simp

theorem bind_eq_error {x : Except ε α} {f : α → Except ε β} {e : ε} :
    x >>= f = .error e ↔ x = .error e ∨ ∃ a, x = .ok a ∧ f a = .error e := by
  cases x with
  | error e' =>
    exact ⟨fun h => .inl (congrArg Except.error (Except.error.inj h)),
      fun h => h.elim (fun h => congrArg Except.error (Except.error.inj h)) fun ⟨_, h, _⟩ => nomatch h⟩
  | ok a => simp

theorem exists_of_isOk {x : Except ε α} (h : x.isOk) : ∃ a, x = .ok a := by
  cases x with
  | error e => cases h
  | ok a => exact ⟨a, rfl⟩

theorem exists_eq_ok {x : Except ε α} : (∃ a, x = .ok a) ↔ x.isOk := by
  cases x with
  | error e => exact iff_of_false (nomatch ·) (nomatch ·)
  | ok a => exact iff_of_true ⟨a, rfl⟩ rfl

/-- Two steps succeed if both do, as far as the second one does not hang on the first. -/
theorem isOk_bind {x : Except ε α} {f : α → Except ε β} {b : Bool} (h : ∀ a, (f a).isOk = b) :
    (x >>= f).isOk = (x.isOk && b) := by
  cases x with
  | error e => rfl
  | ok a => exact h a

theorem map_eq_ok {x : Except ε α} {f : α → β} {b : β} :
    x.map f = .ok b ↔ ∃ a, x = .ok a ∧ f a = b := by
  cases x with
  | error e => exact ⟨(nomatch ·), fun ⟨_, h, _⟩ => nomatch h⟩
  | ok a => simp [Except.map]

theorem map_eq_error {x : Except ε α} {f : α → β} {e : ε} : x.map f = .error e ↔ x = .error e := by
  cases x with
  | error e' => simp [Except.map]
  | ok a => exact ⟨(nomatch ·), (nomatch ·)⟩

theorem mapError_eq_ok {f : ε → ε'} {x : Except ε α} {a : α} :
    x.mapError f = .ok a ↔ x = .ok a := by
  cases x with
  | error e => exact ⟨(nomatch ·), (nomatch ·)⟩
  | ok b =>
    exact ⟨fun h => congrArg Except.ok (Except.ok.inj h),
      fun h => congrArg Except.ok (Except.ok.inj h)⟩

theorem bind_congr_ok {x : Except ε α} {f g : α → Except ε β}
    (h : ∀ a, x = .ok a → f a = g a) : x >>= f = x >>= g := by
  cases x with
  | error e => rfl
  | ok a => exact h a rfl

theorem map_bind_congr {x x' : Except ε α} {f f' : α → Except ε β} {g : α → γ}
    {k : β → δ} (hx : x.map g = x'.map g)
    (hf : ∀ a a', g a = g a' → (f a).map k = (f' a').map k) :
    (x >>= f).map k = (x' >>= f').map k := by
  cases x with
  | error e =>
    cases x' with
    | error e' => exact congrArg Except.error (Except.error.inj hx)
    | ok a' => cases hx
  | ok a =>
    cases x' with
    | error e' => cases hx
    | ok a' => exact hf a a' (Except.ok.inj hx)

/-- What is read stays; a failure may become another one. -/
def Stays (x y : Except ε α) : Prop := ∀ a, x = .ok a → y = .ok a

theorem Stays.refl (x : Except ε α) : Stays x x := fun _ h => h

theorem Stays.bind {x y : Except ε α} {f g : α → Except ε β} (h : Stays x y)
    (hf : ∀ a, Stays (f a) (g a)) : Stays (x >>= f) (y >>= g) := by
  intro b hb
  obtain ⟨a, ha, hb⟩ := bind_eq_ok.mp hb
  exact bind_eq_ok.mpr ⟨a, h a ha, hf a b hb⟩

theorem Stays.map {x y : Except ε α} (h : Stays x y) (f : α → β) : Stays (x.map f) (y.map f) := by
  intro b hb
  obtain ⟨a, ha, rfl⟩ := map_eq_ok.mp hb
  exact map_eq_ok.mpr ⟨a, h a ha, rfl⟩

end Letterpress
