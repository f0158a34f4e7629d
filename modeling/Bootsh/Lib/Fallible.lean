import Mathlib.Tactic.Common

/-!
Computations that may stop early.
-/
namespace Fallible

variable {ε α β σ : Type*}

theorem bind_eq_ok {x : Except ε α} {f : α → Except ε β} {b : β} :
    x.bind f = .ok b ↔ ∃ a, x = .ok a ∧ f a = .ok b := by
  cases x <;> simp [Except.bind]

/-- Which errors a sequence of two computations can stop with. -/
theorem map_eq_ok {x : Except ε α} {f : α → β} {b : β} :
    x.map f = .ok b ↔ ∃ a, x = .ok a ∧ f a = b := by
  cases x with
  | error e => simp [Except.map]
  | ok a => simp [Except.map]

theorem bind_eq_error {x : Except ε α} {f : α → Except ε β} {e : ε} :
    x.bind f = .error e ↔ x = .error e ∨ ∃ a, x = .ok a ∧ f a = .error e := by
  cases x <;> simp [Except.bind]

/-- A step that may stop, taken for each element of a list. -/
def each (step : α → σ → Except ε σ) : List α → σ → Except ε σ
  | [], s => .ok s
  | a :: as, s => (step a s).bind (each step as)

variable {step : α → σ → Except ε σ}

theorem each_append (as bs : List α) (s : σ) :
    each step (as ++ bs) s = (each step as s).bind (each step bs) := by
  induction as generalizing s with
  | nil => rfl
  | cons a as ih =>
    cases h : step a s with
    | error e => simp [each, h, Except.bind]
    | ok s' => simp [each, h, Except.bind, ih]

theorem each_preserves {P : σ → Prop} {as : List α} {s s' : σ}
    (h : ∀ a ∈ as, ∀ s s', P s → step a s = .ok s' → P s') (hs : P s)
    (hrun : each step as s = .ok s') : P s' := by
  induction as generalizing s with
  | nil =>
    cases hrun
    exact hs
  | cons a as ih =>
    obtain ⟨s₁, h₁, hrest⟩ := bind_eq_ok.mp hrun
    exact ih (fun a ha => h a (List.mem_cons_of_mem _ ha)) (h a List.mem_cons_self s s₁ hs h₁) hrest

/-- A run that does not stop takes a step for each element. -/
theorem each_mem {as : List α} {a : α} {s s' : σ} (h : each step as s = .ok s') (ha : a ∈ as) :
    ∃ s₁ s₂, step a s₁ = .ok s₂ := by
  induction as generalizing s with
  | nil => cases ha
  | cons b as ih =>
    obtain ⟨s₁, hstep, hrest⟩ := bind_eq_ok.mp h
    rcases List.mem_cons.mp ha with rfl | ha
    · exact ⟨s, s₁, hstep⟩
    · exact ih hrest ha

/-- A run stops with the error of one of its steps, taken in a state in which what every step
preserves holds. -/
theorem each_eq_error {P : σ → Prop} {as : List α} {s : σ} {e : ε}
    (h : ∀ a ∈ as, ∀ s s', P s → step a s = .ok s' → P s') (hs : P s)
    (herr : each step as s = .error e) : ∃ a ∈ as, ∃ s₁, P s₁ ∧ step a s₁ = .error e := by
  induction as generalizing s with
  | nil => cases herr
  | cons a as ih =>
    rcases bind_eq_error.mp herr with herr | ⟨s₁, hstep, herr⟩
    · exact ⟨a, List.mem_cons_self, s, hs, herr⟩
    · obtain ⟨b, hb, s₂, hs₂, herr⟩ := ih (fun b hb => h b (List.mem_cons_of_mem _ hb))
        (h a List.mem_cons_self s s₁ hs hstep) herr
      exact ⟨b, List.mem_cons_of_mem _ hb, s₂, hs₂, herr⟩

/-- Every step is `ok` in the state before it. -/
def Along (step : α → σ → Except ε σ) (ok : α → σ → Prop) : List α → σ → Prop
  | [], _ => True
  | a :: as, s => ok a s ∧ ∀ s', step a s = .ok s' → Along step ok as s'

/-- What every step preserves gives another condition along the run. -/
theorem Along.of_invariant {ok ok' : α → σ → Prop} {P : σ → Prop}
    (h : ∀ a s s', P s → ok a s → step a s = .ok s' → P s')
    (hok : ∀ a s, P s → ok a s → ok' a s) {as : List α} {s : σ} (hs : P s)
    (has : Along step ok as s) : Along step ok' as s := by
  induction as generalizing s with
  | nil => trivial
  | cons a as ih => exact ⟨hok a s hs has.1, fun s' h' => ih (h a s s' hs has.1 h') (has.2 s' h')⟩

theorem Along.append {ok : α → σ → Prop} {as bs : List α} {s : σ} (h : Along step ok as s)
    (h' : ∀ s', each step as s = .ok s' → Along step ok bs s') : Along step ok (as ++ bs) s := by
  induction as generalizing s with
  | nil => exact h' s rfl
  | cons a as ih =>
    refine ⟨h.1, fun s₁ h₁ => ih (h.2 s₁ h₁) fun s' hs' => h' s' ?_⟩
    rw [each, h₁]
    exact hs'

/-- What a computation gives if it does not stop. -/
def Yields (P : α → Prop) (r : Except ε α) : Prop := ∀ a, r = .ok a → P a

namespace Yields

variable {γ δ : Type} {P Q : γ → Prop} {R : δ → Prop} {x : Except ε γ} {f : γ → Except ε δ}

theorem ok {a : γ} (h : P a) : Yields P (.ok a : Except ε γ) := by
  intro b hb
  cases hb
  exact h

theorem error {e : ε} : Yields P (.error e : Except ε γ) := fun _ h => by cases h

theorem bind (hx : Yields P x) (hf : ∀ a, P a → Yields R (f a)) : Yields R (x >>= f) := by
  intro d hd
  obtain ⟨a, ha, hfa⟩ := bind_eq_ok.mp hd
  exact hf a (hx a ha) d hfa

theorem mono (hx : Yields P x) (h : ∀ a, P a → Q a) : Yields Q x := fun a ha => h a (hx a ha)

theorem mapError {ε' : Type*} {g : ε → ε'} (hx : Yields P x) : Yields P (x.mapError g) := by
  intro a ha
  cases x with
  | error e => cases ha
  | ok c =>
    cases ha
    exact hx a rfl

theorem any : Yields (fun _ => True) x := fun _ _ => trivial

theorem foldlM {ζ : Type} {g : γ → ζ → Except ε γ} {as : List ζ} {c : γ}
    (h : ∀ a c, P c → Yields P (g c a)) (hc : P c) : Yields P (as.foldlM g c) := by
  induction as generalizing c with
  | nil => exact .ok hc
  | cons a as ih => exact (h a c hc).bind fun c' hc' => ih hc'

end Yields

/-- A computation gives what `P` says, or stops with an error of the kind `E`. -/
def Gives (E : ε → Prop) (P : α → Prop) : Except ε α → Prop
  | .ok a => P a
  | .error e => E e

namespace Gives

variable {E : ε → Prop}

theorem bind {P : α → Prop} {Q : β → Prop} {x : Except ε α} {f : α → Except ε β}
    (hx : Gives E P x) (hf : ∀ a, P a → Gives E Q (f a)) : Gives E Q (x.bind f) := by
  cases x with
  | error e => exact hx
  | ok a => exact hf a hx

theorem mono {P Q : α → Prop} {x : Except ε α} (hx : Gives E P x) (h : ∀ a, P a → Q a) :
    Gives E Q x := by
  cases x with
  | error e => exact hx
  | ok a => exact h a hx

end Gives

end Fallible
