import Mathlib.Data.List.Forall2
import Mathlib.Data.Set.Finite.Basic
import Mathlib.Data.Fintype.Pigeonhole
import Mathlib.Logic.Relation
import Mathlib.Order.WellFounded
import Mathlib.Tactic.Common

/-!
Recursions that are computed with fuel, and that stop with the error `out` when it runs out.
-/
namespace Fuel

variable {ε α β : Type} {out : ε}

/-- The second result is the first one, if that has not run out of fuel. -/
def Below (out : ε) (r r' : Except ε α) : Prop := r = .error out ∨ r' = r

theorem Below.refl (r : Except ε α) : Below out r r := .inr rfl

theorem Below.bind {x x' : Except ε α} {f f' : α → Except ε β} (hx : Below out x x')
    (hf : ∀ a, Below out (f a) (f' a)) : Below out (x >>= f) (x' >>= f') := by
  rcases hx with rfl | rfl
  · exact .inl rfl
  · cases x' with
    | error e => exact .inr rfl
    | ok a => exact hf a

theorem Below.foldlM {f f' : β → α → Except ε β} (h : ∀ b a, Below out (f b a) (f' b a))
    (l : List α) (b : β) : Below out (l.foldlM f b) (l.foldlM f' b) := by
  induction l generalizing b with
  | nil => exact .refl _
  | cons a l ih =>
    rw [List.foldlM_cons, List.foldlM_cons]
    exact (h b a).bind ih

theorem Below.mapM {f f' : α → Except ε β} (h : ∀ a, Below out (f a) (f' a)) (l : List α) :
    Below out (l.mapM f) (l.mapM f') := by
  induction l with
  | nil => exact .refl _
  | cons a l ih =>
    rw [List.mapM_cons, List.mapM_cons]
    exact (h a).bind fun b => ih.bind fun bs => .refl _

/-- With enough fuel the computation ends, and more of it makes no difference. -/
def Ends (out : ε) (f : ℕ → Except ε α) : Prop :=
  ∃ k, f k ≠ .error out ∧ ∀ n, k ≤ n → f n = f k

theorem le_of_below {f : ℕ → Except ε α} (h : ∀ n, Below out (f n) (f (n + 1))) {k n : ℕ}
    (hk : f k ≠ .error out) (hle : k ≤ n) : f n = f k := by
  obtain ⟨d, rfl⟩ := Nat.exists_eq_add_of_le hle
  induction d with
  | zero => rfl
  | succ d ih =>
    have hprev := ih (Nat.le_add_right k d)
    rcases h (k + d) with hout | heq
    · exact absurd (hprev.symm.trans hout) hk
    · exact heq.trans hprev

theorem ends_iff {f : ℕ → Except ε α} (h : ∀ n, Below out (f n) (f (n + 1))) :
    Ends out f ↔ ∃ k, f k ≠ .error out :=
  ⟨fun ⟨k, hk, _⟩ => ⟨k, hk⟩, fun ⟨k, hk⟩ => ⟨k, hk, fun _ hle => le_of_below h hk hle⟩⟩

/-- The result is not that the fuel has run out, and it is as `P` says if it is no error. -/
def Finishes (out : ε) (P : α → Prop) : Except ε α → Prop
  | .ok a => P a
  | .error e => e ≠ out

namespace Finishes

variable {P : α → Prop} {Q : β → Prop}

theorem ne {r : Except ε α} (h : Finishes out P r) : r ≠ .error out := by
  rintro rfl
  exact h rfl

theorem mono {P' : α → Prop} {r : Except ε α} (hr : Finishes out P r) (h : ∀ a, P a → P' a) :
    Finishes out P' r := by
  cases r with
  | error e => exact hr
  | ok a => exact h a hr

theorem bind {x : Except ε α} {f : α → Except ε β} (hx : Finishes out P x)
    (hf : ∀ a, P a → Finishes out Q (f a)) : Finishes out Q (x >>= f) := by
  cases x with
  | error e => exact hx
  | ok a => exact hf a hx

theorem foldlM {f : β → α → Except ε β} {l : List α} {b : β}
    (h : ∀ b, Q b → ∀ a ∈ l, Finishes out Q (f b a)) (hb : Q b) :
    Finishes out Q (l.foldlM f b) := by
  induction l generalizing b with
  | nil => exact hb
  | cons a l ih =>
    rw [List.foldlM_cons]
    exact (h b hb a List.mem_cons_self).bind fun b' hb' =>
      ih (fun b hb c hc => h b hb c (List.mem_cons_of_mem _ hc)) hb'

/-- The values of a list are computed one by one. -/
theorem mapM {R : α → β → Prop} {f : α → Except ε β} {l : List α}
    (h : ∀ a ∈ l, Finishes out (R a) (f a)) : Finishes out (List.Forall₂ R l) (l.mapM f) := by
  induction l with
  | nil => exact .nil
  | cons a l ih =>
    rw [List.mapM_cons]
    exact (h a List.mem_cons_self).bind fun b hb =>
      (ih fun c hc => h c (List.mem_cons_of_mem _ hc)).bind fun bs hbs => .cons hb hbs

end Finishes

theorem mapM_error {f : α → Except ε β} {l : List α} {e : ε} (h : l.mapM f = .error e) :
    ∃ a ∈ l, f a = .error e := by
  induction l with
  | nil => cases h
  | cons a l ih =>
    rw [List.mapM_cons] at h
    cases ha : f a with
    | error e' =>
      rw [ha] at h
      cases h
      exact ⟨a, List.mem_cons_self, ha⟩
    | ok b =>
      rw [ha] at h
      cases hl : l.mapM f with
      | error e' =>
        rw [hl] at h
        cases h
        obtain ⟨c, hc, hf⟩ := ih hl
        exact ⟨c, List.mem_cons_of_mem _ hc, hf⟩
      | ok bs =>
        rw [hl] at h
        cases h

theorem mapM_ok {f : α → Except ε β} {l : List α} {bs : List β} (h : l.mapM f = .ok bs) :
    List.Forall₂ (fun a b => f a = .ok b) l bs := by
  induction l generalizing bs with
  | nil =>
    cases h
    exact .nil
  | cons a l ih =>
    rw [List.mapM_cons] at h
    cases ha : f a with
    | error e =>
      rw [ha] at h
      cases h
    | ok b =>
      rw [ha] at h
      cases hl : l.mapM f with
      | error e =>
        rw [hl] at h
        cases h
      | ok bs' =>
        rw [hl] at h
        cases h
        exact .cons ha (ih hl)

theorem forall₂_mem_right {R : α → β → Prop} {l : List α} {bs : List β} (h : List.Forall₂ R l bs)
    {b : β} (hb : b ∈ bs) : ∃ a ∈ l, R a b := by
  induction h with
  | nil => cases hb
  | cons hab _ ih =>
    rcases List.mem_cons.mp hb with rfl | hb
    · exact ⟨_, List.mem_cons_self, hab⟩
    · obtain ⟨a, ha, hR⟩ := ih hb
      exact ⟨a, List.mem_cons_of_mem _ ha, hR⟩

theorem forall₂_mem_left {R : α → β → Prop} {l : List α} {bs : List β} (h : List.Forall₂ R l bs)
    {a : α} (ha : a ∈ l) : ∃ b ∈ bs, R a b := by
  obtain ⟨b, hb, hR⟩ := forall₂_mem_right h.flip ha
  exact ⟨b, hb, hR⟩

/-- One value that needs more fuel than there is makes the whole list need it, when nothing else
can go wrong. -/
theorem mapM_out {f : α → Except ε β} {l : List α} (h : ∃ a ∈ l, f a = .error out)
    (hout : ∀ a e, f a = .error e → e = out) : l.mapM f = .error out := by
  induction l with
  | nil => simp at h
  | cons a l ih =>
    rw [List.mapM_cons]
    cases ha : f a with
    | error e =>
      rw [hout a e ha]
      rfl
    | ok b =>
      obtain ⟨c, hc, hf⟩ := h
      rcases List.mem_cons.mp hc with rfl | hc
      · rw [ha] at hf
        cases hf
      · rw [ih ⟨c, hc, hf⟩]
        rfl

/-- A relation that has finitely many sources can be followed to its end where it leads to no
cycle. -/
theorem acc_of_no_cycle {σ : Type*} {r : σ → σ → Prop} (hfinite : {a | ∃ b, r a b}.Finite) {a : σ}
    (h : ∀ x, Relation.ReflTransGen r a x → ¬ Relation.TransGen r x x) :
    Acc (fun y x => r x y) a := by
  rw [acc_iff_isEmpty_descending_chain]
  refine ⟨fun ⟨f, hstart, hstep⟩ => ?_⟩
  have hreach : ∀ i d, Relation.ReflTransGen r (f i) (f (i + d)) := by
    intro i d
    induction d with
    | zero => exact .refl
    | succ d ih => exact ih.tail (hstep (i + d))
  have : Finite {a | ∃ b, r a b} := hfinite
  obtain ⟨i, j, hne, heq⟩ := Finite.exists_ne_map_eq_of_infinite
    fun i => (⟨f i, f (i + 1), hstep i⟩ : {a | ∃ b, r a b})
  have hloop : ∀ i d, f i ≠ f (i + d + 1) := by
    intro i d heq
    have hcycle := Relation.TransGen.tail' (hreach i d) (hstep (i + d))
    rw [← heq] at hcycle
    have hfirst := hreach 0 i
    rw [hstart, Nat.zero_add] at hfirst
    exact h _ hfirst hcycle
  have heq : f i = f j := congrArg Subtype.val heq
  rcases Nat.lt_or_gt_of_ne hne with hlt | hlt
  · obtain ⟨d, rfl⟩ := Nat.exists_eq_add_of_lt hlt
    exact hloop i d heq
  · obtain ⟨d, rfl⟩ := Nat.exists_eq_add_of_lt hlt
    exact hloop j d heq.symm

end Fuel
