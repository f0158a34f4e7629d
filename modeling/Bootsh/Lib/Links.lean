import Mathlib.Data.List.Nodup
import Mathlib.Tactic.Common

/-!
Singly linked lists in a memory. A pointer is an address or null, and a slot is a place where a
pointer is stored: the head of the list, or the `next` field of a cell.
-/

structure Links (α : Type*) where
  head : Option α
  next : α → Option α

namespace Links

variable {α : Type*} [DecidableEq α]

/-- The pointer in a slot: the head for `none`, the field of the cell at `a` for `some a`. -/
def get (s : Links α) : Option α → Option α
  | none => s.head
  | some a => s.next a

def set (s : Links α) (slot v : Option α) : Links α :=
  match slot with
  | none => { s with head := v }
  | some a => { s with next := Function.update s.next a v }

/-- The first slot from `slot` on whose pointer satisfies `stop`. There is none when the null
pointer is followed, or the fuel runs out. -/
def seek (s : Links α) (stop : Option α → Bool) : ℕ → Option α → Option (Option α)
  | 0, _ => none
  | fuel + 1, slot =>
    if stop (s.get slot) then some slot
    else match s.get slot with
      | none => none
      | some a => s.seek stop fuel (some a)

/-- The cells met from the pointer `p` on, up to the null pointer. -/
def Path (next : α → Option α) : Option α → List α → Prop
  | p, [] => p = none
  | p, a :: l => p = some a ∧ Path next (next a) l

def Holds (s : Links α) (l : List α) : Prop := Path s.next s.head l

variable {next next' : α → Option α} {p v : Option α} {a : α} {l l' l₁ l₂ : List α} {s : Links α}

omit [DecidableEq α] in
theorem Path.unique (h : Path next p l) (h' : Path next p l') : l = l' := by
  induction l generalizing p l' with
  | nil =>
    cases l' with
    | nil => rfl
    | cons b l' => exact absurd (h.symm.trans h'.1) (by simp)
  | cons a l ih =>
    cases l' with
    | nil => exact absurd (h'.symm.trans h.1) (by simp)
    | cons b l' =>
      obtain rfl : a = b := Option.some.inj (h.1.symm.trans h'.1)
      rw [ih h.2 h'.2]

omit [DecidableEq α] in
theorem Path.drop (h : Path next p (l₁ ++ a :: l₂)) : Path next (some a) (a :: l₂) := by
  induction l₁ generalizing p with
  | nil => exact ⟨rfl, h.2⟩
  | cons b l₁ ih => exact ih h.2

omit [DecidableEq α] in
/-- A list that ends does not come back to a cell. -/
theorem Path.nodup (h : Path next p l) : l.Nodup := by
  induction l generalizing p with
  | nil => exact List.nodup_nil
  | cons a l ih =>
    refine List.nodup_cons.2 ⟨fun ha => ?_, ih h.2⟩
    obtain ⟨l₁, l₂, rfl⟩ := List.append_of_mem ha
    have hdrop : Path next (some a) (a :: l₂) := h.2.drop
    have hself : Path next (some a) (a :: (l₁ ++ a :: l₂)) := ⟨rfl, h.2⟩
    have hlen := congrArg List.length (hself.unique hdrop)
    simp only [List.length_cons, List.length_append] at hlen
    omega

omit [DecidableEq α] in
theorem Path.congr (h : Path next p l) (heq : ∀ a ∈ l, next a = next' a) : Path next' p l := by
  induction l generalizing p with
  | nil => exact h
  | cons a l ih =>
    refine ⟨h.1, ?_⟩
    rw [← heq a (by simp)]
    exact ih h.2 fun b hb => heq b (by simp [hb])

omit [DecidableEq α] in
/-- The cells are moved to other addresses. -/
theorem Path.map {β : Type*} {next' : β → Option β} {f : α → β} (h : Path next p l)
    (hf : ∀ a ∈ l, next' (f a) = (next a).map f) : Path next' (p.map f) (l.map f) := by
  induction l generalizing p with
  | nil =>
    rw [Path] at h
    subst h
    rfl
  | cons a l ih =>
    obtain ⟨rfl, hrest⟩ := h
    refine ⟨rfl, ?_⟩
    rw [hf a (by simp)]
    exact ih hrest fun b hb => hf b (by simp [hb])

theorem Path.update (h : Path next p (l₁ ++ a :: l₂)) (hv : Path next v l) (ha : a ∉ l) :
    Path (Function.update next a v) p (l₁ ++ a :: l) := by
  induction l₁ generalizing p with
  | nil =>
    refine ⟨h.1, ?_⟩
    rw [Function.update_self]
    refine hv.congr fun b hb => ?_
    rw [Function.update_of_ne]
    rintro rfl
    exact ha hb
  | cons b l₁ ih =>
    refine ⟨h.1, ?_⟩
    have hb : b ≠ a := by
      rintro rfl
      exact (List.nodup_cons.1 h.nodup).1 (by simp)
    rw [Function.update_of_ne hb]
    exact ih h.2

omit [DecidableEq α] in
theorem Holds.nodup (h : s.Holds l) : l.Nodup := Path.nodup h

omit [DecidableEq α] in
/-- The slot after the cells `l₁` holds the pointer to the rest of the list. -/
theorem Holds.get_getLast (h : s.Holds (l₁ ++ l₂)) : Path s.next (s.get l₁.getLast?) l₂ := by
  rcases List.eq_nil_or_concat l₁ with rfl | ⟨l, a, rfl⟩
  · exact h
  · rw [List.concat_eq_append, List.getLast?_append]
    rw [List.concat_eq_append, List.append_assoc] at h
    exact (Path.drop h).2

omit [DecidableEq α] in
theorem Path.head?_eq (h : Path next p l) : p = l.head? := by
  cases l with
  | nil => exact h
  | cons a l => exact h.1

/-- The rest of the list after the cells `l₁` is replaced. -/
theorem Holds.set (h : s.Holds (l₁ ++ l₂)) (hv : Path s.next v l) (hdisj : ∀ a ∈ l₁, a ∉ l) :
    (s.set l₁.getLast? v).Holds (l₁ ++ l) := by
  rcases List.eq_nil_or_concat l₁ with rfl | ⟨l', a, rfl⟩
  · exact hv
  · rw [List.concat_eq_append, List.append_assoc] at h
    rw [List.concat_eq_append, List.getLast?_append, List.append_assoc]
    exact Path.update h hv (hdisj a (by simp))

/-- The cell at `a` is taken out of the list. -/
theorem Holds.remove (h : s.Holds (l₁ ++ a :: l₂)) :
    (s.set l₁.getLast? (s.next a)).Holds (l₁ ++ l₂) := by
  refine h.set (Path.drop h).2 fun b hb hb' => ?_
  exact List.disjoint_of_nodup_append h.nodup hb (by simp [hb'])

/-- The cell at `a` is put into the list after the cells `l₁`. -/
theorem Holds.insert (h : s.Holds (l₁ ++ l₂)) (ha : a ∉ l₁ ++ l₂) :
    ((s.set (some a) (s.get l₁.getLast?)).set l₁.getLast? (some a)).Holds (l₁ ++ a :: l₂) := by
  have hrest : Path s.next (s.get l₁.getLast?) l₂ := h.get_getLast
  have hother : ∀ b ∈ l₁ ++ l₂, Function.update s.next a (s.get l₁.getLast?) b = s.next b := by
    intro b hb
    rw [Function.update_of_ne]
    rintro rfl
    exact ha hb
  have h' : (s.set (some a) (s.get l₁.getLast?)).Holds (l₁ ++ l₂) :=
    Path.congr h fun b hb => (hother b hb).symm
  refine h'.set ⟨rfl, ?_⟩ fun b hb hb' => ?_
  · change Path _ (Function.update s.next a (s.get l₁.getLast?) a) l₂
    rw [Function.update_self]
    exact hrest.congr fun b hb => (hother b (by simp [hb])).symm
  · rcases List.mem_cons.1 hb' with rfl | hb'
    · exact ha (by simp [hb])
    · exact List.disjoint_of_nodup_append h.nodup hb hb'

omit [DecidableEq α] in
theorem seek_path {stop : Option α → Bool} {fuel : ℕ} {slot : Option α}
    (h : Path s.next (s.get slot) (l₁ ++ l₂)) (hl₁ : ∀ a ∈ l₁, stop (some a) = false)
    (hstop : stop l₂.head? = true) (hfuel : l₁.length < fuel) :
    s.seek stop fuel slot = some (l₁.getLast?.or slot) := by
  induction l₁ generalizing fuel slot with
  | nil =>
    cases fuel with
    | zero => simp at hfuel
    | succ fuel =>
      rw [List.nil_append] at h
      rw [seek, h.head?_eq, if_pos hstop]
      rfl
  | cons a l₁ ih =>
    cases fuel with
    | zero => simp at hfuel
    | succ fuel =>
      have hget : s.get slot = some a := h.1
      have hno : ¬ stop (s.get slot) = true := by simp [hget, hl₁ a]
      rw [seek, if_neg hno, hget]
      have hrec := @ih fuel (some a) h.2 (fun b hb => hl₁ b (by simp [hb]))
        (by simpa using hfuel)
      change s.seek stop fuel (some a) = some ((a :: l₁).getLast?.or slot)
      rw [hrec, List.getLast?_cons]
      cases l₁.getLast? <;> rfl

omit [DecidableEq α] in
/-- The walk from the head stops after the cells that do not satisfy `stop`. -/
theorem Holds.seek {stop : Option α → Bool} {fuel : ℕ} (h : s.Holds (l₁ ++ l₂))
    (hl₁ : ∀ a ∈ l₁, stop (some a) = false) (hstop : stop l₂.head? = true)
    (hfuel : l₁.length < fuel) : s.seek stop fuel none = some l₁.getLast? := by
  rw [@seek_path α l₁ l₂ s stop fuel none h hl₁ hstop hfuel, Option.or_none]

end Links
