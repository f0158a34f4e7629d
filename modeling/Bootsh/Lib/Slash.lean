import Bootsh.CString

/-!
Names whose components are separated by slashes.
-/
namespace Bootsh

theorem slash_notMem_splitOn {s c : Text} (h : c ∈ s.splitOn '/') : '/' ∉ c := by
  induction s generalizing c with
  | nil =>
    obtain rfl : c = [] := by simpa using h
    simp
  | cons d s ih =>
    rw [List.splitOn_cons_eq_if_modifyHead] at h
    split at h
    case isTrue =>
      rcases List.mem_cons.1 h with rfl | h
      · simp
      · exact ih h
    case isFalse hd =>
      obtain ⟨c', cs, hsplit⟩ := List.exists_cons_of_ne_nil (List.splitOn_ne_nil '/' s)
      rw [hsplit] at h ih
      rcases List.mem_cons.1 h with rfl | h
      · have := @ih c' (by simp)
        simp at hd
        simp [this, Ne.symm hd]
      · exact ih (List.mem_cons_of_mem _ h)

theorem mem_of_mem_splitOn {s c : Text} {a : Char} (h : c ∈ s.splitOn '/') (ha : a ∈ c) :
    a ∈ s := by
  induction s generalizing c with
  | nil =>
    obtain rfl : c = [] := by simpa using h
    exact ha
  | cons d s ih =>
    rw [List.splitOn_cons_eq_if_modifyHead] at h
    split at h
    case isTrue =>
      rcases List.mem_cons.1 h with rfl | h
      · cases ha
      · exact List.mem_cons_of_mem _ (ih h ha)
    case isFalse =>
      obtain ⟨c', cs, hsplit⟩ := List.exists_cons_of_ne_nil (List.splitOn_ne_nil '/' s)
      rw [hsplit] at h ih
      rcases List.mem_cons.1 h with rfl | h
      · rcases List.mem_cons.1 ha with rfl | ha
        · exact List.mem_cons_self
        · exact List.mem_cons_of_mem _ (ih List.mem_cons_self ha)
      · exact List.mem_cons_of_mem _ (ih (List.mem_cons_of_mem _ h) ha)

theorem splitOn_slash_cons (s : Text) : ('/' :: s).splitOn '/' = [] :: s.splitOn '/' :=
  List.splitOn_append_cons_self_of_not_mem (by simp : '/' ∉ ([] : Text)) s

/-- The components, each with the slash that follows it. -/
def slashed (cs : List Text) : Text := cs.flatMap (· ++ ['/'])

theorem slashed_eq_intercalate {cs : List Text} (h : cs ≠ []) :
    slashed cs = List.intercalate ['/'] cs ++ ['/'] := by
  induction cs with
  | nil => exact absurd rfl h
  | cons c cs ih =>
    cases cs with
    | nil => simp [slashed]
    | cons c' cs =>
      rw [List.intercalate_cons_cons, List.append_assoc, List.append_assoc,
        ← ih (by simp)]
      simp [slashed]

theorem mem_intercalate {cs : List Text} {a : Char} (h : a ∈ List.intercalate ['/'] cs) :
    a = '/' ∨ ∃ c ∈ cs, a ∈ c := by
  by_cases hcs : cs = []
  · subst hcs
    cases h
  · have hslashed : a ∈ slashed cs := by
      rw [slashed_eq_intercalate hcs]
      exact List.mem_append_left _ h
    obtain ⟨c, hc, ha⟩ := List.mem_flatMap.1 hslashed
    rcases List.mem_append.1 ha with ha | ha
    · exact .inr ⟨c, hc, ha⟩
    · exact .inl (List.mem_singleton.1 ha)

theorem slashed_concat (cs : List Text) (c : Text) :
    slashed (cs ++ [c]) = slashed cs ++ (c ++ ['/']) := by
  simp [slashed]

end Bootsh
