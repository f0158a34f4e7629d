import Bootsh.Samu.CanonPath

/-!
`canonpath` writes the location of its path, and what that says of it.
-/
namespace Bootsh.Samu.CanonPath

variable {st st' : State} {out rest up t : Text} {ups : ℕ} {ns : List Text}

/-! ### The loop -/

theorem View.position (h : View st out rest) : st.s + rest.length = st.mem.length := by
  obtain ⟨gap, hmem, hs⟩ := h.split
  rw [hmem, hs, List.length_append, List.length_append]
  omega

theorem Inv.position (h : Inv up st ups ns rest) : st.s + rest.length = st.mem.length := by
  obtain ⟨out, hview, -⟩ := h.view
  exact hview.position

/-- A component that is kept on the stack. -/
def IsName (c : Text) : Prop := c ≠ [] ∧ c ≠ ['.'] ∧ c ≠ dotdot

instance : DecidablePred IsName := fun _ => inferInstanceAs (Decidable (_ ∧ _ ∧ _))

/-- The number of names in a path. -/
def names (path : Text) : ℕ := ((path.splitOn '/').filter fun c => IsName c).length

theorem foldl_components (t : Text) (stack : List Text) :
    (components t).foldl push stack = (t.splitOn '/').foldl advance stack := by
  unfold components
  generalize t.splitOn '/' = cs
  induction cs generalizing stack with
  | nil => rfl
  | cons c cs ih =>
    by_cases hc : c = [] ∨ c = ['.']
    · rw [List.filter_cons_of_neg (by simpa [or_iff_not_imp_left] using hc), ih, List.foldl_cons, advance, if_pos hc]
    · rw [List.filter_cons_of_pos (by simpa [not_or] using hc), List.foldl_cons, ih,
        List.foldl_cons, advance, if_neg hc]

/-- The first component and what follows it. -/
theorem split_first (t : Text) : ∃ name, '/' ∉ name ∧
    (t = name ∧ t.splitOn '/' = [name] ∨
      ∃ t', t = name ++ '/' :: t' ∧ t.splitOn '/' = name :: t'.splitOn '/') := by
  refine ⟨t.takeWhile (· ≠ '/'), fun h => by simpa using List.mem_takeWhile_imp h, ?_⟩
  have hname : '/' ∉ t.takeWhile (· ≠ '/') := fun h => by simpa using List.mem_takeWhile_imp h
  have hsplit := List.takeWhile_append_dropWhile (p := (· ≠ '/')) (l := t)
  match htail : t.dropWhile (· ≠ '/') with
  | [] =>
    rw [htail, List.append_nil] at hsplit
    left
    rw [hsplit]
    rw [hsplit] at hname
    exact ⟨rfl, List.splitOn_eq_singleton hname⟩
  | c :: t' =>
    have hc : c = '/' := by
      have := List.head?_dropWhile_not (fun c : Char => decide (c ≠ '/')) t
      rw [htail] at this
      simpa using this
    subst hc
    rw [htail] at hsplit
    right
    refine ⟨t', hsplit.symm, ?_⟩
    conv_lhs => rw [← hsplit]
    exact List.splitOn_append_cons_self_of_not_mem hname t'

theorem loop_inv {fin : ℕ} (fuel : ℕ) (hnul : '\x00' ∉ t)
    (h : Inv up st ups ns (t ++ ['\x00'])) (hlen : st.mem.length = fin + 1)
    (hfuel : t.length < fuel) (hroom : ns.length + names t ≤ 60) : ∃ st' ups' ns' rest',
    loop fin fuel st = .ok st' ∧ Inv up st' ups' ns' rest' ∧ st'.mem.length = fin + 1 ∧
      ns' ++ List.replicate ups' dotdot =
        (t.splitOn '/').foldl advance (ns ++ List.replicate ups dotdot) := by
  induction fuel generalizing t st ups ns with
  | zero => omega
  | succ fuel ih =>
    have hpos := h.position
    rw [List.length_append, List.length_singleton] at hpos
    by_cases ht : t = []
    · subst ht
      refine ⟨st, ups, ns, _, ?_, h, hlen, rfl⟩
      rw [loop, if_neg (by simp at hpos; omega)]
    have htpos := List.length_pos_iff.mpr ht
    have hloop : loop fin (fuel + 1) st = step st >>= loop fin fuel := by
      rw [loop, if_pos (by omega)]
    obtain ⟨name, hslash, ⟨rfl, hsplit⟩ | ⟨t', rfl, hsplit⟩⟩ := split_first t
    · have hname : ∀ c ∈ t, c ≠ '/' ∧ c ≠ '\x00' := by
        intro c hc
        refine ⟨?_, ?_⟩
        · rintro rfl
          exact hslash hc
        · rintro rfl
          exact hnul hc
      have hnames : t ≠ [] → t ≠ ['.'] → t ≠ dotdot → ns.length < 60 := by
        intro h₁ h₂ h₃
        have hone : names t = 1 := by simp [names, hsplit, IsName, h₁, h₂, h₃]
        omega
      obtain ⟨st', ups', ns', hstep, hinv, hlen', hstack, -⟩ :=
        Inv.step h hname (.inr ⟨rfl, rfl⟩) (fun h => absurd h ht) hnames
      have hpos' := hinv.position
      refine ⟨st', ups', ns', [], ?_, hinv, hlen'.trans hlen, ?_⟩
      · obtain ⟨fuel, rfl⟩ := Nat.exists_eq_succ_of_ne_zero (by omega : fuel ≠ 0)
        rw [hloop, hstep]
        change loop fin (fuel + 1) st' = _
        rw [loop, if_neg (by simp at hpos'; omega)]
      · rw [hsplit, hstack]
        rfl
    · have hname : ∀ c ∈ name, c ≠ '/' ∧ c ≠ '\x00' := by
        intro c hc
        refine ⟨?_, ?_⟩
        · rintro rfl
          exact hslash hc
        · rintro rfl
          exact hnul (List.mem_append_left _ hc)
      have hcount : names (name ++ '/' :: t') =
          (if name = [] ∨ name = ['.'] ∨ name = dotdot then 0 else 1) + names t' := by
        rw [names, hsplit, names]
        by_cases hn : IsName name
        · rw [List.filter_cons_of_pos (by simpa using hn), List.length_cons,
            if_neg (by simpa [IsName] using hn)]
          omega
        · rw [List.filter_cons_of_neg (by simpa using hn),
            if_pos (by simp only [IsName] at hn; tauto)]
          omega
      have hnames : name ≠ [] → name ≠ ['.'] → name ≠ dotdot → ns.length < 60 := by
        intro h₁ h₂ h₃
        rw [if_neg (by simp [h₁, h₂, h₃])] at hcount
        omega
      rw [List.append_assoc] at h
      obtain ⟨st', ups', ns', hstep, hinv, hlen', hstack, hgrow⟩ :=
        Inv.step h hname (.inl rfl) (fun _ => rfl) hnames
      simp only [List.length_append, List.length_cons] at hfuel
      obtain ⟨st₂, ups₂, ns₂, rest₂, hrest, hinv₂, hlen₂, hstack₂⟩ := ih
        (fun h => hnul (List.mem_append_right _ (List.mem_cons_of_mem _ h))) hinv
        (hlen'.trans hlen) (by omega) (by omega)
      refine ⟨st₂, ups₂, ns₂, rest₂, ?_, hinv₂, hlen₂, ?_⟩
      · rw [hloop, hstep]
        exact hrest
      · rw [hsplit, hstack₂, hstack]
        rfl

/-! ### The path -/

/-- The text of a location. -/
def Location.text (l : Location) : Text :=
  (if l.absolute then ['/'] else []) ++
    if l.components = [] ∧ l.absolute = false then ['.'] else List.intercalate ['/'] l.components

/-- What `canonpath` leaves of it: nothing of the root. -/
def Location.written (l : Location) : Text := if l = root then [] else l.text

/-- A path that `canonpath` takes. -/
structure Valid (path : Text) : Prop where
  nonempty : path ≠ []
  nul : '\x00' ∉ path
  names : names path ≤ 60

theorem dropLast_written {absolute : Bool} {cs : List Text}
    (hup : up = if absolute then ['/'] else []) (h : IsWritten up cs out rest) (hne : out ≠ []) :
    out.dropLast = Location.written ⟨absolute, cs⟩ := by
  by_cases hcs : cs = []
  · subst hcs
    rcases h with hout | ⟨-, hcs, -⟩
    · rw [slashed, List.flatMap_nil, List.append_nil] at hout
      cases absolute with
      | false => exact absurd (hout.trans hup) hne
      | true =>
        rw [hout, hup]
        rfl
    · exact absurd rfl hcs
  · have hwritten : Location.written ⟨absolute, cs⟩ = up ++ List.intercalate ['/'] cs := by
      rw [Location.written, if_neg (by simp [root, hcs]), Location.text, hup]
      simp [hcs]
    rw [hwritten]
    rcases h with hout | ⟨-, -, hout⟩
    · rw [hout, slashed_eq_intercalate hcs, ← List.append_assoc, List.dropLast_concat]
    · rw [hout, ← List.append_assoc, List.dropLast_concat]

/-- The last step, where all components are written. -/
theorem Inv.finish {fin : ℕ} {absolute : Bool} (hup : up = if absolute then ['/'] else [])
    (h : Inv up st ups ns rest) (hlen : st.mem.length = fin + 1) (hfin : 0 < fin) :
    (if st.d = 0 then do
      let mem ← write st.mem 0 '.'
      let mem ← write mem 1 '\x00'
      return mem.take 1
    else do
      let mem ← write st.mem (st.d - 1) '\x00'
      return mem.take (st.d - 1)) =
      .ok (Location.written ⟨absolute, CanonPath.written ups ns⟩) := by
  obtain ⟨out, hview, hout⟩ := h.view
  have hd := hview.d
  by_cases hzero : st.d = 0
  · have hnil : out = [] := List.eq_nil_of_length_eq_zero (hd ▸ hzero)
    have hboth : up = [] ∧ CanonPath.written ups ns = [] := by
      rcases hout with hout | ⟨-, -, hout⟩
      · rw [hnil] at hout
        obtain ⟨hup, hcs⟩ := List.append_eq_nil_iff.mp hout.symm
        refine ⟨hup, ?_⟩
        cases hcases : CanonPath.written ups ns with
        | nil => rfl
        | cons c cs => simp [hcases, slashed] at hcs
      · rw [hnil] at hout
        simp at hout
    obtain ⟨rfl, hcs⟩ := hboth
    have habs : absolute = false := by
      cases absolute with
      | false => rfl
      | true => simp at hup
    rw [if_pos hzero, write, if_pos (by omega)]
    change (write (st.mem.set 0 '.') 1 '\x00' >>= _) = _
    rw [write, if_pos (by rw [List.length_set]; omega), hcs, habs]
    rcases hmem : st.mem with _ | ⟨c, _ | ⟨c', mem⟩⟩
    · simp [hmem] at hlen
    · simp [hmem] at hlen
      omega
    · rfl
  · obtain ⟨gap, hmem, -⟩ := hview.split
    have hdlt : st.d - 1 < st.mem.length := by
      rw [hmem, List.length_append, hd]
      omega
    rw [if_neg hzero, write, if_pos hdlt]
    change Except.ok ((st.mem.set (st.d - 1) '\x00').take (st.d - 1)) = _
    rw [List.take_set_of_le (Nat.le_refl _), hmem, List.take_append_of_le_length (by omega), hd,
      ← List.dropLast_eq_take]
    refine congrArg Except.ok (dropLast_written hup hout ?_)
    rintro rfl
    exact hzero hd

/-- `canonpath` writes the location of its path, but nothing of the root. -/
theorem canonpath_eq {path : Text} (h : Valid path) :
    canonpath path = .ok (location path).written := by
  have hlen : 0 < path.length := List.length_pos_iff.mpr h.nonempty
  -- the rest of the path behind the slash of the root
  obtain ⟨up, t, hpath, hup, hcomps⟩ : ∃ up t, path = up ++ t ∧
      up = (if (location path).absolute then ['/'] else []) ∧
      (path.splitOn '/').foldl advance [] = (t.splitOn '/').foldl advance [] ∧
      names t = names path := by
    by_cases hslash : path.head? = some '/'
    · match path, hslash with
      | _ :: t, rfl =>
        refine ⟨['/'], t, rfl, rfl, ?_⟩
        rw [names, names, splitOn_slash_cons]
        exact ⟨rfl, rfl⟩
    · refine ⟨[], path, rfl, ?_, rfl, rfl⟩
      simp [location, hslash]
  obtain ⟨hcomps, hnames⟩ := hcomps
  have hstart : (if path.head? = some '/' then 1 else 0) = up.length := by
    rw [hup]
    by_cases hslash : path.head? = some '/' <;> simp [location, hslash]
  have hinv : Inv up ⟨path ++ ['\x00'], up.length, up.length, []⟩ 0 [] (t ++ ['\x00']) := by
    refine ⟨⟨up, ⟨⟨[], ?_, rfl⟩, rfl⟩, .inl ?_⟩, rfl, by simp⟩
    · simp [hpath]
    · simp [CanonPath.written, slashed]
  have hsize : t.length ≤ path.length := by
    rw [hpath, List.length_append]
    omega
  obtain ⟨st, ups, ns, rest, hloop, hinv, hmem, hstack⟩ := loop_inv (path.length + 1)
    (fun hnul => h.nul (by rw [hpath]; exact List.mem_append_right _ hnul)) hinv
    (List.length_append : (path ++ ['\x00']).length = path.length + 1) (by omega) (by have := h.names; simp only [List.length_nil]; omega)
  have hlocation : location path = ⟨(location path).absolute, CanonPath.written ups ns⟩ := by
    have hrev : CanonPath.written ups ns = (ns ++ List.replicate ups dotdot).reverse := by
      simp [CanonPath.written]
    rw [hrev, hstack]
    simp only [List.replicate_zero, List.append_nil]
    rw [← hcomps, ← foldl_components]
    rfl
  rw [canonpath, if_neg (by omega), hstart]
  change (loop _ _ _ >>= _) = _
  rw [hloop]
  conv_rhs => rw [hlocation]
  exact hinv.finish hup hmem hlen

/-! ### Canonical paths -/

/-- Leading `..`, and names. -/
def Normal (cs : List Text) : Prop :=
  ∃ ups ns, cs = List.replicate ups dotdot ++ ns ∧ ∀ n ∈ ns, IsName n ∧ '/' ∉ n

theorem foldl_advance_names {stack : List Text} (h : ∀ n ∈ ns, IsName n ∧ '/' ∉ n) :
    ns.foldl advance stack = ns.reverse ++ stack := by
  induction ns generalizing stack with
  | nil => rfl
  | cons n ns ih =>
    obtain ⟨hne, hdot, hdotdot⟩ := (h n List.mem_cons_self).1
    rw [List.foldl_cons, advance, if_neg (by simp [hne, hdot]), push_name hdotdot,
      ih fun m hm => h m (List.mem_cons_of_mem _ hm)]
    simp

theorem foldl_advance_ups (k ups : ℕ) :
    (List.replicate k dotdot).foldl advance (List.replicate ups dotdot) =
      List.replicate (ups + k) dotdot := by
  induction k generalizing ups with
  | zero => rfl
  | succ k ih =>
    have hadvance : advance (List.replicate ups dotdot) dotdot =
        List.replicate (ups + 1) dotdot := by
      rw [advance, if_neg (by decide), push_dotdot_ups]
    rw [List.replicate_succ, List.foldl_cons, hadvance, ih]
    congr 1
    omega

theorem foldl_advance_normal {cs : List Text} (h : Normal cs) :
    cs.foldl advance [] = cs.reverse := by
  obtain ⟨ups, ns, rfl, hns⟩ := h
  have hups := foldl_advance_ups ups 0
  rw [List.replicate_zero] at hups
  rw [List.foldl_append, hups, foldl_advance_names hns]
  simp

theorem normal_advance {stack : List Text} {c : Text} (h : Normal stack.reverse) (hc : '/' ∉ c) :
    Normal (advance stack c).reverse := by
  obtain ⟨ups, ns, hstack, hns⟩ := h
  have hstack' : stack = ns.reverse ++ List.replicate ups dotdot := by
    rw [← List.reverse_reverse stack, hstack]
    simp
  rw [advance]
  split
  case isTrue => exact ⟨ups, ns, hstack, hns⟩
  case isFalse hkeep =>
    push Not at hkeep
    by_cases hdotdot : c = dotdot
    · subst hdotdot
      rcases List.eq_nil_or_concat ns with rfl | ⟨ns, n, rfl⟩
      · refine ⟨ups + 1, [], ?_, by simp⟩
        rw [hstack', List.reverse_nil, List.nil_append, push_dotdot_ups]
        simp
      · have hn := (hns n (by simp)).1
        refine ⟨ups, ns, ?_, fun m hm => hns m (by simp [hm])⟩
        rw [hstack', List.concat_eq_append, List.reverse_append, List.reverse_singleton,
          List.singleton_append, List.cons_append, push_dotdot_name hn.2.2]
        simp
    · refine ⟨ups, ns ++ [c], ?_, ?_⟩
      · rw [push_name hdotdot, List.reverse_cons, hstack, List.append_assoc]
      · intro n hn
        rcases List.mem_append.mp hn with hn | hn
        · exact hns n hn
        · rw [List.mem_singleton.mp hn]
          exact ⟨⟨hkeep.1, hkeep.2, hdotdot⟩, hc⟩

theorem normal_foldl {cs stack : List Text} (h : Normal stack.reverse) (hcs : ∀ c ∈ cs, '/' ∉ c) :
    Normal (cs.foldl advance stack).reverse := by
  induction cs generalizing stack with
  | nil => exact h
  | cons c cs ih =>
    exact ih (normal_advance h (hcs c List.mem_cons_self))
      fun c' hc' => hcs c' (List.mem_cons_of_mem _ hc')

theorem location_normal (path : Text) : Normal (location path).components := by
  have hnil : Normal ([] : List Text).reverse := ⟨0, [], rfl, by simp⟩
  have hfold := @normal_foldl (path.splitOn '/') [] hnil fun c hc => slash_notMem_splitOn hc
  rwa [← foldl_components] at hfold

theorem Normal.slashless {cs : List Text} (h : Normal cs) : ∀ c ∈ cs, c ≠ [] ∧ '/' ∉ c := by
  obtain ⟨ups, ns, rfl, hns⟩ := h
  intro c hc
  rcases List.mem_append.mp hc with hc | hc
  · rw [List.eq_of_mem_replicate hc]
    decide
  · exact ⟨(hns c hc).1.1, (hns c hc).2⟩

/-- The parts of a path behind the slash of the root, the empty ones too. -/
def parts (path : Text) : List Text :=
  (if path.head? = some '/' then path.tail else path).splitOn '/'

theorem intercalate_head {cs : List Text} (hcs : ∀ c ∈ cs, c ≠ [] ∧ '/' ∉ c) (hne : cs ≠ []) :
    ∃ c s, List.intercalate ['/'] cs = c :: s ∧ c ≠ '/' := by
  match cs, hne with
  | [] :: _, _ => exact absurd rfl (hcs [] List.mem_cons_self).1
  | (a :: name) :: cs, _ =>
    have ha : a ≠ '/' := by
      rintro rfl
      exact (hcs _ List.mem_cons_self).2 List.mem_cons_self
    cases cs with
    | nil => exact ⟨a, name, by simp, ha⟩
    | cons c cs => exact ⟨a, _, by rw [List.intercalate_cons_cons]; rfl, ha⟩

variable {l : Location}

/-- The text of a location other than the root and the current directory. -/
theorem text_parts (hnormal : Normal l.components) (hne : l.components ≠ []) :
    parts l.text = l.components ∧ (l.text.head? = some '/' ↔ l.absolute) := by
  obtain ⟨c, s, hhead, hc⟩ := intercalate_head hnormal.slashless hne
  have hsplit : (List.intercalate ['/'] l.components).splitOn '/' = l.components :=
    List.splitOn_intercalate '/' (fun c hc => (hnormal.slashless c hc).2) hne
  have htext : l.text = (if l.absolute then ['/'] else []) ++
      List.intercalate ['/'] l.components := by
    simp [Location.text, hne]
  cases habs : l.absolute with
  | true =>
    rw [habs] at htext
    rw [htext, parts]
    exact ⟨hsplit, by simp⟩
  | false =>
    rw [habs] at htext
    have htext' : l.text = List.intercalate ['/'] l.components := htext
    have hhead' : (List.intercalate ['/'] l.components).head? ≠ some '/' := by
      rw [hhead]
      simpa using hc
    rw [htext', parts, if_neg hhead']
    exact ⟨hsplit, iff_of_false hhead' (by simp)⟩

theorem location_of_parts (path : Text) :
    location path = ⟨path.head? = some '/', ((parts path).foldl advance []).reverse⟩ := by
  have hfold : (path.splitOn '/').foldl advance [] = (parts path).foldl advance [] := by
    unfold parts
    split
    case isTrue hslash =>
      match path, hslash with
      | _ :: t, rfl =>
        rw [splitOn_slash_cons]
        rfl
    case isFalse => rfl
  rw [location, foldl_components, hfold]

/-- The text of a location leads there. -/
theorem location_text (hnormal : Normal l.components) (hroot : l ≠ root) : location l.text = l := by
  obtain ⟨absolute, cs⟩ := l
  by_cases hne : cs = []
  · subst hne
    cases absolute with
    | true => exact absurd rfl hroot
    | false => rfl
  · obtain ⟨hparts, hhead⟩ := text_parts hnormal hne
    rw [location_of_parts, hparts, foldl_advance_normal hnormal, List.reverse_reverse]
    exact congrArg (Location.mk · cs)
      (Bool.eq_iff_iff.mpr (decide_eq_true_iff.trans hhead))

theorem text_here (hne : l.components = []) (hroot : l ≠ root) : l.text = ['.'] := by
  obtain ⟨absolute, cs⟩ := l
  obtain rfl : cs = [] := hne
  cases absolute with
  | true => exact absurd rfl hroot
  | false => rfl

/-- No empty component and no `.`, but for the path `.`, and `..` only in front of all others. -/
structure Canonical (path : Text) : Prop where
  nonempty : path ≠ []
  parts : path = ['.'] ∨
    ∃ ups ns, parts path = List.replicate ups dotdot ++ ns ∧ ∀ n ∈ ns, IsName n

theorem text_canonical (hnormal : Normal l.components) (hroot : l ≠ root) : Canonical l.text := by
  by_cases hne : l.components = []
  · have htext := text_here hne hroot
    exact ⟨by simp [htext], .inl htext⟩
  · obtain ⟨hparts, -⟩ := text_parts hnormal hne
    refine ⟨?_, .inr ?_⟩
    · intro hnil
      obtain ⟨c, s, hhead, -⟩ := intercalate_head hnormal.slashless hne
      simp [Location.text, hne, hhead] at hnil
    · obtain ⟨ups, ns, hcs, hns⟩ := hnormal
      exact ⟨ups, ns, hparts.trans hcs, fun n hn => (hns n hn).1⟩

theorem filter_push (stack : List Text) {c : Text} (hc : ¬ IsName c) (hne : c ≠ []) (hdot : c ≠ ['.']) :
    ((push stack c).filter fun c => IsName c).length ≤ (stack.filter fun c => IsName c).length := by
  obtain rfl : c = dotdot := by
    by_contra h
    exact hc ⟨hne, hdot, h⟩
  cases stack with
  | nil => simp [push, hc]
  | cons top stack =>
    rw [push]
    split
    · exact (List.sublist_cons_self top stack).filter _ |>.length_le
    · rw [List.filter_cons_of_neg (by simpa using hc)]

theorem filter_foldl (cs stack : List Text) :
    ((cs.foldl advance stack).filter fun c => IsName c).length ≤
      (stack.filter fun c => IsName c).length + (cs.filter fun c => IsName c).length := by
  induction cs generalizing stack with
  | nil => simp
  | cons c cs ih =>
    refine (ih (advance stack c)).trans ?_
    by_cases hc : IsName c
    · have hadvance : advance stack c = c :: stack := by
        rw [advance, if_neg (by simp [hc.1, hc.2.1]), push_name hc.2.2]
      rw [hadvance, List.filter_cons_of_pos (by simpa using hc),
        List.filter_cons_of_pos (by simpa using hc)]
      simp only [List.length_cons]
      omega
    · rw [List.filter_cons_of_neg (by simpa using hc), advance]
      split
      case isTrue => exact Nat.le_refl _
      case isFalse hkeep =>
        push Not at hkeep
        have := filter_push stack hc hkeep.1 hkeep.2
        omega

theorem names_parts (path : Text) : names path = ((parts path).filter fun c => IsName c).length := by
  unfold names parts
  split
  case isTrue hslash =>
    match path, hslash with
    | _ :: t, rfl =>
      rw [splitOn_slash_cons]
      rfl
  case isFalse => rfl

theorem mem_foldl_push {cs stack : List Text} {c : Text} (h : c ∈ cs.foldl push stack) :
    c ∈ stack ∨ c ∈ cs := by
  induction cs generalizing stack with
  | nil => exact .inl h
  | cons c' cs ih =>
    rcases ih h with h | h
    · have hpush : c ∈ c' :: stack := by
        cases stack with
        | nil => exact h
        | cons top stack =>
          rw [push] at h
          split at h
          · exact List.mem_cons_of_mem _ (List.mem_cons_of_mem _ h)
          · exact h
      rcases List.mem_cons.mp hpush with rfl | h
      · exact .inr List.mem_cons_self
      · exact .inl h
    · exact .inr (List.mem_cons_of_mem _ h)

theorem mem_location {path c : Text} (h : c ∈ (location path).components) :
    c ∈ path.splitOn '/' := by
  rcases mem_foldl_push (List.mem_reverse.mp h) with h | h
  · cases h
  · exact (List.mem_filter.mp h).1

/-- What is written can be read again. -/
theorem Valid.text {path : Text} (h : Valid path) (hroot : location path ≠ root) :
    Valid (location path).text := by
  have hnormal := location_normal path
  have hlocation := location_text hnormal hroot
  refine ⟨(text_canonical hnormal hroot).nonempty, ?_, ?_⟩
  · intro hnul
    rcases List.mem_append.mp hnul with hnul | hnul
    · split at hnul <;> simp at hnul
    · split at hnul
      · simp at hnul
      · rcases mem_intercalate hnul with h' | ⟨c, hc, hnul⟩
        · cases h'
        · exact h.nul (mem_of_mem_splitOn (mem_location hc) hnul)
  · by_cases hne : (location path).components = []
    · rw [text_here hne hroot]
      decide
    · have hparts := (text_parts hnormal hne).1
      have hcount := filter_foldl (parts path) []
      have hbound := h.names
      rw [names_parts] at hbound
      rw [names_parts, hparts, location_of_parts]
      dsimp only
      rw [List.filter_reverse, List.length_reverse]
      simp only [List.filter_nil, List.length_nil] at hcount
      omega

/-! ### Lexical canonicalisation -/

/-- The path that is written is canonical, it leads where the path did, it is absolute if that was,
and it is left as it is. All other spellings of the location are written in the same way. -/
structure Canonicalised (path : Text) (text : Text) : Prop where
  eq : canonpath path = .ok text
  canonical : Canonical text
  absolute : text.head? = some '/' ↔ path.head? = some '/'
  location : location text = location path
  fixed : canonpath text = .ok text
  unique : ∀ path', Valid path' → CanonPath.location path' = CanonPath.location path →
    canonpath path' = .ok text

theorem canonicalised_of_ne_root {path : Text} (h : Valid path) (hroot : location path ≠ root) :
    Canonicalised path (location path).text := by
  have hnormal := location_normal path
  have hlocation := location_text hnormal hroot
  have heq (path' : Text) (h' : Valid path') (hsame : location path' = location path) :
      canonpath path' = .ok (location path).text := by
    rw [canonpath_eq h', hsame, Location.written, if_neg hroot]
  have habs := congrArg Location.absolute hlocation
  exact {
    eq := heq path h rfl
    canonical := text_canonical hnormal hroot
    absolute := decide_eq_decide.mp habs
    location := hlocation
    fixed := heq _ (h.text hroot) hlocation
    unique := heq }

/-- `canonpath` is lexical canonicalisation except on the spellings of the root. -/
theorem canonpath_exact_iff {path : Text} (h : Valid path) :
    (∃ text, Canonicalised path text) ↔ location path ≠ root := by
  constructor
  · rintro ⟨text, htext⟩ hroot
    have heq := htext.eq
    rw [canonpath_eq h, Location.written, if_pos hroot] at heq
    exact htext.canonical.nonempty (Except.ok.inj heq).symm
  · exact fun hroot => ⟨_, canonicalised_of_ne_root h hroot⟩

/-- A path with an inner `..`. -/
theorem canonpath_exact_above :
    Valid "a/./b/../c".toList ∧ ((∃ text, Canonicalised "a/./b/../c".toList text) ↔
      location "a/./b/../c".toList ≠ root) := by
  have hvalid : Valid "a/./b/../c".toList := ⟨by decide, by decide, by decide⟩
  exact ⟨hvalid, canonpath_exact_iff hvalid⟩

/-- The root gives the empty path, which is refused when it is read again. -/
theorem canonpath_root :
    canonpath ['/'] = .ok [] ∧ canonpath "/a/..".toList = .ok [] ∧
      ¬ (∃ text, Canonicalised ['/'] text) ∧ canonpath [] = .error .emptyPath := by
  have hroot : canonpath ['/'] = .ok [] := by rfl
  refine ⟨hroot, by rfl, ?_, by rfl⟩
  rintro ⟨text, htext⟩
  have heq := htext.eq
  rw [hroot] at heq
  exact htext.canonical.nonempty (Except.ok.inj heq).symm

end Bootsh.Samu.CanonPath
