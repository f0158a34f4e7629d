import Bootsh.Samu.Tree

/-!
Insertion keeps the trees balanced and ordered, the path to a key never outgrows its array, and the
trees behave as the association lists that stand for them elsewhere.
-/
namespace Bootsh.Samu.Treenode

variable {κ α : Type} {t c c' x y z : Treenode κ α} {dir : Bool} {k : κ} {v : α} {h : ℕ}

/-! ### Nodes seen from the deeper side -/

/-- The node with the child `outer` on the side `dir`. -/
def side (dir : Bool) (k : κ) (v : α) (inner outer : Treenode κ α) (h : ℕ) : Treenode κ α :=
  if dir then node k v inner outer h else node k v outer inner h

/-- The list with `outer` on the side `dir`. -/
def join {β : Type} (dir : Bool) (inner : List β) (x : β) (outer : List β) : List β :=
  if dir then inner ++ x :: outer else outer ++ x :: inner

theorem join_join {β : Type} {a b c : List β} {p q : β} :
    join dir a p (join dir b q c) = join dir (join dir a p b) q c := by
  cases dir <;> simp [join]

@[simp] theorem child_side : (side dir k v x y h).child dir = y := by
  cases dir <;> rfl

@[simp] theorem child_side_not : (side dir k v x y h).child (!dir) = x := by
  cases dir <;> rfl

@[simp] theorem withChild_side : (side dir k v x y h).withChild dir c = side dir k v x c h := by
  cases dir <;> rfl

@[simp] theorem withChild_side_not :
    (side dir k v x y h).withChild (!dir) c = side dir k v c y h := by
  cases dir <;> rfl

@[simp] theorem withHeight_side {h' : ℕ} :
    (side dir k v x y h).withHeight h' = side dir k v x y h' := by
  cases dir <;> rfl

@[simp] theorem height_side : (side dir k v x y h).height = h := by
  cases dir <;> rfl

@[simp] theorem isNull_side : (side dir k v x y h).isNull = false := by
  cases dir <;> rfl

theorem toList_side : (side dir k v x y h).toList = join dir x.toList (k, v) y.toList := by
  cases dir <;> rfl

theorem balanced_side : (side dir k v x y h).Balanced ↔ x.Balanced ∧ y.Balanced ∧
    x.height ≤ y.height + 1 ∧ y.height ≤ x.height + 1 ∧ h = max x.height y.height + 1 := by
  cases dir with
  | true => rfl
  | false =>
    rw [max_comm]
    exact ⟨fun h => ⟨h.2.1, h.1, h.2.2.2.1, h.2.2.1, h.2.2.2.2⟩,
      fun h => ⟨h.2.1, h.1, h.2.2.2.1, h.2.2.1, h.2.2.2.2⟩⟩

theorem eq_side (dir : Bool) (ht : t.isNull = false) :
    ∃ k v x y h, t = side dir k v x y h := by
  cases t with
  | null => cases ht
  | node k v l r h =>
    cases dir
    · exact ⟨k, v, r, l, h, rfl⟩
    · exact ⟨k, v, l, r, h, rfl⟩

theorem not_isNull (ht : 0 < t.height) : t.isNull = false := by
  cases t with
  | null => cases ht
  | node => rfl

/-! ### Rebalancing a node -/

/-- A node restored at the place of one of the height `h`, with the contents `l`: what `balance`
returns says whether it is higher. -/
def Restores (r : Option (Treenode κ α × ℤ)) (h : ℕ) (l : List (κ × α)) : Prop :=
  ∃ n d, r = some (n, d) ∧ n.Balanced ∧ n.toList = l ∧ (n.height : ℤ) = h + d ∧ (d = 0 ∨ d = 1)

theorem rot_side {ky : κ} {vy : α} {w : Treenode κ α} {hx hy : ℕ}
    (hb : x.Balanced) (hdeep : (side dir ky vy z w hy).Balanced)
    (hxy : hy = x.height + 2) (hh : hx = x.height + 2) :
    Restores ((side dir k v x (side dir ky vy z w hy) hx).rot dir) hx
      (side dir k v x (side dir ky vy z w hy) hx).toList := by
  obtain ⟨hz, hw, hzw, hwz, hmax⟩ := balanced_side.mp hdeep
  simp only [rot, child_side, child_side_not, isNull_side, height_side, Bool.false_eq_true,
    if_false, withChild_side, withChild_side_not, withHeight_side]
  split
  case isTrue hlt =>
    obtain ⟨kz, vz, b, e, hz', rfl⟩ := eq_side dir (not_isNull (t := z) (by omega))
    simp only [height_side, child_side, child_side_not, withChild_side, withChild_side_not,
      withHeight_side] at hz hlt hzw hwz hmax ⊢
    obtain ⟨hbb, hbe, hbe₁, hbe₂, hmax'⟩ := balanced_side.mp hz
    refine ⟨_, _, rfl, ?_, ?_, by simp, by omega⟩
    · rw [balanced_side, balanced_side, balanced_side]
      simp only [height_side]
      exact ⟨⟨hb, hbb, by omega, by omega, by omega⟩, ⟨hbe, hw, by omega, by omega, by omega⟩,
        by omega, by omega, by omega⟩
    · simp only [toList_side, join_join]
  case isFalse hlt =>
    refine ⟨_, _, rfl, ?_, ?_, by simp, by omega⟩
    · rw [balanced_side, balanced_side]
      simp only [height_side]
      exact ⟨⟨hb, hz, by omega, by omega, by omega⟩, hw, by omega, by omega, by omega⟩
    · simp only [toList_side, join_join]

/-- A node whose one child has grown by one is restored. -/
theorem balance_side {hx : ℕ} (hx' : (side dir k v x y hx).Balanced) (hc : c.Balanced)
    (hgrown : c.height = y.height + 1) :
    Restores (side dir k v x c hx).balance hx (side dir k v x c hx).toList := by
  obtain ⟨hb, -, hle, hge, hmax⟩ := balanced_side.mp hx'
  by_cases hfits : c.height ≤ x.height + 1
  case pos =>
    have heq : (side dir k v x c hx).balance =
        some (side dir k v x c (max x.height c.height + 1),
          (max x.height c.height + 1 : ℤ) - hx) := by
      cases dir
      · have hdiff : ((c.height : ℤ) - x.height + 1) % 2 ^ 32 < 3 := by omega
        have hmax : (if c.height < x.height then x.height + 1 else c.height + 1) =
            max x.height c.height + 1 := by
          split <;> omega
        simp only [side, balance, child, Bool.false_eq_true, if_false, if_true, if_pos hdiff, hmax]
        rfl
      · have hdiff : ((x.height : ℤ) - c.height + 1) % 2 ^ 32 < 3 := by omega
        have hmax : (if x.height < c.height then c.height + 1 else x.height + 1) =
            max x.height c.height + 1 := by
          split <;> omega
        simp only [side, balance, child, Bool.false_eq_true, if_false, if_true, if_pos hdiff, hmax]
        rfl
    refine ⟨_, _, heq, balanced_side.mpr ⟨hb, hc, by omega, hfits, rfl⟩, ?_, ?_, by omega⟩
    · rw [toList_side, toList_side]
    · rw [height_side]
      push_cast
      omega
  case neg =>
    have heq : (side dir k v x c hx).balance = (side dir k v x c hx).rot dir := by
      cases dir <;> simp only [side, balance, child] <;> rw [if_neg (by simp; omega)] <;>
        congr 1 <;> simp <;> omega
    obtain ⟨ky, vy, z, w, hy, rfl⟩ := eq_side dir (not_isNull (t := c) (by omega))
    rw [height_side] at hgrown hfits
    rw [heq]
    exact rot_side hb hc (by omega) (by omega)

/-! ### The entries of the array -/

variable {f : Frame κ α} {fs gs : List (Frame κ α)}

/-- The entries lead to a hole for a tree of the height `h` in a balanced tree. -/
def Fits : ℕ → List (Frame κ α) → Prop
  | _, [] => True
  | h, f :: fs => f.node.isNull = false ∧ f.node.Balanced ∧ (f.node.child f.dir).height = h ∧
    Fits f.node.height fs

theorem reassemble_append : reassemble c (fs ++ gs) = reassemble (reassemble c fs) gs := by
  induction fs generalizing c with
  | nil => rfl
  | cons f fs ih => exact ih

theorem toList_plug (heq : c.toList = c'.toList) : (f.plug c).toList = (f.plug c').toList := by
  obtain ⟨node, dir⟩ := f
  cases node with
  | null => rfl
  | node k v l r h => cases dir <;> simp [Frame.plug, withChild, toList, heq]

theorem toList_reassemble (heq : c.toList = c'.toList) :
    (reassemble c fs).toList = (reassemble c' fs).toList := by
  induction fs generalizing c c' with
  | nil => exact heq
  | cons f fs ih => exact ih (toList_plug heq)

theorem plug_side : (Frame.mk (side dir k v x y h) dir).plug c = side dir k v x c h :=
  withChild_side

/-- A tree of the old height can stand in the hole. -/
theorem balanced_reassemble (hfs : Fits h fs) (hc : c.Balanced) (hh : c.height = h) :
    (reassemble c fs).Balanced := by
  induction fs generalizing c h with
  | nil => exact hc
  | cons f fs ih =>
    obtain ⟨node, dir⟩ := f
    obtain ⟨hnull, hb, hchild, hrest⟩ := hfs
    obtain ⟨k, v, x, y, hx, rfl⟩ := eq_side dir hnull
    rw [child_side] at hchild
    rw [height_side] at hrest
    obtain ⟨hbx, -, hle, hge, hmax⟩ := balanced_side.mp hb
    rw [reassemble, plug_side]
    exact ih hrest (balanced_side.mpr ⟨hbx, hc, by omega, by omega, by omega⟩) height_side

/-- The ancestors of a hole where a tree has grown by one are rebalanced. -/
theorem climb_spec (hfs : Fits h fs) (hc : c.Balanced) (hh : c.height = h + 1) :
    ∃ t, climb fs c = some t ∧ t.Balanced ∧ t.toList = (reassemble c fs).toList := by
  induction fs generalizing c h with
  | nil => exact ⟨c, rfl, hc, rfl⟩
  | cons f fs ih =>
    obtain ⟨node, dir⟩ := f
    obtain ⟨hnull, hb, hchild, hrest⟩ := hfs
    obtain ⟨k, v, x, y, hx, rfl⟩ := eq_side dir hnull
    rw [child_side] at hchild
    rw [height_side] at hrest
    obtain ⟨n, d, hbal, hn, hlist, hheight, hd⟩ := balance_side hb hc (hchild ▸ hh)
    rw [climb, reassemble, plug_side, hbal, Option.bind_some, ← toList_reassemble hlist]
    dsimp only
    rcases hd with rfl | rfl
    · exact ⟨_, if_pos rfl, balanced_reassemble hrest hn (by omega), rfl⟩
    · rw [if_neg Int.one_ne_zero]
      exact ih hrest hn (by omega)

/-! ### The descent -/

section

variable [LinearOrder κ] {key : κ} {value : α}

def Ordered (t : Treenode κ α) : Prop := t.toList.Pairwise fun a b => a.1 < b.1

theorem ordered_node {l r : Treenode κ α} : (node k v l r h).Ordered ↔ l.Ordered ∧ r.Ordered ∧
    (∀ p ∈ l.toList, p.1 < k) ∧ ∀ p ∈ r.toList, k < p.1 := by
  simp only [Ordered, toList, List.pairwise_append, List.pairwise_cons, List.mem_cons]
  constructor
  · intro hall
    exact ⟨hall.1, hall.2.1.2, fun p hp => hall.2.2 p hp (k, v) (.inl rfl), hall.2.1.1⟩
  · intro hall
    refine ⟨hall.1, ⟨hall.2.2.2, hall.2.1⟩, ?_⟩
    intro p hp q hq
    rcases hq with rfl | hq
    · exact hall.2.2.1 p hp
    · exact (hall.2.2.1 p hp).trans (hall.2.2.2 q hq)

theorem path_append (fs : List (Frame κ α)) :
    path key t fs = ((path key t []).1, (path key t []).2 ++ fs) := by
  induction t generalizing fs with
  | null => rfl
  | node k v l r h ihl ihr =>
    rw [path, path]
    split_ifs
    · rfl
    · rw [ihr, ihr [_]]
      simp
    · rw [ihl, ihl [_]]
      simp

/-- The descent ends at the node with the key or at an empty tree. -/
theorem path_end (key : κ) (t : Treenode κ α) (fs : List (Frame κ α)) :
    (path key t fs).1 = null ∨ ∃ v l r h, (path key t fs).1 = node key v l r h := by
  induction t generalizing fs with
  | null => exact .inl rfl
  | node k v l r h ihl ihr =>
    rw [path]
    split_ifs with heq
    · exact .inr ⟨v, l, r, h, by rw [heq]⟩
    · exact ihr _
    · exact ihl _

theorem path_balanced (key : κ) (fs : List (Frame κ α)) (ht : t.Balanced) (hfs : Fits t.height fs) :
    (path key t fs).1.Balanced ∧ Fits (path key t fs).1.height (path key t fs).2 := by
  induction t generalizing fs with
  | null => exact ⟨ht, hfs⟩
  | node k v l r h ihl ihr =>
    rw [path]
    split_ifs
    · exact ⟨ht, hfs⟩
    · exact ihr _ ht.2.1 ⟨rfl, ht, rfl, hfs⟩
    · exact ihl _ ht.1 ⟨rfl, ht, rfl, hfs⟩

theorem length_path (key : κ) (ht : t.Balanced) (fs : List (Frame κ α)) :
    (path key t fs).2.length ≤ fs.length + t.height := by
  induction t generalizing fs with
  | null => exact Nat.le_add_right _ _
  | node k v l r h ihl ihr =>
    obtain ⟨hl, hr, -, -, hmax⟩ := ht
    rw [path]
    split_ifs
    · exact Nat.le_add_right _ _
    · have hlen := ihr hr (⟨node k v l r h, true⟩ :: fs)
      rw [List.length_cons] at hlen
      rw [height]
      omega
    · have hlen := ihl hl (⟨node k v l r h, false⟩ :: fs)
      rw [List.length_cons] at hlen
      rw [height]
      omega

/-- What stands around the place of the key: before it smaller keys, behind it larger ones. -/
theorem path_contents (key : κ) (ht : t.Ordered) : ∃ before after,
    (∀ p ∈ before, p.1 < key) ∧ (∀ p ∈ after, key < p.1) ∧
      t.toList = before ++ (path key t []).1.toList ++ after ∧
      ∀ c, (reassemble c (path key t []).2).toList = before ++ c.toList ++ after := by
  induction t with
  | null => exact ⟨[], [], by simp, by simp, rfl, fun c => by simp [path, reassemble]⟩
  | node k v l r h ihl ihr =>
    obtain ⟨hl, hr, hlk, hkr⟩ := ordered_node.mp ht
    rw [path]
    split_ifs with heq hlt
    · exact ⟨[], [], by simp, by simp, by simp, fun c => by simp [reassemble]⟩
    · obtain ⟨before, after, hbefore, hafter, hlist, hre⟩ := ihr hr
      rw [path_append]
      refine ⟨l.toList ++ (k, v) :: before, after, ?_, hafter, by simp [toList, hlist], ?_⟩
      · intro p hp
        rcases List.mem_append.mp hp with hp | hp
        · exact (hlk p hp).trans hlt
        · rcases List.mem_cons.mp hp with rfl | hp
          · exact hlt
          · exact hbefore p hp
      · intro c
        rw [reassemble_append]
        simp [reassemble, Frame.plug, withChild, toList, hre]
    · have hgt : key < k := lt_of_le_of_ne (not_lt.mp hlt) heq
      obtain ⟨before, after, hbefore, hafter, hlist, hre⟩ := ihl hl
      rw [path_append]
      refine ⟨before, after ++ (k, v) :: r.toList, hbefore, ?_, by simp [toList, hlist], ?_⟩
      · intro p hp
        rcases List.mem_append.mp hp with hp | hp
        · exact hafter p hp
        · rcases List.mem_cons.mp hp with rfl | hp
          · exact hgt
          · exact hgt.trans (hkr p hp)
      · intro c
        rw [reassemble_append]
        simp [reassemble, Frame.plug, withChild, toList, hre]

/-! ### Searching -/

theorem lookup_eq_none {l : List (κ × α)} (hl : ∀ p ∈ l, p.1 ≠ key) : l.lookup key = none := by
  rw [List.lookup_eq_none_iff]
  intro p hp
  simpa using (hl p hp).symm

theorem lookup_middle {before after : List (κ × α)} (hbefore : ∀ p ∈ before, p.1 < k) :
    (before ++ (k, v) :: after).lookup key =
      if key = k then some v else (before ++ after).lookup key := by
  rw [List.lookup_append, List.lookup_cons, List.lookup_append]
  split_ifs with heq
  · subst heq
    rw [lookup_eq_none fun p hp => (hbefore p hp).ne, beq_self_eq_true]
    rfl
  · rw [beq_false_of_ne heq]

/-- A search finds what the list of the contents holds. -/
theorem treefind_eq_lookup (ht : t.Ordered) : treefind key t = t.toList.lookup key := by
  induction t with
  | null => rfl
  | node k v l r h ihl ihr =>
    obtain ⟨hl, hr, hlk, hkr⟩ := ordered_node.mp ht
    rw [treefind, toList, lookup_middle hlk, List.lookup_append]
    split_ifs with heq hlt
    · rfl
    · rw [lookup_eq_none fun p hp => ((hlk p hp).trans hlt).ne, ihr hr]
      rfl
    · have hgt : key < k := lt_of_le_of_ne (not_lt.mp hlt) heq
      rw [ihl hl, lookup_eq_none fun p hp => (hgt.trans (hkr p hp)).ne', Option.or_none]

end

/-! ### The height -/

/-- A balanced tree of a height has as many nodes as the Fibonacci numbers say. -/
theorem fib_le_length (ht : t.Balanced) : Nat.fib (t.height + 2) ≤ t.toList.length + 1 := by
  induction t with
  | null => exact Nat.le_refl 1
  | node k v l r h ihl ihr =>
    obtain ⟨hl, hr, hlr, hrl, hmax⟩ := ht
    have hfl := ihl hl
    have hfr := ihr hr
    have hstep : Nat.fib (h + 2) ≤ Nat.fib (l.height + 2) + Nat.fib (r.height + 2) := by
      rw [Nat.fib_add_two, hmax]
      rcases Nat.le_total l.height r.height with hle | hle
      · rw [max_eq_right hle]
        exact Nat.add_le_add (Nat.fib_mono (by omega)) (Nat.fib_mono (by omega))
      · rw [max_eq_left hle, Nat.add_comm]
        exact Nat.add_le_add (Nat.fib_mono (by omega)) (Nat.fib_mono (by omega))
    rw [toList, List.length_append, List.length_cons]
    exact hstep.trans (by omega)

/-- A tree whose nodes have different addresses fits the array. -/
theorem height_lt_maxh (ht : t.Balanced) (hsize : t.toList.length < 2 ^ 64) :
    t.height < maxh := by
  by_contra hge
  have hfib : Nat.fib 98 ≤ Nat.fib (t.height + 2) := Nat.fib_mono (by simp [maxh] at hge; omega)
  have hbig : 2 ^ 64 + 1 ≤ Nat.fib 98 := by decide +kernel
  have := fib_le_length ht
  omega

/-! ### Runs of insertions -/

section

variable [LinearOrder κ] {key : κ} {value : α}

/-- What every insertion keeps: the tree is balanced and ordered, and its contents are those of the
association list. -/
structure Stands (t : Treenode κ α) (tree : List (κ × α)) : Prop where
  balanced : t.Balanced
  ordered : t.Ordered
  find : ∀ key, treefind key t = Manifest.treefind tree key

theorem ordered_middle {before after : List (κ × α)} (hbefore : ∀ p ∈ before, p.1 < key)
    (hafter : ∀ p ∈ after, key < p.1)
    (hrest : (before ++ after).Pairwise fun a b => a.1 < b.1) :
    (before ++ (key, value) :: after).Pairwise fun a b => a.1 < b.1 := by
  rw [List.pairwise_append] at hrest ⊢
  refine ⟨hrest.1, List.pairwise_cons.mpr ⟨hafter, hrest.2.1⟩, ?_⟩
  intro p hp q hq
  rcases List.mem_cons.mp hq with rfl | hq
  · exact hbefore p hp
  · exact hrest.2.2 p hp q hq

theorem pairwise_middle {before after : List (κ × α)}
    (hall : (before ++ (key, value) :: after).Pairwise fun a b => a.1 < b.1) :
    (∀ p ∈ before, p.1 < key) ∧ (∀ p ∈ after, key < p.1) ∧
      (before ++ after).Pairwise fun a b => a.1 < b.1 := by
  have hsub : (before ++ after).Sublist (before ++ (key, value) :: after) :=
    (List.sublist_cons_self _ _).append_left _
  have hrest := hall.sublist hsub
  rw [List.pairwise_append] at hall
  exact ⟨fun p hp => hall.2.2 p hp _ List.mem_cons_self, (List.pairwise_cons.mp hall.2.1).1, hrest⟩

theorem Stands.replace {t' : Treenode κ α} {tree before after : List (κ × α)} (ht : t.Stands tree)
    (hbal : t'.Balanced) (hlist : t'.toList = before ++ (key, value) :: after)
    (hbefore : ∀ p ∈ before, p.1 < key) (hafter : ∀ p ∈ after, key < p.1)
    (hrest : (before ++ after).Pairwise fun a b => a.1 < b.1)
    (hother : ∀ k, k ≠ key → t.toList.lookup k = (before ++ after).lookup k) :
    t'.Stands (Manifest.treeinsert tree key value) := by
  have hord : t'.Ordered := by
    rw [Ordered, hlist]
    exact ordered_middle hbefore hafter hrest
  refine ⟨hbal, hord, ?_⟩
  intro k
  rw [Manifest.treefind_treeinsert, treefind_eq_lookup hord, hlist, lookup_middle hbefore]
  by_cases heq : k = key
  · rw [if_pos heq, if_pos heq]
  · rw [if_neg heq, if_neg heq, ← ht.find, treefind_eq_lookup ht.ordered, hother k heq]

/-- An insertion gives the old value, and replaces or adds one. -/
theorem treeinsert_spec (key : κ) (value : α) {tree : List (κ × α)} (ht : t.Stands tree)
    (hsize : t.toList.length < 2 ^ 64) : ∃ t',
      treeinsert key value t = some (Manifest.treefind tree key, t') ∧
        t'.Stands (Manifest.treeinsert tree key value) ∧
        t'.toList.length ≤ t.toList.length + 1 := by
  obtain ⟨before, after, hbefore, hafter, hlist, hre⟩ := path_contents key ht.ordered
  obtain ⟨hbal, hfits⟩ := path_balanced key [] ht.balanced trivial
  have hlen := length_path key ht.balanced []
  have hmaxh := height_lt_maxh ht.balanced hsize
  have hroom : ¬maxh < (path key t []).2.length + 1 := by
    rw [List.length_nil] at hlen
    omega
  have hord := ht.ordered
  rw [Ordered, hlist] at hord
  rw [treeinsert, if_neg hroom, ← ht.find, treefind_eq_lookup ht.ordered, hlist]
  rcases path_end key t [] with hend | ⟨v, l, r, h, hend⟩
  case inl =>
    rw [hend] at hfits hlist hord
    simp only [toList, List.append_nil] at hlist hord
    have hleaf : (node key value null null 1).Balanced :=
      ⟨trivial, trivial, Nat.zero_le _, Nat.zero_le _, rfl⟩
    obtain ⟨t', hclimb, hb, hl⟩ := climb_spec hfits hleaf rfl
    rw [hre] at hl
    have hl' : t'.toList = before ++ (key, value) :: after := by simpa [toList] using hl
    have hold : (before ++ after).lookup key = none := by
      apply lookup_eq_none
      intro p hp
      rcases List.mem_append.mp hp with hp | hp
      · exact (hbefore p hp).ne
      · exact (hafter p hp).ne'
    refine ⟨t', by simp [hend, hclimb, hold, toList],
      ht.replace hb hl' hbefore hafter hord fun k _ => hlist ▸ rfl, ?_⟩
    simp only [hl', hend, toList, List.length_append, List.length_cons, List.length_nil]
    omega
  case inr =>
    have hmid : ∀ w : α, before ++ (node key w l r h).toList ++ after =
        (before ++ l.toList) ++ (key, w) :: (r.toList ++ after) := by
      intro w
      simp [toList]
    rw [hend] at hfits hbal
    rw [hend, hmid] at hlist hord
    obtain ⟨hbefore', hafter', hrest⟩ := pairwise_middle hord
    have hl' := (hre (node key value l r h)).trans (hmid value)
    have hb : (reassemble (node key value l r h) (path key t []).2).Balanced :=
      balanced_reassemble hfits (c := node key value l r h) hbal rfl
    refine ⟨reassemble (node key value l r h) (path key t []).2, ?_,
      ht.replace hb hl' hbefore' hafter' hrest ?_, ?_⟩
    · rw [hend, hmid, lookup_middle hbefore', if_pos rfl]
    · intro k hk
      rw [hlist, lookup_middle hbefore', if_neg hk]
    · simp only [hl', hend, hmid, List.length_append, List.length_cons]
      omega

/-- The insertions of a list of keys and values, with the old values. -/
def treeinserts : List (κ × α) → Treenode κ α → Option (List (Option α) × Treenode κ α)
  | [], t => some ([], t)
  | (key, value) :: kvs, t => (treeinsert key value t).bind fun r =>
    (treeinserts kvs r.2).map fun s => (r.1 :: s.1, s.2)

/-- The same for association lists. -/
def listinserts : List (κ × α) → List (κ × α) → List (Option α) × List (κ × α)
  | [], tree => ([], tree)
  | (key, value) :: kvs, tree =>
    let s := listinserts kvs (Manifest.treeinsert tree key value)
    (Manifest.treefind tree key :: s.1, s.2)

theorem treeinserts_spec (kvs : List (κ × α)) {tree : List (κ × α)} (ht : t.Stands tree)
    (hsize : t.toList.length + kvs.length ≤ 2 ^ 64) : ∃ t',
      treeinserts kvs t = some ((listinserts kvs tree).1, t') ∧
        t'.Stands (listinserts kvs tree).2 ∧ t'.toList.length ≤ t.toList.length + kvs.length := by
  induction kvs generalizing t tree with
  | nil => exact ⟨t, rfl, ht, Nat.le_refl _⟩
  | cons kv kvs ih =>
    obtain ⟨key, value⟩ := kv
    rw [List.length_cons] at hsize ⊢
    obtain ⟨t₁, hinsert, ht₁, hlen₁⟩ := treeinsert_spec key value ht (by omega)
    obtain ⟨t', hrun, ht', hlen'⟩ := ih ht₁ (by omega)
    refine ⟨t', ?_, ht', by omega⟩
    rw [treeinserts, hinsert, Option.bind_some, hrun]
    rfl

/-- Insertions into the empty tree never outgrow the array and never follow a null pointer. They
return the old values, the tree stays balanced and ordered and no higher than the Fibonacci numbers
allow, and searches find what the last insertion of a key has stored. -/
theorem tree_refines (kvs : List (κ × α)) (hsize : kvs.length ≤ 2 ^ 64) : ∃ t : Treenode κ α,
    treeinserts kvs null = some ((listinserts kvs []).1, t) ∧ t.Balanced ∧ t.Ordered ∧
      Nat.fib (t.height + 2) ≤ kvs.length + 1 ∧
      ∀ key, treefind key t = Manifest.treefind (listinserts kvs []).2 key := by
  have hempty : (null : Treenode κ α).Stands [] := ⟨trivial, .nil, fun _ => rfl⟩
  obtain ⟨t, hrun, ht, hlen⟩ := treeinserts_spec kvs hempty (by simpa [toList] using hsize)
  rw [toList, List.length_nil, Nat.zero_add] at hlen
  exact ⟨t, hrun, ht.balanced, ht.ordered,
    (fib_le_length ht.balanced).trans (Nat.succ_le_succ hlen), ht.find⟩

end

/-- Five keys in ascending order. -/
theorem tree_refines_five : ∃ t : Treenode ℕ ℕ,
    treeinserts [(1, 1), (2, 2), (3, 3), (4, 4), (5, 5)] null =
        some ((listinserts [(1, 1), (2, 2), (3, 3), (4, 4), (5, 5)] []).1, t) ∧
      t.Balanced ∧ t.Ordered ∧ Nat.fib (t.height + 2) ≤ 5 + 1 ∧
      ∀ key, treefind key t =
        Manifest.treefind (listinserts [(1, 1), (2, 2), (3, 3), (4, 4), (5, 5)] []).2 key :=
  tree_refines [(1, 1), (2, 2), (3, 3), (4, 4), (5, 5)] (by decide)

end Bootsh.Samu.Treenode
