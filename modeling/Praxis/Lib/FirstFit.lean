import Mathlib.Data.Finset.Max
import Mathlib.Data.Finset.Lattice.Fold
import Mathlib.Data.Finset.Sort
import Mathlib.Data.List.Sort
import Mathlib.Order.Interval.Finset.Nat
import Mathlib.Order.Lattice.Nat
import Mathlib.Tactic.Push
import Mathlib.Tactic.SplitIfs

/-!
# First-fit colouring

The vertices `0, 1, 2, …` are taken in order and each is put in the first class that holds none of
its neighbours, or in a new one. The class a vertex gets is its `colour`: the least number that no
earlier neighbour has. The classes after `n` vertices are the vertices of each colour
(`firstFit_eq_classes`), so what first fit does is read off `colour`.

Along an edge the colour need not grow: it does on every edge exactly when each vertex has an
earlier neighbour at each depth below its own (`increasing_iff`), where the depth is the length of
the longest ascending path that ends at the vertex.
-/

namespace FirstFit

/-- The least number not in `s`. -/
def mex (s : Finset ℕ) : ℕ := Nat.find (Infinite.exists_notMem_finset s)

theorem mex_notMem (s : Finset ℕ) : mex s ∉ s := Nat.find_spec (Infinite.exists_notMem_finset s)

theorem mem_of_lt_mex {s : Finset ℕ} {c : ℕ} (h : c < mex s) : c ∈ s := by
  by_contra hc
  exact Nat.find_min (Infinite.exists_notMem_finset s) h hc

variable (R : ℕ → ℕ → Prop) [DecidableRel R]

/-- The class that takes `i`: the first with no neighbour of `i`, or a new one. -/
def place (classes : List (List ℕ)) (i : ℕ) : List (List ℕ) :=
  match classes.findIdx? fun c => decide (∀ j ∈ c, ¬ R i j) with
  | some k => classes.modify k (· ++ [i])
  | none => classes ++ [[i]]

/-- The classes after the first `n` vertices. -/
def firstFit (n : ℕ) : List (List ℕ) := (List.range n).foldl (place R) []

/-- The least number that no earlier neighbour has. -/
def colour (j : ℕ) : ℕ :=
  mex ((Finset.range j).attach.biUnion fun k => if R j k.1 then {colour k.1} else ∅)
termination_by j
decreasing_by exact Finset.mem_range.1 k.2

/-- The length of the longest ascending path that ends at `j`. -/
def depth (j : ℕ) : ℕ :=
  (Finset.range j).attach.sup fun k => if R j k.1 then depth k.1 + 1 else 0
termination_by j
decreasing_by exact Finset.mem_range.1 k.2

/-- The number of colours of the first `n` vertices. -/
def width (n : ℕ) : ℕ := (Finset.range n).sup fun j => colour R j + 1

/-- The first `n` vertices by colour. -/
def classes (n : ℕ) : List (List ℕ) :=
  (List.range (width R n)).map fun c => (List.range n).filter fun j => colour R j = c

section Colour

variable {R}

theorem colour_ne {j k : ℕ} (hk : k < j) (h : R j k) : colour R k ≠ colour R j := by
  intro he
  have hn := mex_notMem ((Finset.range j).attach.biUnion
    fun k => if R j k.1 then {colour R k.1} else ∅)
  rw [← colour, ← he] at hn
  refine hn (Finset.mem_biUnion.2 ⟨⟨k, Finset.mem_range.2 hk⟩, Finset.mem_attach _ _, ?_⟩)
  rw [if_pos h]
  exact Finset.mem_singleton_self _

theorem exists_of_lt_colour {j c : ℕ} (h : c < colour R j) :
    ∃ k < j, R j k ∧ colour R k = c := by
  rw [colour] at h
  obtain ⟨k, -, hc⟩ := Finset.mem_biUnion.1 (mem_of_lt_mex h)
  split_ifs at hc with hR
  · exact ⟨k.1, Finset.mem_range.1 k.2, hR, (Finset.mem_singleton.1 hc).symm⟩
  · simp at hc

/-- The colour of `j` is the one number no earlier neighbour has while they have all below it. -/
theorem colour_eq {j c : ℕ} (hne : ∀ k < j, R j k → colour R k ≠ c)
    (hlt : ∀ d < c, ∃ k < j, R j k ∧ colour R k = d) : colour R j = c := by
  rcases lt_trichotomy (colour R j) c with h | h | h
  · obtain ⟨k, hk, hR, he⟩ := hlt _ h
    exact absurd he (colour_ne hk hR)
  · exact h
  · obtain ⟨k, hk, hR, he⟩ := exists_of_lt_colour h
    exact absurd he (hne k hk hR)

/-- The colours of the vertices in `P` are those of their images when the images have the same
earlier neighbours and no others. -/
theorem colour_transport {S : ℕ → ℕ → Prop} [DecidableRel S] {f : ℕ → ℕ} {P : ℕ → Prop}
    (hinto : ∀ j, P j → ∀ i < j, S j i → P i ∧ f i < f j ∧ R (f j) (f i))
    (honto : ∀ j, P j → ∀ k < f j, R (f j) k → ∃ i < j, S j i ∧ f i = k) (j : ℕ) (hj : P j) :
    colour R (f j) = colour S j := by
  induction j using Nat.strong_induction_on with
  | _ j ih =>
    refine colour_eq (fun k hk hR => ?_) fun d hd => ?_
    · obtain ⟨i, hi, hS, rfl⟩ := honto j hj k hk hR
      rw [ih i hi (hinto j hj i hi hS).1]
      exact colour_ne hi hS
    · obtain ⟨i, hi, hS, he⟩ := exists_of_lt_colour hd
      obtain ⟨hPi, hlt, hR⟩ := hinto j hj i hi hS
      exact ⟨f i, hlt, hR, by rw [ih i hi hPi, he]⟩

/-- Each colour below that of `j` is taken by a neighbour of its own. -/
theorem colour_le_card (j : ℕ) :
    colour R j ≤ ((Finset.range j).filter fun k => R j k).card := by
  classical
  have hsub : Finset.range (colour R j)
      ⊆ ((Finset.range j).filter fun k => R j k).image (colour R) := by
    intro c hc
    obtain ⟨k, hk, hR, rfl⟩ := exists_of_lt_colour (Finset.mem_range.1 hc)
    exact Finset.mem_image_of_mem _ (Finset.mem_filter.2 ⟨Finset.mem_range.2 hk, hR⟩)
  calc colour R j = (Finset.range (colour R j)).card := (Finset.card_range _).symm
    _ ≤ _ := Finset.card_le_card hsub
    _ ≤ _ := Finset.card_image_le

/-- A neighbour of all earlier neighbours of an earlier vertex, and of the vertex itself, gets a
higher colour than it. -/
theorem colour_lt_of_subset {i j : ℕ} (hij : i < j) (hR : R j i) (hsub : ∀ k < i, R i k → R j k) :
    colour R i < colour R j := by
  refine lt_of_le_of_ne (not_lt.1 fun hlt => ?_) (colour_ne hij hR)
  obtain ⟨k, hk, hik, he⟩ := exists_of_lt_colour hlt
  exact colour_ne (hk.trans hij) (hsub k hk hik) he

theorem colour_lt_width {n j : ℕ} (h : j < n) : colour R j < width R n :=
  Finset.le_sup (f := fun j => colour R j + 1) (Finset.mem_range.2 h)

theorem exists_of_lt_width {n c : ℕ} (h : c < width R n) : ∃ j < n, colour R j = c := by
  obtain ⟨j, hj, hc⟩ := (Finset.lt_sup_iff).1 h
  rw [Finset.mem_range] at hj
  rcases Nat.lt_or_ge c (colour R j) with hlt | hge
  · obtain ⟨k, hk, -, he⟩ := exists_of_lt_colour hlt
    exact ⟨k, hk.trans hj, he⟩
  · exact ⟨j, hj, by omega⟩

theorem width_succ (n : ℕ) : width R (n + 1) = max (colour R n + 1) (width R n) := by
  unfold width
  rw [Finset.range_add_one, Finset.sup_insert]

theorem colour_le_width (n : ℕ) : colour R n ≤ width R n := by
  by_contra h
  obtain ⟨k, hk, -, he⟩ := exists_of_lt_colour (not_le.1 h)
  have := colour_lt_width (R := R) hk
  omega

end Colour

section Classes

variable {R}

theorem classes_length (n : ℕ) : (classes R n).length = width R n := by simp [classes]

theorem classes_getElem? {n c : ℕ} (h : c < width R n) :
    (classes R n)[c]? = some ((List.range n).filter fun j => colour R j = c) := by
  simp [classes, h]

theorem mem_classes {n : ℕ} {g : List ℕ} :
    g ∈ classes R n ↔ ∃ c < width R n, g = (List.range n).filter fun j => colour R j = c := by
  simp only [classes, List.mem_map, List.mem_range]
  exact ⟨fun ⟨c, hc, h⟩ => ⟨c, hc, h.symm⟩, fun ⟨c, hc, h⟩ => ⟨c, hc, h.symm⟩⟩

/-- A class takes `n` exactly when its colour is none of the earlier neighbours'. -/
theorem free_iff {n c : ℕ} :
    (∀ j ∈ (List.range n).filter fun j => colour R j = c, ¬ R n j)
      ↔ ∀ j < n, R n j → colour R j ≠ c := by
  simp only [List.mem_filter, List.mem_range, decide_eq_true_eq]
  exact ⟨fun h j hj hR he => h j ⟨hj, he⟩ hR, fun h j hj hR => h j hj.1 hR hj.2⟩

theorem findIdx?_classes (n : ℕ) :
    (classes R n).findIdx? (fun c => decide (∀ j ∈ c, ¬ R n j))
      = if colour R n < width R n then some (colour R n) else none := by
  have hfree : ∀ c (h : c < (classes R n).length), decide (∀ j ∈ (classes R n)[c], ¬ R n j) = true
      ↔ ∀ j < n, R n j → colour R j ≠ c := by
    intro c h
    rw [decide_eq_true_eq, ← free_iff]
    simp [classes]
  split_ifs with h
  · rw [List.findIdx?_eq_some_iff_getElem]
    refine ⟨by rwa [classes_length], ?_, fun c hc => ?_⟩
    · exact (hfree _ _).2 fun j hj hR => colour_ne hj hR
    · rw [hfree]
      intro hall
      obtain ⟨k, hk, hR, he⟩ := exists_of_lt_colour hc
      exact hall k hk hR he
  · rw [List.findIdx?_eq_none_iff]
    intro g hg
    obtain ⟨c, hc, rfl⟩ := mem_classes.1 hg
    rw [decide_eq_false_iff_not, free_iff]
    intro hall
    obtain ⟨k, hk, hR, he⟩ := exists_of_lt_colour (R := R) (j := n) (c := c) (by omega)
    exact hall k hk hR he

theorem filter_range_succ (n c : ℕ) :
    ((List.range (n + 1)).filter fun j => colour R j = c)
      = ((List.range n).filter fun j => colour R j = c) ++ if colour R n = c then [n] else [] := by
  rw [List.range_succ, List.filter_append]
  congr 1
  by_cases h : colour R n = c <;> simp [h]

/-- Placing the next vertex turns the classes of `n` vertices into those of `n + 1`. -/
theorem place_classes (n : ℕ) : place R (classes R n) n = classes R (n + 1) := by
  unfold place
  rw [findIdx?_classes]
  by_cases h : colour R n < width R n
  · rw [if_pos h]
    have hw : width R (n + 1) = width R n := by rw [width_succ]; omega
    refine List.ext_getElem? fun c => ?_
    rw [List.getElem?_modify]
    by_cases hc : c < width R n
    · rw [classes_getElem? hc, classes_getElem? (by rwa [hw]), filter_range_succ]
      by_cases he : colour R n = c <;> simp [he]
    · have hlen : ∀ m, width R m = width R n → (classes R m)[c]? = none := by
        intro m hm
        rw [List.getElem?_eq_none_iff, classes_length]
        omega
      rw [hlen _ rfl, hlen _ hw]
      rfl
  · rw [if_neg h]
    have he : colour R n = width R n := le_antisymm (colour_le_width n) (not_lt.1 h)
    have hw : width R (n + 1) = width R n + 1 := by rw [width_succ]; omega
    have hnone : ((List.range n).filter fun j => colour R j = width R n) = [] := by
      rw [List.filter_eq_nil_iff]
      intro j hj
      have := colour_lt_width (R := R) (List.mem_range.1 hj)
      simp only [decide_eq_true_eq]
      omega
    have hkeep : (List.range (width R n)).map
          (fun c => (List.range (n + 1)).filter fun j => colour R j = c) = classes R n := by
      refine List.map_congr_left fun c hc => ?_
      rw [filter_range_succ, if_neg (by have := List.mem_range.1 hc; omega), List.append_nil]
    conv_rhs => rw [classes, hw, @List.range_succ (width R n), List.map_append, hkeep]
    simp [filter_range_succ, hnone, he]

theorem firstFit_eq_classes : ∀ n : ℕ, firstFit R n = classes R n
  | 0 => by simp [firstFit, classes, width]
  | n + 1 => by
    have ih := firstFit_eq_classes n
    unfold firstFit at ih ⊢
    rw [List.range_succ, List.foldl_append, ih]
    exact place_classes n

theorem classes_ne_nil {n : ℕ} {g : List ℕ} (h : g ∈ classes R n) : g ≠ [] := by
  obtain ⟨c, hc, rfl⟩ := mem_classes.1 h
  obtain ⟨j, hj, he⟩ := exists_of_lt_width hc
  exact List.ne_nil_of_mem (List.mem_filter.2 ⟨List.mem_range.2 hj, by simpa using he⟩)

theorem classes_ascending {n : ℕ} {g : List ℕ} (h : g ∈ classes R n) : g.Pairwise (· < ·) := by
  obtain ⟨c, hc, rfl⟩ := mem_classes.1 h
  exact List.pairwise_lt_range.filter _

theorem classes_flatten_nodup (n : ℕ) : (classes R n).flatten.Nodup := by
  rw [List.nodup_flatten]
  refine ⟨fun g hg => (classes_ascending hg).imp fun h => ne_of_lt h, ?_⟩
  rw [classes, List.pairwise_map]
  refine List.pairwise_lt_range.imp fun {c d} hcd => ?_
  intro j hj hj'
  simp only [List.mem_filter, decide_eq_true_eq] at hj hj'
  omega

theorem mem_classes_flatten {n j : ℕ} : j ∈ (classes R n).flatten ↔ j < n := by
  simp only [List.mem_flatten, mem_classes]
  constructor
  · rintro ⟨g, ⟨c, -, rfl⟩, hj⟩
    exact List.mem_range.1 (List.mem_filter.1 hj).1
  · intro hj
    exact ⟨_, ⟨colour R j, colour_lt_width hj, rfl⟩,
      List.mem_filter.2 ⟨List.mem_range.2 hj, by simp⟩⟩

/-- Every vertex is in exactly one class. -/
theorem classes_perm (n : ℕ) : (classes R n).flatten.Perm (List.range n) := by
  refine (List.perm_ext_iff_of_nodup (classes_flatten_nodup n) List.nodup_range).2 fun j => ?_
  rw [mem_classes_flatten, List.mem_range]

end Classes

/-! ## Order along edges -/

section Order

variable {R}

/-- The colour grows along every edge among the first `n` vertices. -/
def Increasing (R : ℕ → ℕ → Prop) [DecidableRel R] (n : ℕ) : Prop :=
  ∀ j < n, ∀ i < j, R j i → colour R i < colour R j

/-- Every vertex has an earlier neighbour at each depth below its own. -/
def Stepped (R : ℕ → ℕ → Prop) [DecidableRel R] (n : ℕ) : Prop :=
  ∀ j < n, ∀ d < depth R j, ∃ k < j, R j k ∧ depth R k = d

theorem depth_lt {j k : ℕ} (hk : k < j) (h : R j k) : depth R k < depth R j := by
  conv_rhs => rw [depth]
  refine Nat.lt_of_succ_le (le_trans (le_of_eq ?_) (Finset.le_sup
    (f := fun k : { k // k ∈ Finset.range j } => if R j k.1 then depth R k.1 + 1 else 0)
    (Finset.mem_attach _ ⟨k, Finset.mem_range.2 hk⟩)))
  rw [if_pos h]

theorem depth_le {j m : ℕ} (h : ∀ k < j, R j k → depth R k < m) : depth R j ≤ m := by
  rw [depth]
  refine Finset.sup_le fun k _ => ?_
  split_ifs with hR
  · exact h k.1 (Finset.mem_range.1 k.2) hR
  · exact Nat.zero_le _

/-- Where the colour grows along every edge it is the depth. -/
theorem colour_eq_depth_of_increasing {n : ℕ} (h : Increasing R n) :
    ∀ j < n, colour R j = depth R j := by
  intro j
  induction j using Nat.strong_induction_on with
  | _ j ih =>
    intro hj
    refine colour_eq (fun k hk hR => ?_) fun d hd => ?_
    · rw [ih k hk (hk.trans hj)]
      exact (depth_lt hk hR).ne
    · have hle : depth R j ≤ colour R j :=
        depth_le fun k hk hR => by rw [← ih k hk (hk.trans hj)]; exact h j hj k hk hR
      exact exists_of_lt_colour (lt_of_lt_of_le hd hle)

theorem colour_eq_depth_of_stepped {n : ℕ} (h : Stepped R n) :
    ∀ j < n, colour R j = depth R j := by
  intro j
  induction j using Nat.strong_induction_on with
  | _ j ih =>
    intro hj
    refine colour_eq (fun k hk hR => ?_) fun d hd => ?_
    · rw [ih k hk (hk.trans hj)]
      exact (depth_lt hk hR).ne
    · obtain ⟨k, hk, hR, he⟩ := h j hj d hd
      exact ⟨k, hk, hR, by rw [ih k hk (hk.trans hj), he]⟩

theorem increasing_iff (n : ℕ) : Increasing R n ↔ Stepped R n := by
  constructor
  · intro h j hj d hd
    have hc := colour_eq_depth_of_increasing h
    rw [← hc j hj] at hd
    obtain ⟨k, hk, hR, he⟩ := exists_of_lt_colour hd
    exact ⟨k, hk, hR, by rw [← hc k (hk.trans hj), he]⟩
  · intro h j hj i hi hR
    have hc := colour_eq_depth_of_stepped h
    rw [hc j hj, hc i (hi.trans hj)]
    exact depth_lt hi hR

/-- Where being equal or neighbours is transitive the colour grows along every edge. -/
theorem increasing_of_trans {n : ℕ}
    (htr : ∀ i j k, i ≠ k → R i j → R j k → R i k) : Increasing R n := by
  intro j _ i hi hR
  exact colour_lt_of_subset hi hR fun k hk hik => htr j i k (hk.trans hi).ne' hR hik

/-- Pairs along which the colour grows come in order in the classes one after the other. -/
theorem flatten_pairwise_of_growing {n : ℕ} {Q : ℕ → ℕ → Prop}
    (h : ∀ j < n, ∀ i < j, Q j i → colour R i < colour R j) :
    (classes R n).flatten.Pairwise fun i j => Q i j → i < j := by
  rw [List.pairwise_flatten]
  refine ⟨fun g hg => (classes_ascending hg).imp fun {i j} hij (_ : Q i j) => hij, ?_⟩
  rw [classes, List.pairwise_map]
  refine List.pairwise_lt_range.imp fun {c d} hcd i hi j hj hQ => ?_
  simp only [List.mem_filter, List.mem_range, decide_eq_true_eq] at hi hj
  by_contra hji
  rcases Nat.lt_or_eq_of_le (not_lt.1 hji) with hlt | rfl
  · have := h i hi.1 j hlt hQ
    omega
  · omega

theorem flatten_pairwise_of_increasing {n : ℕ} (h : Increasing R n) :
    (classes R n).flatten.Pairwise fun i j => R i j → i < j := flatten_pairwise_of_growing h

/-- The classes one after the other list the vertices in order exactly when the colours never
fall. -/
theorem flatten_eq_range_iff (n : ℕ) :
    (classes R n).flatten = List.range n ↔ ∀ j < n, ∀ i ≤ j, colour R i ≤ colour R j := by
  constructor
  · intro h j hj i hij
    by_contra hlt
    rw [not_le] at hlt
    have hi : i < n := lt_of_le_of_lt hij hj
    have hsplit : (classes R n).flatten.Pairwise (· < ·) := h ▸ List.pairwise_lt_range
    have hpw := (List.pairwise_flatten.1 hsplit).2
    rw [classes, List.pairwise_map] at hpw
    have hcd : (List.range (width R n)).Pairwise fun c d =>
        c ∈ List.range (width R n) ∧ d ∈ List.range (width R n) ∧ c < d := by
      exact List.Pairwise.and_mem.1 List.pairwise_lt_range
    have hall := List.pairwise_iff_getElem.1 hpw (colour R j) (colour R i)
      (by simpa using colour_lt_width hj) (by simpa using colour_lt_width hi) hlt
    have := hall j (by simp [hj]) i (by simp [hi])
    omega
  · intro h
    have hpw : (classes R n).flatten.Pairwise (· < ·) := by
      rw [List.pairwise_flatten]
      refine ⟨fun g hg => classes_ascending hg, ?_⟩
      rw [classes, List.pairwise_map]
      refine List.pairwise_lt_range.imp fun {c d} hcd i hi j hj => ?_
      simp only [List.mem_filter, List.mem_range, decide_eq_true_eq] at hi hj
      by_contra hle
      have := h i hi.1 j (not_lt.1 hle)
      omega
    exact (classes_perm n).eq_of_pairwise' hpw List.pairwise_lt_range

/-- In terms of the graph alone: the vertices come in order of depth, and each has an earlier
neighbour at each depth below its own. -/
theorem flatten_eq_range_iff_depth (n : ℕ) :
    (classes R n).flatten = List.range n
      ↔ (∀ j < n, ∀ i ≤ j, depth R i ≤ depth R j) ∧ Stepped R n := by
  rw [flatten_eq_range_iff]
  constructor
  · intro h
    have hinc : Increasing R n := fun j hj i hi hR =>
      lt_of_le_of_ne (h j hj i hi.le) (colour_ne hi hR)
    have hc := colour_eq_depth_of_increasing hinc
    refine ⟨fun j hj i hij => ?_, (increasing_iff n).1 hinc⟩
    rw [← hc j hj, ← hc i (lt_of_le_of_lt hij hj)]
    exact h j hj i hij
  · rintro ⟨hmono, hstep⟩ j hj i hij
    have hc := colour_eq_depth_of_stepped hstep
    rw [hc j hj, hc i (lt_of_le_of_lt hij hj)]
    exact hmono j hj i hij

end Order

section Growing

variable {R} {n : ℕ} {b : ℕ → Bool}

/-- Of vertices whose colours grow, no class has two. -/
theorem countP_le_one (h : ∀ j < n, ∀ i < j, b i → b j → colour R i < colour R j) {g : List ℕ}
    (hg : g ∈ classes R n) : g.countP b ≤ 1 := by
  have hasc := (classes_ascending hg).filter b
  obtain ⟨c, -, rfl⟩ := mem_classes.1 hg
  rw [List.countP_eq_length_filter]
  rcases he : ((List.range n).filter fun j => colour R j = c).filter b with _ | ⟨i, _ | ⟨j, rest⟩⟩
  · simp
  · simp
  · rw [he] at hasc
    have hmem : ∀ k ∈ [i, j], k < n ∧ b k ∧ colour R k = c := fun k hk => by
      have : k ∈ i :: j :: rest := by
        simp only [List.mem_cons, List.not_mem_nil, or_false] at hk ⊢
        tauto
      rw [← he] at this
      simpa [and_assoc] using this
    obtain ⟨-, hbi, hi⟩ := hmem i (by simp)
    obtain ⟨hj, hbj, hjc⟩ := hmem j (by simp)
    have := h j hj i ((List.pairwise_cons.1 hasc).1 j (by simp)) hbi hbj
    omega

/-- Such vertices come in order in the classes one after the other. -/
theorem flatten_filter_eq (h : ∀ j < n, ∀ i < j, b i → b j → colour R i < colour R j) :
    (classes R n).flatten.filter b = (List.range n).filter b := by
  have hpw : ((classes R n).flatten.filter b).Pairwise (· < ·) := by
    rw [List.pairwise_filter]
    exact (flatten_pairwise_of_growing (Q := fun i j => b i ∧ b j)
      fun j hj i hi hb => h j hj i hi hb.2 hb.1).imp fun hij hi hj => hij ⟨hi, hj⟩
  exact ((classes_perm n).filter b).eq_of_pairwise' hpw (List.pairwise_lt_range.filter b)

end Growing

end FirstFit
