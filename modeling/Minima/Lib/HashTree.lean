import Minima.Lib.MountainRange

/-! # Climbing a tree of hashes

A proof leads from a label up along a list of siblings, each with the side it stands on. Whoever makes
the proof chooses the siblings. Where every label of a mountain range determines the two below it, and
no leaf is a join, a climb that ends at the label of a node was one through the tree: it began at a leaf
under the node, and its siblings are those of the tree.

The climb may go on over the peaks, to a label that was joined from them.

* **`Climbs`** — a climb, **`Rigid`** — the labels determine those below, **`Bagged`** — joined from peaks.
* **`Rigid.climbs_node`** — a climb that ends at a node.
* **`Bagged.climbs`** — a climb that ends at or above the peaks. -/

namespace MountainRange

variable {A : Type*} {J : A → A → A → Prop}

/-- A climb from a label along siblings: `true` for one on the left. -/
def Climbs (J : A → A → A → Prop) : A → List (Bool × A) → A → Prop
  | a, [], top => a = top
  | a, (isLeft, s) :: steps, top =>
    ∃ p, (if isLeft then J s a p else J a s p) ∧ Climbs J p steps top

@[simp] theorem climbs_nil {a top : A} : Climbs J a [] top ↔ a = top := Iff.rfl

theorem climbs_cons {a s top : A} {isLeft : Bool} {steps : List (Bool × A)} :
    Climbs J a ((isLeft, s) :: steps) top ↔
      ∃ p, (if isLeft then J s a p else J a s p) ∧ Climbs J p steps top := Iff.rfl

/-- The last step of a climb. -/
theorem climbs_concat {a s top : A} {isLeft : Bool} {steps : List (Bool × A)} :
    Climbs J a (steps ++ [(isLeft, s)]) top ↔
      ∃ q, Climbs J a steps q ∧ if isLeft then J s q top else J q s top := by
  induction steps generalizing a with
  | nil =>
    constructor
    · rintro ⟨p, hp, rfl⟩
      exact ⟨a, rfl, hp⟩
    · rintro ⟨q, rfl, hq⟩
      exact ⟨top, hq, rfl⟩
  | cons step steps ih =>
    obtain ⟨side, b⟩ := step
    rw [List.cons_append, climbs_cons]
    constructor
    · rintro ⟨p, hp, hrest⟩
      obtain ⟨q, hq, hlast⟩ := ih.mp hrest
      exact ⟨q, ⟨p, hp, hq⟩, hlast⟩
    · rintro ⟨q, ⟨p, hp, hq⟩, hlast⟩
      exact ⟨p, hp, ih.mpr ⟨q, hq, hlast⟩⟩

/-- **The labels determine those below:** a node was joined from its two children only, and a leaf was
not joined. -/
structure Rigid (J : A → A → A → Prop) (n : ℕ) (f : ℕ → ℕ → A) : Prop where
  joined : Labelling J n f
  leaf : ∀ k < n, ∀ x y, ¬ J x y (f 0 k)
  join : ∀ r k, Complete n (r + 1) k → ∀ x y, J x y (f (r + 1) k) → x = f r (2 * k) ∧ y = f r (2 * k + 1)

/-- Side and label of the sibling of the row-`i` ancestor of leaf `e`. -/
def stepAt (f : ℕ → ℕ → A) (e i : ℕ) : Bool × A :=
  (decide (sibling (e / 2 ^ i) % 2 = 0), f i (sibling (e / 2 ^ i)))

/-- Whatever the climb goes through up to row `r` is the ancestor of leaf `e` there. -/
def Along (J : A → A → A → Prop) (f : ℕ → ℕ → A) (e r : ℕ) (d : A) (steps : List (Bool × A)) (top : A) :
    Prop :=
  ∀ i ≤ r, ∀ q, Climbs J d (steps.take i) q → Climbs J q (steps.drop i) top → q = f i (e / 2 ^ i)

/-- One more step, which the label on top determines, keeps a climb on its path. -/
theorem Along.concat {f : ℕ → ℕ → A} {e r : ℕ} {d q s top : A} {steps : List (Bool × A)} {isLeft : Bool}
    (h : Along J f e r d steps q) (hr : r ≤ steps.length)
    (only : ∀ q', (if isLeft then J s q' top else J q' s top) → q' = q) :
    Along J f e r d (steps ++ [(isLeft, s)]) top := by
  intro i hi x hbelow habove
  rw [List.take_append_of_le_length (by omega)] at hbelow
  rw [List.drop_append_of_le_length (by omega), climbs_concat] at habove
  obtain ⟨q', hclimb, hjoin⟩ := habove
  exact h i hi x hbelow (only q' hjoin ▸ hclimb)

/-- **A climb from something that is not a join to a node** began at a leaf under the node, and went
along the siblings of the tree. -/
theorem Rigid.climbs_node {n : ℕ} {f : ℕ → ℕ → A} (hf : Rigid J n f) {d : A} (hd : ∀ x y, ¬ J x y d)
    {r : ℕ} : ∀ {k : ℕ} {steps : List (Bool × A)}, Complete n r k → Climbs J d steps (f r k) →
      ∃ e, e < n ∧ e / 2 ^ r = k ∧ d = f 0 e ∧ steps = (List.range r).map (stepAt f e) ∧
        Along J f e r d steps (f r k) := by
  induction r with
  | zero =>
    intro k steps hk h
    rw [complete_zero] at hk
    rcases List.eq_nil_or_concat steps with rfl | ⟨init, ⟨isLeft, s⟩, rfl⟩
    · refine ⟨k, hk, by simp, h, rfl, ?_⟩
      intro i hi q _ hq
      obtain rfl : i = 0 := by omega
      simpa using hq
    · -- a leaf was not joined
      rw [List.concat_eq_append, climbs_concat] at h
      obtain ⟨q, -, hq⟩ := h
      cases isLeft with
      | false => exact absurd hq (hf.leaf k hk q s)
      | true => exact absurd hq (hf.leaf k hk s q)
  | succ r ih =>
    intro k steps hk h
    obtain ⟨hl, hr⟩ := complete_children hk
    rcases List.eq_nil_or_concat steps with rfl | ⟨init, ⟨isLeft, s⟩, rfl⟩
    · -- what the climb starts with is not a join
      rw [climbs_nil] at h
      exact absurd (h ▸ hf.joined r k hk) (hd _ _)
    · rw [List.concat_eq_append] at h ⊢
      obtain ⟨q, hclimb, hq⟩ := climbs_concat.mp h
      -- the path goes on over the child it comes from
      have hup : ∀ e, e / 2 ^ (r + 1) = k → init.length = r → Along J f e r d init q →
          (∀ q', (if isLeft then J s q' (f (r + 1) k) else J q' s (f (r + 1) k)) → q' = q) →
          Along J f e (r + 1) d (init ++ [(isLeft, s)]) (f (r + 1) k) := by
        intro e hek hlen halong honly i hi x hbelow habove
        rcases Nat.eq_or_lt_of_le hi with rfl | hlt
        · rw [List.drop_of_length_le (by simp [hlen]), climbs_nil] at habove
          rw [habove, hek]
        · exact halong.concat (by omega) honly i (by omega) x hbelow habove
      cases isLeft with
      | false =>
        obtain ⟨rfl, rfl⟩ := hf.join r k hk q s hq
        obtain ⟨e, he, hdiv, hde, rfl, halong⟩ := ih hl hclimb
        have hek : e / 2 ^ (r + 1) = k := by rw [div_pow_succ, hdiv]; omega
        refine ⟨e, he, hek, hde, ?_, hup e hek (by simp) halong fun q' hq' => (hf.join r k hk q' _ hq').1⟩
        have heven : e / 2 ^ r % 2 = 0 := by omega
        obtain ⟨-, hsib⟩ := pair_of_even heven
        rw [List.range_succ, List.map_append, List.map_singleton, stepAt, ← hsib]
        congr 3
        · simp only [false_eq_decide_iff]
          omega
        · congr 1
          omega
      | true =>
        obtain ⟨rfl, rfl⟩ := hf.join r k hk s q hq
        obtain ⟨e, he, hdiv, hde, rfl, halong⟩ := ih hr hclimb
        have hek : e / 2 ^ (r + 1) = k := by rw [div_pow_succ, hdiv]; omega
        refine ⟨e, he, hek, hde, ?_, hup e hek (by simp) halong fun q' hq' => (hf.join r k hk _ q' hq').2⟩
        have hodd : ¬ e / 2 ^ r % 2 = 0 := by omega
        obtain ⟨hsib, -⟩ := pair_of_odd hodd
        rw [List.range_succ, List.map_append, List.map_singleton, stepAt, ← hsib]
        congr 3
        · simp only [true_eq_decide_iff]
          omega
        · congr 1
          omega

/-- **A label that was joined from the peaks**, in any shape, and determines what it was joined from. -/
inductive Bagged (J : A → A → A → Prop) (n : ℕ) (f : ℕ → ℕ → A) : A → Prop
  | peak {r k : ℕ} (h : IsPeak n r k) : Bagged J n f (f r k)
  | join {a b c : A} (ha : Bagged J n f a) (hb : Bagged J n f b) (joined : J a b c)
    (only : ∀ x y, J x y c → x = a ∧ y = b) : Bagged J n f c

/-- **A climb that ends at or above the peaks** began at a leaf, and went along the siblings of the tree
up to the peak over it. -/
theorem Bagged.climbs {n : ℕ} {f : ℕ → ℕ → A} (hf : Rigid J n f) {d : A} (hd : ∀ x y, ¬ J x y d)
    {top : A} (htop : Bagged J n f top) : ∀ {steps : List (Bool × A)}, Climbs J d steps top →
      ∃ e r rest, IsPeak n r (e / 2 ^ r) ∧ e < n ∧ d = f 0 e ∧
        steps = (List.range r).map (stepAt f e) ++ rest ∧ Along J f e r d steps top := by
  induction htop with
  | @peak r k hp =>
    intro steps h
    obtain ⟨e, he, rfl, hde, hsteps, halong⟩ := hf.climbs_node hd hp.complete h
    exact ⟨e, r, [], hp, he, hde, by rw [hsteps, List.append_nil], halong⟩
  | @join a b c _ _ joined only iha ihb =>
    intro steps h
    rcases List.eq_nil_or_concat steps with rfl | ⟨init, ⟨isLeft, s⟩, rfl⟩
    · rw [climbs_nil] at h
      exact absurd (h ▸ joined) (hd _ _)
    · rw [List.concat_eq_append] at h ⊢
      obtain ⟨q, hclimb, hq⟩ := climbs_concat.mp h
      cases isLeft with
      | false =>
        obtain ⟨rfl, rfl⟩ := only q s hq
        obtain ⟨e, r, rest, hp, he, hde, rfl, halong⟩ := iha hclimb
        exact ⟨e, r, rest ++ [(false, s)], hp, he, hde, by rw [List.append_assoc],
          halong.concat (by simp) fun q' hq' => (only q' s hq').1⟩
      | true =>
        obtain ⟨rfl, rfl⟩ := only s q hq
        obtain ⟨e, r, rest, hp, he, hde, rfl, halong⟩ := ihb hclimb
        exact ⟨e, r, rest ++ [(true, s)], hp, he, hde, by rw [List.append_assoc],
          halong.concat (by simp) fun q' hq' => (only s q' hq').2⟩

/-- In a range whose leaves were joined from peaks, so was every node, where the labels determine those
below. -/
theorem bagged_node {n m : ℕ} {f g : ℕ → ℕ → A} (hg : Labelling J m g)
    (hleaf : ∀ k < m, Bagged J n f (g 0 k))
    (only : ∀ r k, Complete m (r + 1) k → ∀ x y, J x y (g (r + 1) k) →
      x = g r (2 * k) ∧ y = g r (2 * k + 1)) {r : ℕ} :
    ∀ {k : ℕ}, Complete m r k → Bagged J n f (g r k) := by
  induction r with
  | zero => exact fun hk => hleaf _ (complete_zero.mp hk)
  | succ r ih =>
    intro k hk
    obtain ⟨hl, hr⟩ := complete_children hk
    exact .join (ih hl) (ih hr) (hg r k hk) (only r k hk)

end MountainRange
