import Minima.Mmr.Chain

/-! # What adding and updating an entry do to the tree

`addEntry` and `updateEntry` walk from a leaf to its peak and set one node per row. Each is taken
apart into a stage, which says what holds while row `i` is at work, a lemma for one pass of the
loop, and an induction on the passes.

* **`addEntry_sound`** — appending a leaf labels the new nodes and keeps all others.
* **`updateEntry_sound`** — changing leaf `e` relabels the ancestors of `e` and keeps all others,
  provided the proof supplies the siblings that are not found (`Supplies`). -/

namespace Minima

open MountainRange

namespace MMR

/-- `m'` is `m` with more entries: nothing else but the entry number may differ. -/
structure Extends (m m' : MMR) : Prop where
  blockTime : m'.blockTime = m.blockTime
  useMegaMMR : m'.useMegaMMR = m.useMegaMMR
  finalized : m'.finalized = m.finalized
  has : ∀ r k, m.Has r k → m'.Has r k

theorem Extends.refl (m : MMR) : m.Extends m := ⟨rfl, rfl, rfl, fun _ _ h => h⟩

theorem Extends.trans {m₁ m₂ m₃ : MMR} (h : m₁.Extends m₂) (h' : m₂.Extends m₃) : m₁.Extends m₃ :=
  ⟨h'.blockTime.trans h.blockTime, h'.useMegaMMR.trans h.useMegaMMR,
    h'.finalized.trans h.finalized, fun r k hk => h'.has r k (h.has r k hk)⟩

theorem setEntry_extends {m m' : MMR} {row e : ℕ} {d : MMRData} {x : MMREntry}
    (hopen : m.finalized = false) (h : m.setEntry row (.ofNat e) d = .ok (m', x)) : m.Extends m' := by
  have hhas := has_setEntry hopen h
  obtain ⟨-, -, -, rfl⟩ := setEntry_eq_ok hopen h
  exact ⟨rfl, rfl, rfl, fun r k hk => (hhas r k).mpr (Or.inr hk)⟩

theorem setEntry_entryNumber {m m' : MMR} {row : ℤ} {e : MMREntryNumber} {d : MMRData}
    {x : MMREntry} (hopen : m.finalized = false) (h : m.setEntry row e d = .ok (m', x)) :
    m'.entryNumber = m.entryNumber := by
  obtain ⟨-, -, -, rfl⟩ := setEntry_eq_ok hopen h
  rfl

theorem Extends.walks {A : Type} {m m' : MMR} {anc : Ancestry} {older : List (Snapshot A)}
    (h : m.Extends m') (hw : Walks m anc older) : Walks m' anc older := by
  unfold Walks at *
  rw [h.useMegaMMR]
  exact hw

variable {A : Type} {C : Crypto} {label : MMRData → A} {J : A → A → A → Prop}

/-! ## Appending a leaf -/

/-- `n + 1` leaves over a leaf `n` whose low `i` bits are all set: row `i` is complete up to the
ancestor of the new leaf. -/
def LowOnes (n i : ℕ) : Prop := n + 1 = (n / 2 ^ i + 1) * 2 ^ i

theorem LowOnes.div {n i : ℕ} (h : LowOnes n i) : (n + 1) / 2 ^ i = n / 2 ^ i + 1 := by
  conv_lhs => rw [h]
  exact Nat.mul_div_cancel _ (by positivity)

theorem LowOnes.succ {n i : ℕ} (h : LowOnes n i) (hodd : ¬ n / 2 ^ i % 2 = 0) :
    LowOnes n (i + 1) := by
  unfold LowOnes at *
  rw [div_pow_succ]
  obtain ⟨q, hq⟩ : ∃ q, n / 2 ^ i = 2 * q + 1 := ⟨n / 2 ^ i / 2, by omega⟩
  rw [hq] at h ⊢
  rw [show (2 * q + 1) / 2 = q by omega, pow_succ, h]
  ring

/-- Above the row where the carry stops, the counts of complete nodes do not change. -/
theorem LowOnes.div_above {n i r : ℕ} (h : LowOnes n i) (heven : n / 2 ^ i % 2 = 0) (hr : i < r) :
    (n + 1) / 2 ^ r = n / 2 ^ r := by
  obtain ⟨d, rfl⟩ : ∃ d, r = i + (d + 1) := ⟨r - i - 1, by omega⟩
  rw [pow_add, ← Nat.div_div_eq_div_mul, ← Nat.div_div_eq_div_mul, h.div, pow_succ',
    ← Nat.div_div_eq_div_mul, ← Nat.div_div_eq_div_mul]
  congr 1
  omega

/-- **The stage of `addEntry` at row `i`.** The nodes up to row `i` over the new leaf `n` are set;
the old peaks from row `i` on wait to be merged. -/
structure AddStage (label : MMRData → A) (J : A → A → A → Prop) (m : MMR) (n i : ℕ)
    (f : ℕ → ℕ → A) : Prop where
  indexed : m.Indexed
  stored : m.Stored label (n + 1) f
  isOpen : m.finalized = false
  low : LowOnes n i
  row_lt : i < 256
  current : ∀ j ≤ i, m.Has j (n / 2 ^ j)
  peaks : ∀ r k, IsPeak n r k → m.Has r k
  pairs : ∀ r k, m.Has r k → IsPeak (n + 1) r k ∨ m.Has r (sibling k) ∨
    (r = i ∧ k = n / 2 ^ i) ∨ (i ≤ r ∧ IsPeak n r k)
  joined : ∀ r k, Complete (n + 1) (r + 1) k → Complete n (r + 1) k ∨ r + 1 ≤ i →
    J (f r (2 * k)) (f r (2 * k + 1)) (f (r + 1) k)
  entryNumber : m.entryNumber = .ofNat (n + 1)

/-- A node of `n + 1` leaves that `n` leaves do not have is the ancestor of the new leaf. -/
theorem eq_ancestor_of_new {n r k : ℕ} (h : Complete (n + 1) r k) (hn : ¬ Complete n r k) :
    k = n / 2 ^ r := by
  unfold Complete at *
  have hle : (n + 1) / 2 ^ r ≤ n / 2 ^ r + 1 := by
    have h1 : n + 1 ≤ n + 2 ^ r := by
      have := Nat.one_le_two_pow (n := r)
      omega
    have h2 := Nat.div_le_div_right (c := 2 ^ r) h1
    rwa [Nat.add_div_right n (by positivity)] at h2
  omega

/-- **When the entry is a left node the range is a range again**, over `n + 1` leaves. -/
theorem AddStage.finish {m : MMR} {n i : ℕ} {f : ℕ → ℕ → A} (h : AddStage label J m n i f)
    (heven : n / 2 ^ i % 2 = 0) (hn : n < 2 ^ 256) :
    m.Tracks label (n + 1) f ∧ Labelling J (n + 1) f ∧
      ∀ r k, Complete (n + 1) r k → Complete n r k ∨ m.Has r k := by
  have habove : ∀ r, i < r → (n + 1) / 2 ^ r = n / 2 ^ r := fun r => h.low.div_above heven
  have hpeak : IsPeak (n + 1) i (n / 2 ^ i) := by
    refine ⟨?_, ?_⟩
    · rw [h.low.div]
      omega
    · rw [h.low.div]
  have hsmall : n + 1 < 2 ^ 256 := by
    rcases Nat.lt_or_ge (n + 1) (2 ^ 256) with hlt | hge
    · exact hlt
    · -- all 256 bits set: the carry would not have stopped below row 256
      have heq : n + 1 = 2 ^ 256 := by omega
      have hlow := h.low
      unfold LowOnes at hlow
      have hrow := h.row_lt
      rw [heq, show 256 = (255 - i) + 1 + i by omega, pow_add] at hlow
      have hk := Nat.eq_of_mul_eq_mul_right (by positivity) hlow
      rw [pow_succ] at hk
      omega
  refine ⟨⟨h.indexed, h.stored, ?_, ?_, h.entryNumber, hsmall⟩, ?_, ?_⟩
  · intro r k hp
    rcases lt_trichotomy r i with hr | rfl | hr
    · -- below the carry the bits of `n + 1` are clear
      have hbit := hp.1
      have hlow := h.low
      unfold LowOnes at hlow
      rw [hlow, show i = r + (i - r - 1 + 1) by omega, pow_add, ← mul_assoc,
        mul_comm (_ * _) (2 ^ (i - r - 1 + 1)), ← mul_assoc, Nat.mul_div_cancel _ (by positivity),
        pow_succ] at hbit
      rw [mul_comm (2 ^ (i - r - 1)) 2, mul_assoc, Nat.mul_mod_right] at hbit
      exact absurd hbit (by norm_num)
    · have hk : k = n / 2 ^ r := by
        have h1 := hp.2
        have h2 := h.low.div
        omega
      exact hk ▸ h.current r le_rfl
    · apply h.peaks r k
      unfold IsPeak at hp ⊢
      rwa [habove r hr] at hp
  · intro r k hhas hnp
    rcases h.pairs r k hhas with hp | hs | ⟨rfl, rfl⟩ | ⟨hle, hp⟩
    · exact absurd hp hnp
    · exact hs
    · exact absurd hpeak hnp
    · rcases Nat.eq_or_lt_of_le hle with rfl | hlt
      · have := hp.1
        omega
      · refine absurd ?_ hnp
        unfold IsPeak at hp ⊢
        rwa [habove r hlt]
  · intro r k hc
    refine h.joined r k hc ?_
    by_cases hr : r + 1 ≤ i
    · exact Or.inr hr
    · left
      unfold Complete at hc ⊢
      rwa [habove (r + 1) (by omega)] at hc
  · intro r k hc
    by_cases hcn : Complete n r k
    · exact Or.inl hcn
    · right
      rw [eq_ancestor_of_new hc hcn]
      refine h.current r ?_
      by_contra hlt
      unfold Complete at hc hcn
      rw [habove r (by omega)] at hc
      exact hcn hc

variable (hclone : ∀ d : MMRData, label d.clone = label d)
  (hJ : ∀ l r p, MMRData.createMMRDataParentNode C l r = .ok p → J (label l) (label r) (label p))

include hclone hJ

/-- **One pass of the loop of `addEntry`:** a right node is merged with the old peak next to it. -/
theorem AddStage.step {m m' : MMR} {n i : ℕ} {f : ℕ → ℕ → A} {l r p : MMRData} {x : MMREntry}
    (h : AddStage label J m n i f) (hodd : ¬ n / 2 ^ i % 2 = 0)
    (hl : label l = f i (n / 2 ^ i - 1)) (hr : label r = f i (n / 2 ^ i))
    (hp : MMRData.createMMRDataParentNode C l r = .ok p)
    (hset : m.setEntry (i + 1 : ℕ) (.ofNat (n / 2 ^ (i + 1))) p = .ok (m', x)) :
    AddStage label J m' n (i + 1) (relabel f (i + 1) (n / 2 ^ (i + 1)) (label p)) ∧
      x.Carries label (relabel f (i + 1) (n / 2 ^ (i + 1)) (label p)) (i + 1) (n / 2 ^ (i + 1)) := by
  have hlow := h.low.succ hodd
  have hc : Complete (n + 1) (i + 1) (n / 2 ^ (i + 1)) := by
    unfold Complete
    rw [hlow.div]
    omega
  have hnc : ¬ Complete n (i + 1) (n / 2 ^ (i + 1)) := lt_irrefl _
  have hhas := has_setEntry h.isOpen hset
  have hx := (setEntry_eq_ok h.isOpen hset)
  have hdiv : n / 2 ^ (i + 1) = n / 2 ^ i / 2 := div_pow_succ n i
  refine ⟨⟨h.indexed.setEntry h.isOpen hset, h.stored.setEntry hclone h.isOpen hc hset, ?_, hlow,
    ?_, ?_, ?_, ?_, ?_, ?_⟩, ?_⟩
  · rw [(setEntry_extends h.isOpen hset).finalized, h.isOpen]
  · have hrow := hx.2.1
    unfold maxRows at hrow
    omega
  · intro j hj
    rcases Nat.eq_or_lt_of_le hj with rfl | hlt
    · exact (hhas _ _).mpr (Or.inl ⟨rfl, rfl⟩)
    · exact (hhas _ _).mpr (Or.inr (h.current j (by omega)))
  · intro r k hk
    exact (hhas r k).mpr (Or.inr (h.peaks r k hk))
  · intro r k hk
    rcases (hhas r k).mp hk with ⟨rfl, rfl⟩ | hk
    · exact Or.inr (Or.inr (Or.inl ⟨rfl, rfl⟩))
    · rcases h.pairs r k hk with hp' | hs | ⟨rfl, rfl⟩ | ⟨hle, hp'⟩
      · exact Or.inl hp'
      · exact Or.inr (Or.inl ((hhas _ _).mpr (Or.inr hs)))
      · -- the merged node: its sibling was a peak
        have hpk : IsPeak n r (n / 2 ^ r - 1) := isPeak_last (by omega)
        refine Or.inr (Or.inl ((hhas _ _).mpr (Or.inr ?_)))
        rw [sibling, if_neg hodd]
        exact h.peaks r _ hpk
      · rcases Nat.eq_or_lt_of_le hle with rfl | hlt
        · -- the peak that was merged: its sibling is the entry
          refine Or.inr (Or.inl ((hhas _ _).mpr (Or.inr ?_)))
          rw [sibling, if_pos hp'.even, hp'.2]
          exact h.current _ le_rfl
        · exact Or.inr (Or.inr (Or.inr ⟨hlt, hp'⟩))
  · intro r k hck hor
    by_cases hrk : r = i ∧ k = n / 2 ^ (i + 1)
    · -- the node just set
      obtain ⟨rfl, rfl⟩ := hrk
      rw [relabel_same, relabel_of_ne f _ (by omega), relabel_of_ne f _ (by omega), hdiv]
      obtain ⟨h1, h2⟩ := pair_of_odd hodd
      rw [h2, h1, sibling, if_neg hodd, ← hl, ← hr]
      exact hJ _ _ _ hp
    · have hne : ¬ (r + 1 = i + 1 ∧ k = n / 2 ^ (i + 1)) := by
        rintro ⟨h1, h2⟩
        exact hrk ⟨by omega, h2⟩
      have hchild : ∀ j, (j = 2 * k ∨ j = 2 * k + 1) → ¬ (r = i + 1 ∧ j = n / 2 ^ (i + 1)) := by
        rintro j hj ⟨rfl, hj'⟩
        -- its parent is neither complete over `n` leaves nor below row `i + 1`
        have hk' : k = n / 2 ^ (i + 1 + 1) := by
          rw [div_pow_succ, ← hj']
          omega
        rcases hor with hcn | hle
        · rw [hk'] at hcn
          exact lt_irrefl _ hcn
        · omega
      rw [relabel_of_ne f _ hne, relabel_of_ne f _ (hchild _ (Or.inl rfl)),
        relabel_of_ne f _ (hchild _ (Or.inr rfl))]
      refine h.joined r k hck ?_
      rcases hor with hcn | hle
      · exact Or.inl hcn
      · by_cases hri : r = i
        · left
          by_contra hcn
          refine hrk ⟨hri, ?_⟩
          subst hri
          exact eq_ancestor_of_new hck hcn
        · exact Or.inr (by omega)
  · rw [setEntry_entryNumber h.isOpen hset, h.entryNumber]
  · rw [hx.2.2.1]
    exact MMREntry.make_carries hclone (relabel_same _ _ _ _).symm

/-- **The loop of `addEntry`.** -/
theorem addLoop_sound {anc : Ancestry} {n : ℕ} {older : List (Snapshot A)} (hn : n < 2 ^ 256)
    (fuel : ℕ) : ∀ (m : MMR) (entry : MMREntry) (i : ℕ) (f : ℕ → ℕ → A) (m' : MMR),
      AddStage label J m n i f → entry.Carries label f i (n / 2 ^ i) → m.blockTime.IsNonneg →
      Walks m anc older → addLoop C anc fuel m entry = .ok m' →
      ∃ g, m.Extends m' ∧ m'.Tracks label (n + 1) g ∧ Labelling J (n + 1) g ∧
        (∀ r k, Complete (n + 1) r k → Complete n r k ∨ m'.Has r k) ∧
        ∀ r k, Complete n r k ∨ r ≤ i → g r k = f r k := by
  induction fuel with
  | zero =>
      intro m entry i f m' _ _ _ _ h
      exact absurd h (by simp [addLoop])
  | succ fuel ih =>
      intro m entry i f m' hst hent htime hw h
      rw [addLoop, MMREntry.isRight, MMREntry.isLeft_of_ofNat hent.number] at h
      by_cases heven : n / 2 ^ i % 2 = 0
      · -- a left node: done
        rw [heven] at h
        simp only [decide_true, Bool.not_true, Bool.false_eq_true, if_false, Except.ok.injEq] at h
        subst h
        obtain ⟨h1, h2, h3⟩ := hst.finish heven hn
        exact ⟨f, Extends.refl m, h1, h2, h3, fun _ _ _ => rfl⟩
      · simp only [heven, decide_false, Bool.not_false, if_true, Result.bind_eq_ok] at h
        obtain ⟨l, hl, r, hr, p, hp, ⟨m₁, x⟩, hset, hrest⟩ := h
        have hpk : IsPeak n i (n / 2 ^ i - 1) := isPeak_last (by omega)
        -- the left sibling is the old peak of this row, which is stored here
        have hsib : (m.getEntry anc entry.row entry.getSibling).Carries label f i (n / 2 ^ i - 1) := by
          rw [MMREntry.getSibling_of_ofNat hent.number, sibling, if_neg heven, hent.row]
          exact getEntryBack_of_has (s := ⟨m, n + 1, f⟩) hclone hw hst.stored
            (by simpa using htime.toRat_nonneg) (hst.peaks i _ hpk)
        obtain ⟨l', hl', hll⟩ := hsib.getMMRData
        obtain ⟨r', hr', hrl⟩ := hent.getMMRData
        rw [hl', Except.ok.injEq] at hl
        rw [hr', Except.ok.injEq] at hr
        subst hl hr
        have hset' : m.setEntry (i + 1 : ℕ) (.ofNat (n / 2 ^ (i + 1))) p = .ok (m₁, x) := by
          rw [MMREntry.getParentRow, hent.row, MMREntry.getParentEntry_of_ofNat hent.number,
            ancestor_succ] at hset
          exact_mod_cast hset
        obtain ⟨hst₁, hx⟩ := hst.step hclone hJ heven hll hrl hp hset'
        have hext := setEntry_extends hst.isOpen hset'
        obtain ⟨g, hg1, hg2, hg3, hg4, hg5⟩ := ih m₁ x (i + 1) _ m' hst₁ hx
          (hext.blockTime ▸ htime) (hext.walks hw) hrest
        refine ⟨g, hext.trans hg1, hg2, hg3, hg4, ?_⟩
        intro r k hrk
        have hne : ¬ (r = i + 1 ∧ k = n / 2 ^ (i + 1)) := by
          rintro ⟨rfl, rfl⟩
          rcases hrk with hc | hle
          · exact lt_irrefl _ hc
          · omega
        rw [hg5 r k (hrk.imp_right (by omega)), relabel_of_ne f _ hne]

omit hJ

/-- **The stage at row zero:** the new leaf is set and counted. -/
theorem addStage_zero {m m₁ : MMR} {n : ℕ} {f : ℕ → ℕ → A} {d : MMRData} {x : MMREntry}
    (hm : m.Tracks label n f) (hf : Labelling J n f) (hopen : m.finalized = false)
    (hset : m.setEntry (0 : ℕ) (.ofNat n) d = .ok (m₁, x)) :
    AddStage label J { m₁ with entryNumber := m.entryNumber.increment } n 0
        (relabel f 0 n (label d)) ∧
      x.Carries label (relabel f 0 n (label d)) 0 (n / 2 ^ 0) := by
  have hhas := has_setEntry hopen hset
  have hext := setEntry_extends hopen hset
  have hc : Complete (n + 1) 0 n := complete_zero.mpr (by omega)
  have hstored₀ : m.Stored label (n + 1) f := by
    intro z hz
    obtain ⟨r, k, hk, hz'⟩ := hm.stored z hz
    exact ⟨r, k, hk.mono (by omega), hz'⟩
  have hind := hm.indexed.setEntry hopen hset
  have hstored := hstored₀.setEntry hclone hopen hc hset
  refine ⟨⟨⟨hind.found, hind.largest, hind.range⟩, hstored, hext.finalized.trans hopen, ?_,
    by norm_num, ?_, ?_, ?_, ?_, ?_⟩, ?_⟩
  · unfold LowOnes
    simp
  · intro j hj
    obtain rfl : j = 0 := by omega
    exact (hhas _ _).mpr (Or.inl ⟨rfl, by simp⟩)
  · exact fun r k hk => (hhas r k).mpr (Or.inr (hm.peaks r k hk))
  · intro r k hk
    rcases (hhas r k).mp hk with ⟨rfl, rfl⟩ | hk
    · exact Or.inr (Or.inr (Or.inl ⟨rfl, by simp⟩))
    · by_cases hp : IsPeak n r k
      · exact Or.inr (Or.inr (Or.inr ⟨Nat.zero_le r, hp⟩))
      · exact Or.inr (Or.inl ((hhas _ _).mpr (Or.inr (hm.pairs r k hk hp))))
  · rintro r k - (hcn | hle)
    · obtain ⟨h1, h2⟩ := complete_children hcn
      have hne : ∀ j, Complete n r j → ¬ (r = 0 ∧ j = n) := by
        rintro j hj ⟨rfl, rfl⟩
        exact lt_irrefl _ (complete_zero.mp hj)
      rw [relabel_of_ne f _ (hne _ h1), relabel_of_ne f _ (hne _ h2),
        relabel_of_ne f _ (by omega)]
      exact hf r k hcn
    · omega
  · simp [hm.entryNumber]
  · rw [(setEntry_eq_ok hopen hset).2.2.1, pow_zero, Nat.div_one]
    exact MMREntry.make_carries hclone (relabel_same f 0 n (label d)).symm

include hJ

/-- **Appending a leaf.** The new leaf gets the label of its data, the nodes over it are joined
and stored, every node that was there keeps its label. -/
theorem addEntry_sound {anc : Ancestry} {m m' : MMR} {n : ℕ} {f : ℕ → ℕ → A} {d : MMRData}
    {x : MMREntry} {older : List (Snapshot A)} (hm : m.Tracks label n f) (hf : Labelling J n f)
    (hopen : m.finalized = false) (htime : m.blockTime.IsNonneg) (hw : Walks m anc older)
    (h : addEntry C anc m d = .ok (m', x)) :
    x = .make 0 (.ofNat n) d ∧
      ∃ g, m.Extends m' ∧ m'.Tracks label (n + 1) g ∧ Labelling J (n + 1) g ∧
        (∀ r k, Complete (n + 1) r k → Complete n r k ∨ m'.Has r k) ∧
        (∀ r k, Complete n r k → g r k = f r k) ∧ g 0 n = label d := by
  unfold addEntry at h
  simp only [Result.bind_eq_ok, Result.pure_eq_ok, Prod.mk.injEq] at h
  obtain ⟨⟨m₁, y⟩, hset, m₂, hloop, rfl, rfl⟩ := h
  have hset' : m.setEntry (0 : ℕ) (.ofNat n) d = .ok (m₁, y) := by
    rw [hm.entryNumber] at hset
    exact hset
  obtain ⟨hst, hcarry⟩ := addStage_zero hclone hm hf hopen hset'
  have hext := setEntry_extends hopen hset'
  rw [setEntry_entryNumber hopen hset'] at hloop
  have hext' : m.Extends { m₁ with entryNumber := m.entryNumber.increment } :=
    ⟨hext.blockTime, hext.useMegaMMR, hext.finalized, hext.has⟩
  obtain ⟨g, h1, h2, h3, h4, h5⟩ := addLoop_sound hclone hJ hm.small 257 _ y 0 _ _ hst hcarry
    (hext'.blockTime ▸ htime) (hext'.walks hw) hloop
  refine ⟨(setEntry_eq_ok hopen hset').2.2.1, g, hext'.trans h1, h2, h3, h4, ?_, ?_⟩
  · intro r k hk
    rw [h5 r k (Or.inl hk), relabel_of_ne]
    rintro ⟨rfl, rfl⟩
    exact lt_irrefl _ (complete_zero.mp hk)
  · rw [h5 0 n (Or.inr le_rfl), relabel_same]

omit hclone hJ

/-- Adding a leaf to the newest MMR keeps it over the older ones. -/
theorem Over.grow {m m' : MMR} {n : ℕ} {f g : ℕ → ℕ → A} {older : List (Snapshot A)}
    (h : Over ⟨m, n, f⟩ older) (hext : m.Extends m')
    (hnew : ∀ r k, Complete (n + 1) r k → Complete n r k ∨ m'.Has r k)
    (hkeep : ∀ r k, Complete n r k → g r k = f r k) : Over ⟨m', n + 1, g⟩ older := by
  cases older with
  | nil => trivial
  | cons p rest =>
      obtain ⟨h1, h2, h3⟩ := h
      refine ⟨Nat.le_succ_of_le h1, ?_, hext.blockTime ▸ h3⟩
      intro r k hk
      rcases hnew r k hk with hc | hh
      · rcases h2 r k hc with hh | ⟨hp, heq⟩
        · exact Or.inl (hext.has r k hh)
        · exact Or.inr ⟨hp, (hkeep r k hc).trans heq⟩
      · exact Or.inl hh

/-! ## Changing a leaf -/

/-- The proof has, for every node on the way from leaf `e` to its peak, the label of the sibling
whenever that has been neither changed nor stored since the block time of the proof. -/
def Supplies (label : MMRData → A) (p : MMRProof) (e : ℕ) (s : Snapshot A)
    (older : List (Snapshot A)) : Prop :=
  ∀ i c, Complete s.size i (e / 2 ^ i) → ¬ IsPeak s.size i (e / 2 ^ i) →
    p.proofChain[i]? = some c →
    (∀ q ∈ s :: older, p.blockTime.toRat ≤ q.mmr.blockTime.toRat →
      Complete q.size i (sibling (e / 2 ^ i)) ∧
        q.label i (sibling (e / 2 ^ i)) = s.label i (sibling (e / 2 ^ i)) ∧
        ¬ q.mmr.Has i (sibling (e / 2 ^ i))) →
    label c.mmrData = s.label i (sibling (e / 2 ^ i))

/-- **The stage of `updateEntry` at row `i`.** The ancestors of leaf `e` up to row `i` are set; the
node above them is not yet joined to them. -/
structure UpdateStage (label : MMRData → A) (J : A → A → A → Prop) (older : List (Snapshot A))
    (m : MMR) (n e i : ℕ) (f : ℕ → ℕ → A) : Prop where
  indexed : m.Indexed
  stored : m.Stored label n f
  isOpen : m.finalized = false
  complete : Complete n i (e / 2 ^ i)
  current : ∀ j ≤ i, m.Has j (e / 2 ^ j)
  peaks : ∀ r k, IsPeak n r k → m.Has r k
  pairs : ∀ r k, m.Has r k → IsPeak n r k ∨ m.Has r (sibling k) ∨ (r = i ∧ k = e / 2 ^ i)
  joined : ∀ r k, Complete n (r + 1) k → ¬ (r = i ∧ k = e / 2 ^ (i + 1)) →
    J (f r (2 * k)) (f r (2 * k + 1)) (f (r + 1) k)
  entryNumber : m.entryNumber = .ofNat n
  covers : Over ⟨m, n, f⟩ older

theorem UpdateStage.finish {older : List (Snapshot A)} {m : MMR} {n e i : ℕ} {f : ℕ → ℕ → A}
    (h : UpdateStage label J older m n e i f) (hp : IsPeak n i (e / 2 ^ i)) (hn : n < 2 ^ 256) :
    m.Tracks label n f ∧ Labelling J n f := by
  refine ⟨⟨h.indexed, h.stored, h.peaks, ?_, h.entryNumber, hn⟩, ?_⟩
  · intro r k hk hnp
    rcases h.pairs r k hk with hp' | hs | ⟨rfl, rfl⟩
    · exact absurd hp' hnp
    · exact hs
    · exact absurd hp hnp
  · intro r k hk
    refine h.joined r k hk ?_
    rintro ⟨rfl, rfl⟩
    -- a peak has no parent
    unfold IsPeak at hp
    unfold Complete at hk
    rw [div_pow_succ, div_pow_succ] at hk
    omega

/-- Setting a stored or unchanged node with its own label keeps the cover. -/
theorem Over.setEntry {older : List (Snapshot A)} {m m' : MMR} {n : ℕ} {f : ℕ → ℕ → A} {r k : ℕ}
    {a : A} (h : Over ⟨m, n, f⟩ older) (hext : m.Extends m') (hhas : m'.Has r k) :
    Over ⟨m', n, relabel f r k a⟩ older := by
  cases older with
  | nil => trivial
  | cons p rest =>
      obtain ⟨h1, h2, h3⟩ := h
      refine ⟨h1, ?_, hext.blockTime ▸ h3⟩
      intro r' k' hc
      by_cases hrk : r' = r ∧ k' = k
      · left
        rw [hrk.1, hrk.2]
        exact hhas
      · rcases h2 r' k' hc with h4 | ⟨h4, h5⟩
        · exact Or.inl (hext.has _ _ h4)
        · exact Or.inr ⟨h4, (relabel_of_ne f a hrk).trans h5⟩

include hclone

/-- **First half of a pass:** the sibling is stored next to the entry, with the label it has. -/
theorem UpdateStage.setSibling {older : List (Snapshot A)} {m m' : MMR} {n e i : ℕ}
    {f : ℕ → ℕ → A} {d : MMRData} {x : MMREntry} (h : UpdateStage label J older m n e i f)
    (hnp : ¬ IsPeak n i (e / 2 ^ i)) (hd : label d = f i (sibling (e / 2 ^ i)))
    (hset : m.setEntry (i : ℕ) (.ofNat (sibling (e / 2 ^ i))) d = .ok (m', x)) :
    UpdateStage label J older m' n e i f ∧ m'.Has i (sibling (e / 2 ^ i)) ∧
      x.Carries label f i (sibling (e / 2 ^ i)) := by
  have hc := sibling_complete h.complete hnp
  have hhas := has_setEntry h.isOpen hset
  have hext := setEntry_extends h.isOpen hset
  have hself : relabel f i (sibling (e / 2 ^ i)) (label d) = f := by rw [hd, relabel_self]
  have hstored := h.stored.setEntry hclone h.isOpen hc hset
  have hover := h.covers.setEntry (a := label d) hext ((hhas _ _).mpr (Or.inl ⟨rfl, rfl⟩))
  rw [hself] at hstored hover
  refine ⟨⟨h.indexed.setEntry h.isOpen hset, hstored, hext.finalized.trans h.isOpen, h.complete,
    fun j hj => hext.has _ _ (h.current j hj), fun r k hk => hext.has _ _ (h.peaks r k hk), ?_,
    h.joined, (setEntry_entryNumber h.isOpen hset).trans h.entryNumber, hover⟩,
    (hhas _ _).mpr (Or.inl ⟨rfl, rfl⟩), ?_⟩
  · intro r k hk
    rcases (hhas r k).mp hk with ⟨rfl, rfl⟩ | hk
    · rw [sibling_sibling]
      exact Or.inr (Or.inl (hext.has _ _ (h.current r le_rfl)))
    · rcases h.pairs r k hk with hp | hs | hcur
      · exact Or.inl hp
      · exact Or.inr (Or.inl (hext.has _ _ hs))
      · exact Or.inr (Or.inr hcur)
  · rw [(setEntry_eq_ok h.isOpen hset).2.2.1]
    exact MMREntry.make_carries hclone hd

include hJ

/-- **Second half of a pass:** the parent is joined and set, and the stage moves up a row. -/
theorem UpdateStage.setParent {older : List (Snapshot A)} {m m' : MMR} {n e i : ℕ}
    {f : ℕ → ℕ → A} {l r p : MMRData} {x : MMREntry} (h : UpdateStage label J older m n e i f)
    (hnp : ¬ IsPeak n i (e / 2 ^ i)) (hsib : m.Has i (sibling (e / 2 ^ i)))
    (hl : label l = f i (2 * (e / 2 ^ (i + 1)))) (hr : label r = f i (2 * (e / 2 ^ (i + 1)) + 1))
    (hp : MMRData.createMMRDataParentNode C l r = .ok p)
    (hset : m.setEntry (i + 1 : ℕ) (.ofNat (e / 2 ^ (i + 1))) p = .ok (m', x)) :
    UpdateStage label J older m' n e (i + 1) (relabel f (i + 1) (e / 2 ^ (i + 1)) (label p)) ∧
      x.Carries label (relabel f (i + 1) (e / 2 ^ (i + 1)) (label p)) (i + 1) (e / 2 ^ (i + 1)) := by
  have hc : Complete n (i + 1) (e / 2 ^ (i + 1)) := by
    rw [← ancestor_succ]
    exact parent_complete h.complete hnp
  have hhas := has_setEntry h.isOpen hset
  have hext := setEntry_extends h.isOpen hset
  have hnew : m'.Has (i + 1) (e / 2 ^ (i + 1)) := (hhas _ _).mpr (Or.inl ⟨rfl, rfl⟩)
  refine ⟨⟨h.indexed.setEntry h.isOpen hset, h.stored.setEntry hclone h.isOpen hc hset,
    hext.finalized.trans h.isOpen, hc, ?_, fun r k hk => hext.has _ _ (h.peaks r k hk), ?_, ?_,
    (setEntry_entryNumber h.isOpen hset).trans h.entryNumber, h.covers.setEntry hext hnew⟩, ?_⟩
  · intro j hj
    rcases Nat.eq_or_lt_of_le hj with rfl | hlt
    · exact hnew
    · exact hext.has _ _ (h.current j (by omega))
  · intro r' k hk
    rcases (hhas r' k).mp hk with ⟨rfl, rfl⟩ | hk
    · exact Or.inr (Or.inr ⟨rfl, rfl⟩)
    · rcases h.pairs r' k hk with hp' | hs | ⟨rfl, rfl⟩
      · exact Or.inl hp'
      · exact Or.inr (Or.inl (hext.has _ _ hs))
      · exact Or.inr (Or.inl (hext.has _ _ hsib))
  · intro r' k hk hne
    by_cases hrk : r' = i ∧ k = e / 2 ^ (i + 1)
    · obtain ⟨rfl, rfl⟩ := hrk
      rw [relabel_same, relabel_of_ne f _ (by omega), relabel_of_ne f _ (by omega), ← hl, ← hr]
      exact hJ _ _ _ hp
    · have hchild : ∀ j, (j = 2 * k ∨ j = 2 * k + 1) → ¬ (r' = i + 1 ∧ j = e / 2 ^ (i + 1)) := by
        rintro j hj ⟨rfl, hj'⟩
        refine hne ⟨rfl, ?_⟩
        rw [div_pow_succ, ← hj']
        omega
      rw [relabel_of_ne f _ (hchild _ (Or.inl rfl)), relabel_of_ne f _ (hchild _ (Or.inr rfl)),
        relabel_of_ne f _ (fun hc => hrk ⟨by omega, hc.2⟩)]
      exact h.joined r' k hk hrk
  · rw [(setEntry_eq_ok h.isOpen hset).2.2.1]
    exact MMREntry.make_carries hclone (relabel_same _ _ _ _).symm

/-- **The loop of `updateEntry`.** -/
theorem updateLoop_sound {anc : Ancestry} {n e : ℕ} {older : List (Snapshot A)} {p : MMRProof}
    {peaks : List MMREntry} {f₀ : ℕ → ℕ → A} {m₀ : MMR} (hn : n < 2 ^ 256)
    (hpeaks : PeaksCarry label n f₀ peaks) (hchain : Chain C label J older)
    (hp : Supplies label p e ⟨m₀, n, f₀⟩ older) (fuel : ℕ) :
    ∀ (m : MMR) (entry : MMREntry) (i : ℕ) (f : ℕ → ℕ → A) (m' : MMR),
      UpdateStage label J older m n e i f → entry.Carries label f i (e / 2 ^ i) →
      m₀.Extends m → (∀ r k, ¬ (r ≤ i ∧ k = e / 2 ^ r) → f r k = f₀ r k) →
      Walks m anc older → updateLoop C anc peaks p fuel i m entry = .ok m' →
      ∃ g, m.Extends m' ∧ m'.Tracks label n g ∧ Labelling J n g ∧ Over ⟨m', n, g⟩ older ∧
        (∀ j, Complete n j (e / 2 ^ j) → m'.Has j (e / 2 ^ j)) ∧
        (∀ r k, k ≠ e / 2 ^ r → g r k = f₀ r k) ∧ ∀ r ≤ i, g r (e / 2 ^ r) = f r (e / 2 ^ r) := by
  induction fuel with
  | zero =>
      intro m entry i f m' _ _ _ _ _ h
      exact absurd h (by simp [updateLoop])
  | succ fuel ih =>
      intro m entry i f m' hst hent hext₀ hf hw h
      rw [updateLoop] at h
      by_cases hpk : IsPeak n i (e / 2 ^ i)
      · -- at a peak: done
        rw [if_pos ((hpeaks.any_checkPosition hent).mpr hpk), Except.ok.injEq] at h
        subst h
        obtain ⟨h1, h2⟩ := hst.finish hpk hn
        refine ⟨f, Extends.refl m, h1, h2, hst.covers, ?_, fun r k hk => hf r k (by tauto),
          fun _ _ => rfl⟩
        intro j hj
        refine hst.current j ?_
        by_contra hlt
        -- above the peak there is no complete ancestor
        have habove : ∀ d, ¬ Complete n (i + 1 + d) (e / 2 ^ (i + 1 + d)) := by
          intro d
          induction d with
          | zero =>
              unfold Complete
              unfold IsPeak at hpk
              rw [Nat.add_zero, div_pow_succ, div_pow_succ]
              omega
          | succ d ihd =>
              intro hcd
              apply ihd
              rw [← Nat.add_assoc, ← ancestor_succ] at hcd
              obtain ⟨h3, h4⟩ := complete_children hcd
              unfold Complete at h3 h4 ⊢
              omega
        obtain ⟨d, rfl⟩ : ∃ d, j = i + 1 + d := ⟨j - (i + 1), by omega⟩
        exact habove d hj
      · rw [if_neg (fun hcp => hpk ((hpeaks.any_checkPosition hent).mp hcp))] at h
        simp only [Result.bind_eq_ok] at h
        obtain ⟨sd, hsd, ⟨m₁, top⟩, hset₁, cur, hcur, sib, hsib, pd, hpd, ⟨m₂, x⟩, hset₂, hrest⟩ := h
        rw [hent.row, MMREntry.getSibling_of_ofNat hent.number] at hsd hset₁
        set k := e / 2 ^ i with hk
        have hsc := sibling_complete hst.complete hpk
        have hunch : f i (sibling k) = f₀ i (sibling k) :=
          hf i _ (fun hc => sibling_ne k hc.2)
        -- the sibling data, from the chain or from the proof
        have hside : label sd = f i (sibling k) ∧
            (m.getEntryBack anc i (.ofNat (sibling k)) p.blockTime).row = i ∧
            (m.getEntryBack anc i (.ofNat (sibling k)) p.blockTime).entryNumber =
              .ofNat (sibling k) := by
          rcases getEntryBack_cases (s := ⟨m, n, f⟩) hclone hw hst.stored hst.covers hchain
            p.blockTime i (sibling k) with ⟨-, hfound⟩ | ⟨hempty, hmiss⟩
          · rw [siblingData_of_full hfound.full] at hsd
            obtain ⟨d, hd, hl⟩ := hfound.getMMRData
            rw [hd, Except.ok.injEq] at hsd
            exact ⟨hsd ▸ hl, hfound.row, hfound.number⟩
          · rw [hempty] at hsd
            obtain ⟨c, hchunk, hsdc⟩ := siblingData_empty hsd
            refine ⟨?_, by rw [hempty]; rfl, by rw [hempty]; rfl⟩
            rw [hsdc, hclone, hunch]
            refine hp i c hst.complete hpk hchunk ?_
            intro q hq hqt
            rcases List.mem_cons.mp hq with rfl | hq
            · obtain ⟨-, -, h3⟩ := hmiss hsc _ List.mem_cons_self (hext₀.blockTime ▸ hqt)
              exact ⟨hsc, rfl, fun hh => h3 (hext₀.has _ _ hh)⟩
            · obtain ⟨h1, h2, h3⟩ := hmiss hsc q (List.mem_cons_of_mem _ hq) hqt
              exact ⟨h1, h2.trans hunch, h3⟩
        obtain ⟨hsdl, hrow, hnum⟩ := hside
        rw [hrow, hnum] at hset₁
        obtain ⟨hst₁, hhas₁, htop⟩ := hst.setSibling hclone hpk hsdl hset₁
        have hext₁ := setEntry_extends hst.isOpen hset₁
        obtain ⟨cur', hcur', hcl⟩ := hent.getMMRData
        obtain ⟨sib', hsib', hsl⟩ := htop.getMMRData
        rw [hcur', Except.ok.injEq] at hcur
        rw [hsib', Except.ok.injEq] at hsib
        subst hcur hsib
        have hset₂' : m₁.setEntry (i + 1 : ℕ) (.ofNat (e / 2 ^ (i + 1))) pd = .ok (m₂, x) := by
          rw [MMREntry.getParentRow, hent.row, MMREntry.getParentEntry_of_ofNat hent.number,
            ancestor_succ] at hset₂
          exact_mod_cast hset₂
        have hstep : UpdateStage label J older m₂ n e (i + 1)
              (relabel f (i + 1) (e / 2 ^ (i + 1)) (label pd)) ∧
            x.Carries label (relabel f (i + 1) (e / 2 ^ (i + 1)) (label pd)) (i + 1)
              (e / 2 ^ (i + 1)) := by
          rw [parentData, MMREntry.isLeft_of_ofNat hent.number] at hpd
          have hdiv : e / 2 ^ (i + 1) = k / 2 := div_pow_succ e i
          by_cases heven : k % 2 = 0
          · obtain ⟨h1, h2⟩ := pair_of_even heven
            simp only [heven, decide_true, if_true] at hpd
            refine hst₁.setParent hclone hJ hpk hhas₁ ?_ ?_ hpd hset₂'
            · rw [hdiv, h1, hcl]
            · rw [hdiv, h2, hsl]
          · obtain ⟨h1, h2⟩ := pair_of_odd heven
            simp only [heven, decide_false, Bool.false_eq_true, if_false] at hpd
            refine hst₁.setParent hclone hJ hpk hhas₁ ?_ ?_ hpd hset₂'
            · rw [hdiv, h1, hsl]
            · rw [hdiv, h2, hcl]
        obtain ⟨hst₂, hx⟩ := hstep
        have hext₂ := setEntry_extends hst₁.isOpen hset₂'
        have hf₂ : ∀ r j, ¬ (r ≤ i + 1 ∧ j = e / 2 ^ r) →
            relabel f (i + 1) (e / 2 ^ (i + 1)) (label pd) r j = f₀ r j := by
          intro r j hrj
          have hne : ¬ (r = i + 1 ∧ j = e / 2 ^ (i + 1)) := by
            rintro ⟨rfl, rfl⟩
            exact hrj ⟨le_rfl, rfl⟩
          rw [relabel_of_ne f _ hne]
          exact hf r j (fun hc => hrj ⟨by omega, hc.2⟩)
        obtain ⟨g, hg1, hg2, hg3, hg4, hg5, hg6, hg7⟩ := ih m₂ x (i + 1) _ m' hst₂ hx
          ((hext₀.trans hext₁).trans hext₂) hf₂ ((hext₁.trans hext₂).walks hw) hrest
        refine ⟨g, (hext₁.trans hext₂).trans hg1, hg2, hg3, hg4, hg5, hg6, ?_⟩
        intro r hr
        rw [hg7 r (by omega), relabel_of_ne]
        omega

/-- **Changing a leaf.** The leaf gets the label of the new data, its ancestors are joined anew and
stored together with their siblings, every other node keeps its label. -/
theorem updateEntry_sound {anc : Ancestry} {m m' : MMR} {n e : ℕ} {f : ℕ → ℕ → A} {d : MMRData}
    {p : MMRProof} {older : List (Snapshot A)} (hm : m.Tracks label n f) (hf : Labelling J n f)
    (hopen : m.finalized = false) (hover : Over ⟨m, n, f⟩ older) (hchain : Chain C label J older)
    (hw : Walks m anc older) (he : e < n) (hp : Supplies label p e ⟨m, n, f⟩ older)
    (h : updateEntry C anc m (.ofNat e) p d = .ok m') :
    ∃ g, m.Extends m' ∧ m'.Tracks label n g ∧ Labelling J n g ∧ Over ⟨m', n, g⟩ older ∧
      (∀ j, Complete n j (e / 2 ^ j) → m'.Has j (e / 2 ^ j)) ∧
      (∀ r k, k ≠ e / 2 ^ r → g r k = f r k) ∧ g 0 e = label d := by
  unfold updateEntry at h
  simp only [Result.bind_eq_ok] at h
  obtain ⟨⟨m₁, x⟩, hset, hloop⟩ := h
  have hset' : m.setEntry (0 : ℕ) (.ofNat e) d = .ok (m₁, x) := hset
  have hhas := has_setEntry hopen hset'
  have hext := setEntry_extends hopen hset'
  have hc : Complete n 0 e := complete_zero.mpr he
  have hnew : m₁.Has 0 e := (hhas _ _).mpr (Or.inl ⟨rfl, rfl⟩)
  have hst : UpdateStage label J older m₁ n e 0 (relabel f 0 e (label d)) := by
    refine ⟨hm.indexed.setEntry hopen hset', hm.stored.setEntry hclone hopen hc hset',
      hext.finalized.trans hopen, by simpa using hc, ?_, fun r k hk => hext.has _ _ (hm.peaks r k hk),
      ?_, ?_, (setEntry_entryNumber hopen hset').trans hm.entryNumber, hover.setEntry hext hnew⟩
    · intro j hj
      obtain rfl : j = 0 := by omega
      simpa using hnew
    · intro r k hk
      rcases (hhas r k).mp hk with ⟨rfl, rfl⟩ | hk
      · exact Or.inr (Or.inr ⟨rfl, by simp⟩)
      · by_cases hpk : IsPeak n r k
        · exact Or.inl hpk
        · exact Or.inr (Or.inl (hext.has _ _ (hm.pairs r k hk hpk)))
    · intro r k hk hne
      have hchild : ∀ j, (j = 2 * k ∨ j = 2 * k + 1) → ¬ (r = 0 ∧ j = e) := by
        rintro j hj ⟨rfl, rfl⟩
        refine hne ⟨rfl, ?_⟩
        rw [div_pow_succ, pow_zero, Nat.div_one]
        omega
      rw [relabel_of_ne f _ (hchild _ (Or.inl rfl)), relabel_of_ne f _ (hchild _ (Or.inr rfl)),
        relabel_of_ne f _ (by omega)]
      exact hf r k hk
  have hcarry : x.Carries label (relabel f 0 e (label d)) 0 (e / 2 ^ 0) := by
    rw [(setEntry_eq_ok hopen hset').2.2.1, pow_zero, Nat.div_one]
    exact MMREntry.make_carries hclone (relabel_same f 0 e (label d)).symm
  have hunch : ∀ r k, ¬ (r ≤ 0 ∧ k = e / 2 ^ r) → relabel f 0 e (label d) r k = f r k := by
    intro r k hrk
    refine relabel_of_ne f _ ?_
    rintro ⟨rfl, rfl⟩
    exact hrk ⟨le_rfl, by simp⟩
  obtain ⟨g, h1, h2, h3, h4, h5, h6, h7⟩ := updateLoop_sound hclone hJ hm.small
    (hm.getPeaks hclone hopen) hchain hp _ m₁ x 0 _ m' hst hcarry hext hunch (hext.walks hw) hloop
  refine ⟨g, hext.trans h1, h2, h3, h4, h5, h6, ?_⟩
  have h0 := h7 0 le_rfl
  simpa using h0

end MMR

end Minima
