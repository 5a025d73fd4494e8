import Minima.Mmr.Lifecycle

/-! # Building an MMR from its leaves

With the node data itself as label, the labels of a tree are determined by its leaves, so any two
sound MMRs over the same leaves have the same peaks and the same root. This file builds the MMR of a
list of leaves in one go and shows that it exists whenever the sums of the tree do.

* **`MMR.addAll`** — `addEntry` of each leaf of a list, in order.
* **`addAll_sound`** — over the leaves of a tree whose sums exist, it succeeds and is sound.
* **`rootOfPeaks_congr`**, **`Sound.getRoot_eq`** — the root depends on hash and value of the peaks,
  hence on the leaves alone. -/

namespace Minima

open MountainRange

namespace MMR

variable {C : Crypto}

/-- Joining node data exactly, as `CreateMMRDataParentNode` does. -/
def Joins (C : Crypto) (l r p : MMRData) : Prop := MMRData.createMMRDataParentNode C l r = .ok p

theorem joins_clone (l r p : MMRData) (h : MMRData.createMMRDataParentNode C l r = .ok p) :
    Joins C l.clone r.clone p.clone := by
  rw [Joins, MMRData.createMMRDataParentNode_clone, MMRData.createMMRDataParentNode_clone_eq h, h]

theorem clone_idem (d : MMRData) : d.clone.clone = d.clone := rfl

/-- A sound MMR whose labels are the node data. -/
abbrev ExactSound (C : Crypto) (s : Snapshot MMRData) : Prop := Sound C MMRData.clone (Joins C) s

/-- A chain whose labels are the node data. -/
abbrev ExactChain (C : Crypto) (ss : List (Snapshot MMRData)) : Prop :=
  Chain C MMRData.clone (Joins C) ss

theorem Joins.unique (a b c d : MMRData) (h : Joins C a b c) (h' : Joins C a b d) : c = d := by
  rw [Joins] at h h'
  rw [h, Except.ok.injEq] at h'
  exact h'

/-! ## Progress of `addEntry` -/

/-- **The loop of `addEntry` succeeds** over a tree whose sums exist. -/
theorem addLoop_ok {anc : Ancestry} {n : ℕ} {g : ℕ → ℕ → MMRData}
    {older : List (Snapshot MMRData)} (hn : n + 1 < 2 ^ 256)
    (hg : Labelling (Joins C) (n + 1) g) (fuel : ℕ) :
    ∀ (m : MMR) (entry : MMREntry) (i : ℕ) (f : ℕ → ℕ → MMRData),
      AddStage MMRData.clone (Joins C) m n i f → entry.Carries MMRData.clone f i (n / 2 ^ i) →
      (∀ r k, Complete (n + 1) r k → Complete n r k ∨ r ≤ i → f r k = g r k) →
      m.blockTime.IsNonneg → Walks m anc older → 257 ≤ fuel + i →
      ∃ m', addLoop C anc fuel m entry = .ok m' := by
  induction fuel with
  | zero =>
      intro m entry i f hst _ _ _ _ hfuel
      have := hst.row_lt
      omega
  | succ fuel ih =>
      intro m entry i f hst hent hfg htime hw hfuel
      rw [addLoop, MMREntry.isRight, MMREntry.isLeft_of_ofNat hent.number]
      by_cases heven : n / 2 ^ i % 2 = 0
      · exact ⟨m, by simp [heven]⟩
      · have hpk : IsPeak n i (n / 2 ^ i - 1) := isPeak_last (by omega)
        have hsib : (m.getEntry anc entry.row entry.getSibling).Carries MMRData.clone f i
            (n / 2 ^ i - 1) := by
          rw [MMREntry.getSibling_of_ofNat hent.number, sibling, if_neg heven, hent.row]
          exact getEntryBack_of_has (s := ⟨m, n + 1, f⟩) clone_idem hw hst.stored
            (by simpa using htime.toRat_nonneg) (hst.peaks i _ hpk)
        obtain ⟨l, hl, hll⟩ := hsib.getMMRData
        obtain ⟨r, hr, hrl⟩ := hent.getMMRData
        have hlow := hst.low.succ heven
        have hc : Complete (n + 1) (i + 1) (n / 2 ^ (i + 1)) := by
          unfold Complete
          rw [hlow.div]
          omega
        obtain ⟨hc1, hc2⟩ := complete_children hc
        -- the tree has a node here, so the sum exists
        have hjoin := hg i _ hc
        have hdiv : n / 2 ^ (i + 1) = n / 2 ^ i / 2 := div_pow_succ n i
        obtain ⟨h1, h2⟩ := pair_of_odd heven
        have hl' : l.clone = g i (2 * (n / 2 ^ (i + 1))) := by
          rw [hll, ← hfg i _ hc1 (Or.inr le_rfl), hdiv, h1, sibling, if_neg heven]
        have hr' : r.clone = g i (2 * (n / 2 ^ (i + 1)) + 1) := by
          rw [hrl, ← hfg i _ hc2 (Or.inr le_rfl), hdiv, h2]
        rw [← hl', ← hr', Joins, MMRData.createMMRDataParentNode_clone] at hjoin
        obtain ⟨⟨m₁, x⟩, hset⟩ : ∃ mx, m.setEntry (i + 1 : ℕ) (.ofNat (n / 2 ^ (i + 1)))
            (g (i + 1) (n / 2 ^ (i + 1))) = .ok mx :=
          ⟨_, setEntry_of_range _ _ hst.isOpen (by positivity)
            (by have := hc.row_lt hn; unfold maxRows; omega)⟩
        obtain ⟨hst₁, hx⟩ := hst.step clone_idem joins_clone heven hll hrl hjoin hset
        have hext := setEntry_extends hst.isOpen hset
        have hfg₁ : ∀ r k, Complete (n + 1) r k → Complete n r k ∨ r ≤ i + 1 →
            relabel f (i + 1) (n / 2 ^ (i + 1)) (g (i + 1) (n / 2 ^ (i + 1))).clone r k = g r k := by
          intro r k hck hor
          by_cases hrk : r = i + 1 ∧ k = n / 2 ^ (i + 1)
          · rw [hrk.1, hrk.2, relabel_same, MMRData.createMMRDataParentNode_clone_eq hjoin]
          · rw [relabel_of_ne f _ hrk]
            refine hfg r k hck ?_
            by_cases hcn : Complete n r k
            · exact Or.inl hcn
            · have hk := eq_ancestor_of_new hck hcn
              rcases hor with hcn' | hle
              · exact Or.inl hcn'
              · refine Or.inr ?_
                by_contra hlt
                have hri : r = i + 1 := by omega
                exact hrk ⟨hri, hri ▸ hk⟩
        obtain ⟨m', hm'⟩ := ih _ _ (i + 1) _ hst₁ hx hfg₁ (hext.blockTime ▸ htime) (hext.walks hw)
          (by omega)
        refine ⟨m', ?_⟩
        have hset' : m.setEntry entry.getParentRow entry.getParentEntry
            (g (i + 1) (n / 2 ^ (i + 1))) = .ok (m₁, x) := by
          rw [MMREntry.getParentRow, hent.row, MMREntry.getParentEntry_of_ofNat hent.number,
            ancestor_succ]
          exact_mod_cast hset
        simp only [heven, decide_false, Bool.not_false, if_true, hl, hr, Result.ok_bind, hjoin,
          hset']
        exact hm'

/-- **`addEntry` succeeds** when the sums over the new leaf exist. -/
theorem addEntry_ok {anc : Ancestry} {m : MMR} {n : ℕ} {f g : ℕ → ℕ → MMRData} {d : MMRData}
    {older : List (Snapshot MMRData)} (hm : m.Tracks MMRData.clone n f)
    (hf : Labelling (Joins C) n f) (hopen : m.finalized = false) (htime : m.blockTime.IsNonneg)
    (hw : Walks m anc older) (hn : n + 1 < 2 ^ 256) (hg : Labelling (Joins C) (n + 1) g)
    (hfg : ∀ r k, Complete n r k → f r k = g r k) (hd : d.clone = g 0 n) :
    ∃ m' x, addEntry C anc m d = .ok (m', x) := by
  obtain ⟨⟨m₁, x⟩, hset⟩ : ∃ mx, m.setEntry 0 (.ofNat n) d = .ok mx :=
    ⟨_, setEntry_of_range _ d hopen (le_refl (0 : ℤ)) (by norm_num [maxRows])⟩
  have hset' : m.setEntry (0 : ℕ) (.ofNat n) d = .ok (m₁, x) := hset
  obtain ⟨hst, hx⟩ := addStage_zero clone_idem hm hf hopen hset'
  have hext := setEntry_extends hopen hset'
  have hfg₀ : ∀ r k, Complete (n + 1) r k → Complete n r k ∨ r ≤ 0 →
      relabel f 0 n d.clone r k = g r k := by
    intro r k hck hor
    by_cases hrk : r = 0 ∧ k = n
    · rw [hrk.1, hrk.2, relabel_same, hd]
    · rw [relabel_of_ne f _ hrk]
      refine hfg r k ?_
      by_contra hcn
      have hk := eq_ancestor_of_new hck hcn
      rcases hor with hc | hle
      · exact hcn hc
      · obtain rfl : r = 0 := by omega
        exact hrk ⟨rfl, by simpa using hk⟩
  have hext' : m.Extends { m₁ with entryNumber := m.entryNumber.increment } :=
    ⟨hext.blockTime, hext.useMegaMMR, hext.finalized, hext.has⟩
  obtain ⟨m', hm'⟩ := addLoop_ok hn hg 257 _ _ 0 _ hst hx hfg₀ (hext'.blockTime ▸ htime)
    (hext'.walks hw) (by norm_num)
  refine ⟨m', x, ?_⟩
  rw [← setEntry_entryNumber hopen hset] at hm'
  unfold addEntry
  rw [hm.entryNumber, hset]
  simp only [Result.ok_bind, hm', Result.pure_eq_ok]

/-! ## All leaves at once -/

/-- `addEntry` of every leaf of a list, in order. -/
def addAll (C : Crypto) (anc : Ancestry) : MMR → List MMRData → Result MMR
  | m, [] => .ok m
  | m, d :: ds => do
      let (m, _) ← addEntry C anc m d
      addAll C anc m ds

/-- Labels that agree on the complete nodes serve equally well. -/
theorem Tracks.congr {A : Type} {label : MMRData → A} {m : MMR} {n : ℕ} {f g : ℕ → ℕ → A}
    (h : m.Tracks label n f) (hfg : ∀ r k, Complete n r k → f r k = g r k) :
    m.Tracks label n g := by
  refine ⟨h.indexed, ?_, h.peaks, h.pairs, h.entryNumber, h.small⟩
  intro x hx
  obtain ⟨r, k, hk, hcx⟩ := h.stored x hx
  exact ⟨r, k, hk, hcx.congr (hfg r k hk)⟩

/-- **Adding leaves keeps an MMR sound** and stores every node that is new. -/
theorem addAll_sound {A : Type} {label : MMRData → A} {J : A → A → A → Prop}
    (hclone : ∀ d : MMRData, label d.clone = label d)
    (hJ : ∀ l r p, MMRData.createMMRDataParentNode C l r = .ok p → J (label l) (label r) (label p))
    {anc : Ancestry} {older : List (Snapshot A)} (ds : List MMRData) :
    ∀ (m : MMR) (n : ℕ) (f : ℕ → ℕ → A) (m' : MMR), m.Tracks label n f → Labelling J n f →
      m.finalized = false → m.blockTime.IsNonneg → Walks m anc older →
      addAll C anc m ds = .ok m' →
      ∃ g, m.Extends m' ∧ m'.Tracks label (n + ds.length) g ∧ Labelling J (n + ds.length) g ∧
        (∀ r k, Complete (n + ds.length) r k → Complete n r k ∨ m'.Has r k) ∧
        (∀ r k, Complete n r k → g r k = f r k) ∧
        ∀ i (h : i < ds.length), g 0 (n + i) = label ds[i] := by
  induction ds with
  | nil =>
      intro m n f m' hm hf _ _ _ h
      rw [addAll, Except.ok.injEq] at h
      subst h
      exact ⟨f, Extends.refl m, hm, hf, fun _ _ h => Or.inl h, fun _ _ _ => rfl,
        fun i h => absurd h (Nat.not_lt_zero i)⟩
  | cons d ds ih =>
      intro m n f m' hm hf hopen htime hw h
      simp only [addAll, Result.bind_eq_ok] at h
      obtain ⟨⟨m₁, x⟩, hadd, hrest⟩ := h
      obtain ⟨-, g₁, h1, h2, h3, h4, h5, h6⟩ := addEntry_sound hclone hJ hm hf hopen htime hw hadd
      obtain ⟨g, h7, h8, h9, h10, h11, h12⟩ := ih m₁ (n + 1) g₁ m' h2 h3
        (h1.finalized.trans hopen) (h1.blockTime ▸ htime) (h1.walks hw) hrest
      have hsize : n + (d :: ds).length = n + 1 + ds.length := by
        rw [List.length_cons]
        omega
      rw [hsize]
      refine ⟨g, h1.trans h7, h8, h9, ?_, ?_, ?_⟩
      · intro r k hk
        rcases h10 r k hk with hc | hhas
        · exact (h4 r k hc).imp_right (h7.has r k)
        · exact Or.inr hhas
      · intro r k hk
        rw [h11 r k (hk.mono (Nat.le_succ n)), h5 r k hk]
      · intro i hi
        cases i with
        | zero => rw [Nat.add_zero, h11 0 n (complete_zero.mpr (Nat.lt_succ_self n)), h6]; rfl
        | succ i =>
            have := h12 i (by simpa using hi)
            rw [List.getElem_cons_succ, ← this]
            congr 1
            omega

/-- **Adding the remaining leaves of a tree** whose sums exist succeeds, ends at that tree, and
stores every node of it that is new. -/
theorem addAll_ok {anc : Ancestry} {older : List (Snapshot MMRData)} {g : ℕ → ℕ → MMRData}
    (ds : List MMRData) : ∀ (m : MMR) (n : ℕ), m.Tracks MMRData.clone n g →
      m.finalized = false → m.blockTime.IsNonneg → Walks m anc older → n + ds.length < 2 ^ 256 →
      Labelling (Joins C) (n + ds.length) g →
      (∀ i (h : i < ds.length), ds[i].clone = g 0 (n + i)) →
      ∃ m', addAll C anc m ds = .ok m' ∧ m.Extends m' ∧
        m'.Tracks MMRData.clone (n + ds.length) g ∧
        ∀ r k, Complete (n + ds.length) r k → Complete n r k ∨ m'.Has r k := by
  induction ds with
  | nil =>
      intro m n hm _ _ _ _ _ _
      exact ⟨m, rfl, Extends.refl m, hm, fun _ _ h => Or.inl h⟩
  | cons d ds ih =>
      intro m n hm hopen htime hw hlen hg hds
      rw [List.length_cons] at hlen hg
      have hsub : ∀ b, b ≤ n + (ds.length + 1) → Labelling (Joins C) b g :=
        fun b hb r k hk => hg r k (hk.mono hb)
      have hd : d.clone = g 0 n := by
        have := hds 0 (by simp)
        simpa using this
      obtain ⟨m₁, x, hadd⟩ := addEntry_ok hm (hsub n (by omega)) hopen htime hw (by omega)
        (hsub (n + 1) (by omega)) (fun _ _ _ => rfl) hd
      obtain ⟨-, g', h1, h2, h3, h4, h5, h6⟩ := addEntry_sound clone_idem joins_clone hm
        (hsub n (by omega)) hopen htime hw hadd
      have hgg : ∀ r k, Complete (n + 1) r k → g' r k = g r k := by
        refine h3.unique Joins.unique (hsub (n + 1) (by omega)) ?_
        intro k hk
        rcases Nat.lt_succ_iff_lt_or_eq.mp hk with hlt | rfl
        · exact h5 0 k (complete_zero.mpr hlt)
        · rw [h6, hd]
      obtain ⟨m', h7, h8, h9, h10⟩ := ih m₁ (n + 1) (h2.congr hgg) (h1.finalized.trans hopen)
        (h1.blockTime ▸ htime) (h1.walks hw) (by omega) (hsub _ (by omega)) (by
          intro i hi
          have := hds (i + 1) (by simpa using hi)
          rw [List.getElem_cons_succ] at this
          rw [this]
          congr 1
          omega)
      have hsize : n + (d :: ds).length = n + 1 + ds.length := by
        rw [List.length_cons]
        omega
      refine ⟨m', ?_, h1.trans h8, hsize ▸ h9, ?_⟩
      · rw [addAll, hadd]
        exact h7
      · intro r k hk
        rcases h10 r k (hsize ▸ hk) with hc | hhas
        · rcases h4 r k hc with hc' | hhas'
          · exact Or.inl hc'
          · exact Or.inr (h8.has r k hhas')
        · exact Or.inr hhas

/-! ## The root depends on the leaves alone -/

/-- The two entries hold the same hash and value. -/
def SameData (x y : MMREntry) : Prop :=
  ∃ d d', x.getMMRData = .ok d ∧ y.getMMRData = .ok d' ∧ d.clone = d'.clone

theorem bagPeaks_congr {xs ys : List MMREntry} (h : List.Forall₂ SameData xs ys) :
    ∀ m, bagPeaks C m xs = bagPeaks C m ys := by
  induction h with
  | nil => exact fun m => rfl
  | cons hxy _ ih =>
      intro m
      obtain ⟨d, d', hd, hd', heq⟩ := hxy
      simp only [bagPeaks, hd, hd', Result.ok_bind, MMRData.make_eq_clone, heq, ih]

/-- Whether peaks are bagged depends on their number only, and bagging on their data only. -/
theorem rootLoop_congr {xs ys : List MMREntry} (h : List.Forall₂ SameData xs ys) (fuel : ℕ) :
    (rootLoop C fuel xs = .ok xs ∧ rootLoop C fuel ys = .ok ys) ∨
      rootLoop C fuel xs = rootLoop C fuel ys := by
  cases fuel with
  | zero => exact Or.inl ⟨rfl, rfl⟩
  | succ fuel =>
      by_cases hlen : 1 < xs.length
      · right
        rw [rootLoop, rootLoop, if_pos hlen, if_pos (h.length_eq ▸ hlen), bagPeaks_congr h]
      · left
        exact ⟨by rw [rootLoop, if_neg hlen], by rw [rootLoop, if_neg (h.length_eq ▸ hlen)]⟩

/-- **The root depends on hash and value of the peaks.** -/
theorem rootOfPeaks_congr {xs ys : List MMREntry} (h : List.Forall₂ SameData xs ys) :
    rootOfPeaks C xs = rootOfPeaks C ys := by
  unfold rootOfPeaks
  have hempty : xs.isEmpty = ys.isEmpty := by
    cases h with
    | nil => rfl
    | cons _ _ => rfl
  rw [hempty, h.length_eq]
  rcases rootLoop_congr h ys.length with ⟨hx, hy⟩ | heq
  · rw [hx, hy]
    cases h with
    | nil => rfl
    | cons hxy _ =>
        obtain ⟨d, d', hd, hd', heq⟩ := hxy
        simp only [Result.ok_bind, hd, hd', MMRData.make_eq_clone, heq]
  · rw [heq]

/-- Lists of peaks of one tree hold the same data. -/
theorem PeaksCarry.sameData {n : ℕ} {f : ℕ → ℕ → MMRData} {xs ys : List MMREntry}
    (hx : PeaksCarry MMRData.clone n f xs) (hy : PeaksCarry MMRData.clone n f ys) :
    List.Forall₂ SameData xs ys := by
  unfold PeaksCarry at hx hy
  generalize n.bitIndices.reverse = rows at hx hy
  induction hx generalizing ys with
  | nil =>
      cases hy
      exact List.Forall₂.nil
  | cons hcx _ ih =>
      cases hy with
      | cons hcy hys =>
          obtain ⟨d, hd, hl⟩ := hcx.getMMRData
          obtain ⟨d', hd', hl'⟩ := hcy.getMMRData
          exact List.Forall₂.cons ⟨d, d', hd, hd', hl.trans hl'.symm⟩ (ih hys)

/-- Peaks are complete nodes, so labels that agree on these have the same peaks. -/
theorem PeaksCarry.congr {A : Type} {label : MMRData → A} {n : ℕ} {f g : ℕ → ℕ → A}
    {xs : List MMREntry} (h : PeaksCarry label n f xs)
    (hfg : ∀ r k, Complete n r k → f r k = g r k) : PeaksCarry label n g xs := by
  have hrows : ∀ r ∈ n.bitIndices.reverse, n / 2 ^ r % 2 = 1 := by
    intro r hr
    rwa [List.mem_reverse, mem_bitIndices_iff] at hr
  unfold PeaksCarry at h ⊢
  generalize n.bitIndices.reverse = rows at h hrows
  induction h with
  | nil => exact List.Forall₂.nil
  | cons hx _ ih =>
      have hp := isPeak_last (hrows _ List.mem_cons_self)
      exact List.Forall₂.cons (hx.congr (hfg _ _ hp.complete))
        (ih fun r hr => hrows r (List.mem_cons_of_mem _ hr))

/-- **Two sound MMRs over the same leaves have the same root.** -/
theorem Sound.getRoot_eq {s t : Snapshot MMRData} (hs : ExactSound C s) (ht : ExactSound C t)
    (hsize : s.size = t.size) (h0 : ∀ k < s.size, s.label 0 k = t.label 0 k) :
    s.mmr.getRoot C = t.mmr.getRoot C := by
  obtain ⟨xs, hxs, hx⟩ := hs.getRoot clone_idem
  obtain ⟨ys, hys, hy⟩ := ht.getRoot clone_idem
  have hlab := hs.joined.unique Joins.unique (hsize ▸ ht.joined) h0
  have hxs' := hxs.congr hlab
  rw [hsize] at hxs'
  rw [hx, hy, rootOfPeaks_congr (hxs'.sameData hys)]

end MMR

end Minima
