import Minima.Mmr.MMR

/-! # What an `MMR` knows of the tree: the tracking invariant

The tree over all leaves exists nowhere in the node: an `MMR` stores the nodes one block touched.
The invariant relates it to the labels `f` of the virtual tree over `n` leaves. Labels live in any
type, read off node data by `label`, so that the same invariant serves exact results (the label is
the data) and results up to the representation of amounts.

* **`MMR.Tracks`** — stored nodes carry their labels, the peaks are stored, and a stored node that
  is not a peak is stored together with its sibling.
* **`MMR.Indexed`** — the table of largest entries is what its name says; every `setEntry` keeps it.
* **`Tracks.getPeaks`** — such an MMR hands out exactly the peaks. -/

namespace Minima

open MountainRange

namespace MMREntry

variable {A : Type} (label : MMRData → A)

/-- The entry is node `k` of row `r` and carries the label that `f` gives this node. -/
structure Carries (x : MMREntry) (f : ℕ → ℕ → A) (r k : ℕ) : Prop where
  row : x.row = r
  number : x.entryNumber = .ofNat k
  full : x.isEmpty = false
  data : ∃ d, x.mmrData = some d ∧ label d = f r k

variable {label} (hclone : ∀ d : MMRData, label d.clone = label d)

include hclone

theorem Carries.copy {x : MMREntry} {f : ℕ → ℕ → A} {r k : ℕ} (h : x.Carries label f r k) :
    x.copy.Carries label f r k := by
  obtain ⟨d, hd, hl⟩ := h.data
  exact ⟨h.row, h.number, h.full, d.clone, by simp [MMREntry.copy, hd], by rw [hclone, hl]⟩

theorem make_carries {f : ℕ → ℕ → A} {r k : ℕ} {d : MMRData} (h : label d = f r k) :
    (make r (.ofNat k) d).Carries label f r k :=
  ⟨rfl, rfl, rfl, d.clone, rfl, by rw [hclone, h]⟩

omit hclone

/-- Changing the label of another node does not matter. -/
theorem Carries.congr {x : MMREntry} {f g : ℕ → ℕ → A} {r k : ℕ} (h : x.Carries label f r k)
    (hfg : f r k = g r k) : x.Carries label g r k :=
  ⟨h.row, h.number, h.full, hfg ▸ h.data⟩

theorem Carries.getMMRData {x : MMREntry} {f : ℕ → ℕ → A} {r k : ℕ} (h : x.Carries label f r k) :
    ∃ d, x.getMMRData = .ok d ∧ label d = f r k := by
  obtain ⟨d, hd, hl⟩ := h.data
  exact ⟨d, by rw [MMREntry.getMMRData, hd], hl⟩

end MMREntry

namespace MMR

/-! ## The entry table -/

/-- Node `k` of row `r` is in the table of the MMR. -/
def Has (m : MMR) (r k : ℕ) : Prop := (findEntry m.setEntries r (.ofNat k)).isSome

theorem sameKey_iff {row : ℤ} {e : MMREntryNumber} {x : MMREntry} :
    sameKey row e x = true ↔ x.row = row ∧ x.entryNumber.toRat = e.toRat := by
  rw [sameKey, Bool.and_eq_true, beq_iff_eq, MMREntryNumber.isEqual_iff]

theorem findEntry_some {l : List MMREntry} {row : ℤ} {e : MMREntryNumber} {x : MMREntry}
    (h : findEntry l row e = some x) :
    x ∈ l ∧ x.row = row ∧ x.entryNumber.toRat = e.toRat :=
  ⟨List.mem_of_find?_eq_some h, sameKey_iff.mp (List.find?_some h)⟩

theorem findEntry_putEntry_same {l : List MMREntry} {x : MMREntry} {row : ℤ} {e : MMREntryNumber}
    (hr : x.row = row) (he : x.entryNumber.toRat = e.toRat) :
    findEntry (putEntry l x) row e = some x := by
  rw [findEntry, putEntry, List.find?_cons_of_pos (sameKey_iff.mpr ⟨hr, he⟩)]

theorem findEntry_putEntry_of_ne {l : List MMREntry} {x : MMREntry} {row : ℤ}
    {e : MMREntryNumber} (h : ¬ (x.row = row ∧ x.entryNumber.toRat = e.toRat)) :
    findEntry (putEntry l x) row e = findEntry l row e := by
  rw [findEntry, putEntry, List.find?_cons_of_neg (by rwa [sameKey_iff]), List.find?_filter,
    findEntry]
  congr 1
  funext y
  rw [Bool.eq_iff_iff, decide_eq_true_eq, Bool.not_eq_true', ← Bool.not_eq_true, sameKey_iff,
    sameKey_iff]
  constructor
  · exact fun hy => hy.2
  · rintro ⟨h1, h2⟩
    exact ⟨fun h3 => h ⟨h3.1.symm.trans h1, h3.2.symm.trans h2⟩, h1, h2⟩

theorem mem_putEntry {l : List MMREntry} {x y : MMREntry} (h : y ∈ putEntry l x) :
    y = x ∨ (y ∈ l ∧ ¬ (y.row = x.row ∧ y.entryNumber.toRat = x.entryNumber.toRat)) := by
  rw [putEntry, List.mem_cons, List.mem_filter, Bool.not_eq_true', ← Bool.not_eq_true,
    sameKey_iff] at h
  exact h

/-! ## The table of largest entries -/

/-- The table of largest entries holds, for each row, the stored entry of the largest number. -/
structure Indexed (m : MMR) : Prop where
  found : ∀ (r : ℤ) (x : MMREntry), m.maxEntries r = some x →
    x.row = r ∧ findEntry m.setEntries r x.entryNumber = some x
  largest : ∀ y ∈ m.setEntries, ∃ x, m.maxEntries y.row = some x ∧
    y.entryNumber.toRat ≤ x.entryNumber.toRat
  range : ∀ y ∈ m.setEntries, 0 ≤ y.row ∧ y.row < maxRows ∧ y.row ≤ m.maxRow

theorem indexed_new : new.Indexed :=
  ⟨fun _ _ h => absurd h (by simp [new]), by simp [new], by simp [new]⟩

/-- What `setEntry` does to an open MMR. -/
theorem setEntry_eq_ok {m m' : MMR} {row : ℤ} {e : MMREntryNumber} {d : MMRData} {x : MMREntry}
    (hopen : m.finalized = false) (h : m.setEntry row e d = .ok (m', x)) :
    0 ≤ row ∧ row < maxRows ∧ x = .make row e d ∧
      m' = { m with
        maxRow := max m.maxRow row
        setEntries := putEntry m.setEntries (.make row e d)
        maxEntries := putMax m.maxEntries (.make row e d) } := by
  unfold setEntry at h
  rw [if_neg (by simp [hopen])] at h
  split_ifs at h with hr
  · exact absurd h (by simp [undefinedBehaviour])
  · rw [Except.ok.injEq, Prod.mk.injEq] at h
    exact ⟨by omega, by omega, h.2.symm, h.1.symm⟩

theorem setEntry_of_range {m : MMR} {row : ℤ} (e : MMREntryNumber) (d : MMRData)
    (hopen : m.finalized = false) (h0 : 0 ≤ row) (h1 : row < maxRows) :
    m.setEntry row e d = .ok ({ m with
        maxRow := max m.maxRow row
        setEntries := putEntry m.setEntries (.make row e d)
        maxEntries := putMax m.maxEntries (.make row e d) }, .make row e d) := by
  unfold setEntry
  rw [if_neg (by simp [hopen]), if_neg (by omega)]

/-- **Every `setEntry` keeps the table of largest entries right.** -/
theorem Indexed.setEntry {m m' : MMR} {row : ℤ} {e : MMREntryNumber} {d : MMRData} {x : MMREntry}
    (hm : m.Indexed) (hopen : m.finalized = false) (h : m.setEntry row e d = .ok (m', x)) :
    m'.Indexed := by
  obtain ⟨h0, h1, -, rfl⟩ := setEntry_eq_ok hopen h
  set new := MMREntry.make row e d with hnew
  constructor
  · intro r y hy
    simp only [putMax] at hy
    split_ifs at hy with hr
    · -- the row that was written
      cases hmax : m.maxEntries r with
      | none =>
          rw [hmax, Option.some.injEq] at hy
          subst hy
          exact ⟨hr.symm, findEntry_putEntry_same hr.symm rfl⟩
      | some z =>
          rw [hmax] at hy
          simp only at hy
          obtain ⟨hz1, hz2⟩ := hm.found r z hmax
          split_ifs at hy with hle
          · rw [Option.some.injEq] at hy
            subst hy
            exact ⟨hr.symm, findEntry_putEntry_same hr.symm rfl⟩
          · rw [Option.some.injEq] at hy
            subst hy
            refine ⟨hz1, ?_⟩
            rw [findEntry_putEntry_of_ne, hz2]
            rintro ⟨-, heq⟩
            exact hle ((MMREntryNumber.isLessEqual_iff _ _).mpr heq.ge)
    · obtain ⟨hy1, hy2⟩ := hm.found r y hy
      refine ⟨hy1, ?_⟩
      rw [findEntry_putEntry_of_ne, hy2]
      rintro ⟨heq, -⟩
      exact hr heq.symm
  · intro y hy
    simp only [putMax]
    rcases mem_putEntry hy with rfl | ⟨hy', -⟩
    · rw [if_pos rfl]
      cases hmax : m.maxEntries new.row with
      | none => exact ⟨new, rfl, le_rfl⟩
      | some z =>
          simp only
          split_ifs with hle
          · exact ⟨new, rfl, le_rfl⟩
          · rw [MMREntryNumber.isLessEqual_iff, not_le] at hle
            exact ⟨z, rfl, hle.le⟩
    · obtain ⟨x, hx, hle⟩ := hm.largest y hy'
      split_ifs with hr
      · rw [hx]
        simp only
        split_ifs with hle'
        · exact ⟨new, rfl, hle.trans ((MMREntryNumber.isLessEqual_iff _ _).mp hle')⟩
        · exact ⟨x, rfl, hle⟩
      · exact ⟨x, hx, hle⟩
  · intro y hy
    rcases mem_putEntry hy with rfl | ⟨hy', -⟩
    · exact ⟨h0, h1, le_max_right _ _⟩
    · obtain ⟨h2, h3, h4⟩ := hm.range y hy'
      exact ⟨h2, h3, h4.trans (le_max_left _ _)⟩

theorem has_setEntry {m m' : MMR} {row e : ℕ} {d : MMRData} {x : MMREntry}
    (hopen : m.finalized = false) (h : m.setEntry row (.ofNat e) d = .ok (m', x)) (r k : ℕ) :
    m'.Has r k ↔ (r = row ∧ k = e) ∨ m.Has r k := by
  obtain ⟨-, -, -, rfl⟩ := setEntry_eq_ok hopen h
  unfold Has
  by_cases hk : r = row ∧ k = e
  · rw [findEntry_putEntry_same (by simp [hk.1]) (by simp [hk.2])]
    simp [hk]
  · rw [findEntry_putEntry_of_ne]
    · simp [hk]
    · simp only [MMREntry.make_row, MMREntry.make_entryNumber, MMREntryNumber.toRat_ofNat,
        Nat.cast_inj]
      omega

/-! ## Tracking a tree -/

section Tracking

variable {A : Type} (label : MMRData → A)

/-- Every stored entry is a complete node and carries its label. -/
def Stored (m : MMR) (n : ℕ) (f : ℕ → ℕ → A) : Prop :=
  ∀ x ∈ m.setEntries, ∃ r k, Complete n r k ∧ x.Carries label f r k

/-- The entries `xs` are the peaks over `n` leaves, from the top row down, with their labels. -/
def PeaksCarry (n : ℕ) (f : ℕ → ℕ → A) (xs : List MMREntry) : Prop :=
  List.Forall₂ (fun r x => x.Carries label f r (n / 2 ^ r - 1)) n.bitIndices.reverse xs

/-- **The tracking invariant.** -/
structure Tracks (m : MMR) (n : ℕ) (f : ℕ → ℕ → A) : Prop where
  indexed : m.Indexed
  stored : m.Stored label n f
  peaks : ∀ r k, IsPeak n r k → m.Has r k
  pairs : ∀ r k, m.Has r k → ¬ IsPeak n r k → m.Has r (sibling k)
  entryNumber : m.entryNumber = .ofNat n
  small : n < 2 ^ 256

variable {label}

theorem Stored.find {m : MMR} {n : ℕ} {f : ℕ → ℕ → A} (h : m.Stored label n f) {r k : ℕ}
    {x : MMREntry} (hx : findEntry m.setEntries r (.ofNat k) = some x) :
    Complete n r k ∧ x.Carries label f r k := by
  obtain ⟨hmem, hrow, hnum⟩ := findEntry_some hx
  obtain ⟨r', k', hc, hx'⟩ := h x hmem
  have hr : r' = r := by exact_mod_cast hx'.row.symm.trans hrow
  have hk : k' = k := by
    rw [hx'.number, MMREntryNumber.toRat_ofNat, MMREntryNumber.toRat_ofNat] at hnum
    exact_mod_cast hnum
  subst hr hk
  exact ⟨hc, hx'⟩

theorem Stored.complete {m : MMR} {n : ℕ} {f : ℕ → ℕ → A} (h : m.Stored label n f) {r k : ℕ}
    (hx : m.Has r k) : Complete n r k := by
  obtain ⟨x, hx'⟩ := Option.isSome_iff_exists.mp hx
  exact (h.find hx').1

/-- **Setting a node relabels it.** -/
theorem Stored.setEntry (hclone : ∀ d : MMRData, label d.clone = label d) {m m' : MMR} {n : ℕ}
    {f : ℕ → ℕ → A} (hm : m.Stored label n f) {row e : ℕ} {d : MMRData} {x : MMREntry}
    (hopen : m.finalized = false) (hc : Complete n row e)
    (h : m.setEntry row (.ofNat e) d = .ok (m', x)) :
    m'.Stored label n (relabel f row e (label d)) := by
  obtain ⟨-, -, -, rfl⟩ := setEntry_eq_ok hopen h
  intro y hy
  rcases mem_putEntry hy with rfl | ⟨hy', hne⟩
  · exact ⟨row, e, hc, MMREntry.make_carries hclone (relabel_same f row e (label d)).symm⟩
  · obtain ⟨r, k, hc', hy''⟩ := hm y hy'
    refine ⟨r, k, hc', hy''.congr (relabel_of_ne f _ ?_).symm⟩
    rintro ⟨rfl, rfl⟩
    exact hne ⟨hy''.row, by rw [hy''.number]; rfl⟩

/-! ### The peaks it hands out -/

theorem mem_bitIndices_iff {n r : ℕ} : r ∈ n.bitIndices ↔ n / 2 ^ r % 2 = 1 := by
  rw [← testBit_iff, Nat.mem_bitIndices]

/-- The rows a scan from any high enough row selects are the set bits, from the top down. -/
theorem rowsDown_filter {n : ℕ} {b : ℤ} (hb : ∀ r : ℕ, n / 2 ^ r % 2 = 1 → (r : ℤ) ≤ b) :
    (List.range (b + 1).toNat).reverse.filter (fun r => decide (n / 2 ^ r % 2 = 1)) =
      n.bitIndices.reverse := by
  rw [List.filter_reverse]
  congr 1
  refine List.SortedLT.eq_of_mem_iff ?_ Nat.bitIndices_sorted ?_
  · exact (List.Pairwise.filter _ List.pairwise_lt_range).sortedLT
  · intro r
    rw [List.mem_filter, List.mem_range, decide_eq_true_eq, mem_bitIndices_iff]
    refine ⟨fun h => h.2, fun h => ⟨?_, h⟩⟩
    have := hb r h
    omega

/-- Selecting along a list: where the selected elements are those that satisfy `p`, the results
are related to them one by one. -/
theorem forall₂_filterMap {α β : Type} {R : α → β → Prop} {p : α → Bool} {g : α → Option β}
    {l : List α} (hp : ∀ a ∈ l, p a = true → ∃ b, g a = some b ∧ R a b)
    (hn : ∀ a ∈ l, p a = false → g a = none) : List.Forall₂ R (l.filter p) (l.filterMap g) := by
  induction l with
  | nil => exact List.Forall₂.nil
  | cons a l ih =>
      have ih' := ih (fun b hb => hp b (List.mem_cons_of_mem a hb))
        (fun b hb => hn b (List.mem_cons_of_mem a hb))
      cases ha : p a with
      | true =>
          obtain ⟨b, hb, hr⟩ := hp a List.mem_cons_self ha
          rw [List.filter_cons_of_pos ha, List.filterMap_cons_some hb]
          exact List.Forall₂.cons hr ih'
      | false =>
          rw [List.filter_cons_of_neg (by simp [ha]),
            List.filterMap_cons_none (hn a List.mem_cons_self ha)]
          exact ih'

/-- In a row whose bit is set, the largest entry is the peak. -/
theorem Tracks.maxEntries_peak {m : MMR} {n : ℕ} {f : ℕ → ℕ → A} (h : m.Tracks label n f) {r : ℕ}
    (hr : n / 2 ^ r % 2 = 1) :
    ∃ x, m.maxEntries r = some x ∧ x.Carries label f r (n / 2 ^ r - 1) ∧ (r : ℤ) ≤ m.maxRow := by
  have hpeak := isPeak_last hr
  obtain ⟨y, hy⟩ := Option.isSome_iff_exists.mp (h.peaks r _ hpeak)
  obtain ⟨-, hcy⟩ := h.stored.find hy
  obtain ⟨hmem, hrow, -⟩ := findEntry_some hy
  obtain ⟨x, hx, hle⟩ := h.indexed.largest y hmem
  rw [hrow] at hx
  obtain ⟨hxrow, hxfind⟩ := h.indexed.found r x hx
  obtain ⟨hxmem, -, -⟩ := findEntry_some hxfind
  obtain ⟨r', k', hc, hcx⟩ := h.stored x hxmem
  have hr' : r' = r := by exact_mod_cast hcx.row.symm.trans hxrow
  subst hr'
  rw [hcy.number, hcx.number, MMREntryNumber.toRat_ofNat, MMREntryNumber.toRat_ofNat,
    Nat.cast_le] at hle
  have hk' : k' = n / 2 ^ r' - 1 := by
    unfold Complete at hc
    omega
  rw [hk'] at hcx
  exact ⟨x, hx, hcx, hrow ▸ (h.indexed.range y hmem).2.2⟩

/-- In any other row the largest entry, if there is one, is a right node. -/
theorem Tracks.maxEntries_other {m : MMR} {n : ℕ} {f : ℕ → ℕ → A} (h : m.Tracks label n f) {r : ℕ}
    (hr : ¬ n / 2 ^ r % 2 = 1) {x : MMREntry} (hx : m.maxEntries r = some x) : x.isLeft = false := by
  obtain ⟨hxrow, hxfind⟩ := h.indexed.found r x hx
  obtain ⟨hxmem, -, -⟩ := findEntry_some hxfind
  obtain ⟨r', k, hc, hcx⟩ := h.stored x hxmem
  have hr' : r' = r := by exact_mod_cast hcx.row.symm.trans hxrow
  subst hr'
  rw [MMREntry.isLeft_of_ofNat hcx.number, decide_eq_false_iff_not]
  intro hk
  -- a left node is stored with its sibling, which has a larger number
  have hhas : m.Has r' k := by
    rw [Has, ← hcx.number, hxfind]
    rfl
  obtain ⟨y, hy⟩ := Option.isSome_iff_exists.mp (h.pairs r' k hhas (fun hp => hr hp.1))
  obtain ⟨hmem, hrow, hnum⟩ := findEntry_some hy
  obtain ⟨z, hz, hle⟩ := h.indexed.largest y hmem
  rw [hrow, hx, Option.some.injEq] at hz
  subst hz
  rw [hnum, hcx.number, MMREntryNumber.toRat_ofNat, MMREntryNumber.toRat_ofNat, Nat.cast_le,
    sibling, if_pos hk] at hle
  omega

/-- **An open MMR that tracks a tree hands out its peaks.** -/
theorem Tracks.getPeaks (hclone : ∀ d : MMRData, label d.clone = label d) {m : MMR} {n : ℕ}
    {f : ℕ → ℕ → A} (h : m.Tracks label n f) (hopen : m.finalized = false) :
    PeaksCarry label n f m.getPeaks := by
  have hrow : ∀ r : ℕ, n / 2 ^ r % 2 = 1 → (r : ℤ) ≤ m.maxRow := by
    intro r hr
    obtain ⟨x, -, -, hle⟩ := h.maxEntries_peak hr
    exact hle
  unfold MMR.getPeaks PeaksCarry
  rw [if_neg (by simp [hopen]), rowsDown, List.filterMap_map, ← rowsDown_filter hrow]
  refine forall₂_filterMap ?_ ?_
  · intro r _ hr
    rw [decide_eq_true_eq] at hr
    obtain ⟨x, hx, hcx, -⟩ := h.maxEntries_peak hr
    refine ⟨x.copy, ?_, hcx.copy hclone⟩
    have hleft : x.isLeft = true := by
      rw [MMREntry.isLeft_of_ofNat hcx.number, decide_eq_true_eq]
      exact (isPeak_last hr).even
    simp [hx, hleft]
  · intro r _ hr
    rw [decide_eq_false_iff_not] at hr
    cases hx : m.maxEntries r with
    | none => simp [hx]
    | some x => simp [hx, h.maxEntries_other hr hx]

/-- Related lists: every element of the one is related to an element of the other. -/
theorem forall₂_mem_right {α β : Type} {R : α → β → Prop} {xs : List α} {ys : List β}
    (h : List.Forall₂ R xs ys) {y : β} (hy : y ∈ ys) : ∃ x ∈ xs, R x y := by
  induction h with
  | nil => exact absurd hy List.not_mem_nil
  | cons hxy _ ih =>
      rcases List.mem_cons.mp hy with rfl | hy
      · exact ⟨_, List.mem_cons_self, hxy⟩
      · obtain ⟨x, hx, hr⟩ := ih hy
        exact ⟨x, List.mem_cons_of_mem _ hx, hr⟩

theorem forall₂_mem_left {α β : Type} {R : α → β → Prop} {xs : List α} {ys : List β}
    (h : List.Forall₂ R xs ys) {x : α} (hx : x ∈ xs) : ∃ y ∈ ys, R x y := by
  obtain ⟨y, hy, hr⟩ := forall₂_mem_right h.flip hx
  exact ⟨y, hy, hr⟩

/-- Every entry of the list is a peak. -/
theorem PeaksCarry.isPeak {n : ℕ} {f : ℕ → ℕ → A} {xs : List MMREntry}
    (h : PeaksCarry label n f xs) {x : MMREntry} (hx : x ∈ xs) :
    ∃ r k, IsPeak n r k ∧ x.Carries label f r k := by
  obtain ⟨r, hr, hcx⟩ := forall₂_mem_right h hx
  rw [List.mem_reverse, mem_bitIndices_iff] at hr
  exact ⟨r, _, isPeak_last hr, hcx⟩

/-- Every peak is in the list. -/
theorem PeaksCarry.exists_mem {n : ℕ} {f : ℕ → ℕ → A} {xs : List MMREntry}
    (h : PeaksCarry label n f xs) {r k : ℕ} (hp : IsPeak n r k) :
    ∃ x ∈ xs, x.Carries label f r k := by
  have hr : r ∈ n.bitIndices.reverse := by
    rw [List.mem_reverse, mem_bitIndices_iff]
    exact hp.1
  obtain ⟨x, hx, hcx⟩ := forall₂_mem_left h hr
  rw [← hp.eq_last] at hcx
  exact ⟨x, hx, hcx⟩

/-- **Checking a node against the peaks** of a tree asks whether it is a peak. -/
theorem PeaksCarry.any_checkPosition {n : ℕ} {f g : ℕ → ℕ → A} {xs : List MMREntry}
    (h : PeaksCarry label n f xs) {x : MMREntry} {r k : ℕ} (hx : x.Carries label g r k) :
    x.checkPositionAny xs = true ↔ IsPeak n r k := by
  have hcheck : ∀ y r' k', y.Carries label f r' k' →
      (x.checkPosition y = true ↔ r' = r ∧ k' = k) := by
    intro y r' k' hy
    rw [MMREntry.checkPosition, Bool.and_eq_true, beq_iff_eq, hy.row, hx.row, hy.number, hx.number,
      MMREntryNumber.ofNat_isEqual, decide_eq_true_eq, Nat.cast_inj]
  rw [MMREntry.checkPositionAny, List.any_eq_true]
  constructor
  · rintro ⟨y, hy, hpos⟩
    obtain ⟨r', k', hp, hcy⟩ := h.isPeak hy
    obtain ⟨rfl, rfl⟩ := (hcheck y r' k' hcy).mp hpos
    exact hp
  · intro hp
    obtain ⟨y, hy, hcy⟩ := h.exists_mem hp
    exact ⟨y, hy, (hcheck y r k hcy).mpr ⟨rfl, rfl⟩⟩

end Tracking

end MMR

end Minima
