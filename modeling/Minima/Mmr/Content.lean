import Minima.Base.Arithmetic
import Minima.Mmr.Completeness

/-! # Hash and value as labels

A node of the tree over an MMR holds a hash and a value. Its value is the sum of the two below it, and
its hash commits to their hashes and to that sum.

* **`Snapshot.map`** — the same MMR with other labels. **`MMR.Chain.map`** — a chain stays one.
* **`MMRData.content`** — hash and value. **`MMR.SumJoins`** — a parent of two nodes.
* **`MMR.SumJoins.value`** — the value of a parent is the exact sum. -/

namespace Minima

open MountainRange

variable {A B : Type}

/-- The same MMR with other labels. -/
def Snapshot.map (φ : A → B) (s : Snapshot A) : Snapshot B := ⟨s.mmr, s.size, fun r k => φ (s.label r k)⟩

@[simp] theorem Snapshot.map_mmr (φ : A → B) (s : Snapshot A) : (s.map φ).mmr = s.mmr := rfl

@[simp] theorem Snapshot.map_size (φ : A → B) (s : Snapshot A) : (s.map φ).size = s.size := rfl

@[simp] theorem Snapshot.map_label (φ : A → B) (s : Snapshot A) (r k : ℕ) :
    (s.map φ).label r k = φ (s.label r k) := rfl

namespace MMR

section Map

variable {C : Crypto} {label : MMRData → A} {J : A → A → A → Prop} (φ : A → B) {J' : B → B → B → Prop}

theorem carries_map {x : MMREntry} {f : ℕ → ℕ → A} {r k : ℕ} (h : x.Carries label f r k) :
    x.Carries (φ ∘ label) (fun r k => φ (f r k)) r k := by
  obtain ⟨d, hd, hlabel⟩ := h.data
  exact ⟨h.row, h.number, h.full, d, hd, congrArg φ hlabel⟩

theorem PeaksCarry.map {n : ℕ} {f : ℕ → ℕ → A} {xs : List MMREntry} (h : PeaksCarry label n f xs) :
    PeaksCarry (φ ∘ label) n (fun r k => φ (f r k)) xs :=
  List.Forall₂.imp (fun _ _ hx => carries_map φ hx) h

theorem Tracks.map {m : MMR} {n : ℕ} {f : ℕ → ℕ → A} (h : m.Tracks label n f) :
    m.Tracks (φ ∘ label) n fun r k => φ (f r k) where
  indexed := h.indexed
  stored := by
    intro x hx
    obtain ⟨r, k, hk, hcarry⟩ := h.stored x hx
    exact ⟨r, k, hk, carries_map φ hcarry⟩
  peaks := h.peaks
  pairs := h.pairs
  entryNumber := h.entryNumber
  small := h.small

variable {φ} (hJ : ∀ l r p, J l r p → J' (φ l) (φ r) (φ p))

include hJ

theorem Sound.map {s : Snapshot A} (h : Sound C label J s) : Sound C (φ ∘ label) J' (s.map φ) where
  tracks := h.tracks.map φ
  joined := fun r k hk => hJ _ _ _ (h.joined r k hk)
  time := h.time
  final := by
    intro hfinal
    obtain ⟨hpeaks, xs, hxs, hroot⟩ := h.final hfinal
    exact ⟨hpeaks.map φ, xs, hxs.map φ, hroot⟩

/-- **A chain stays one** when every label is mapped. -/
theorem Chain.map : ∀ {ss : List (Snapshot A)}, Chain C label J ss →
    Chain C (φ ∘ label) J' (ss.map (Snapshot.map φ))
  | [], _ => trivial
  | [_], h => ⟨h.1.map hJ, trivial, trivial⟩
  | _ :: _ :: _, h => by
    obtain ⟨hs, ⟨hsize, hcovers, htime⟩, hc⟩ := h
    refine ⟨hs.map hJ, ⟨hsize, fun r k hk => ?_, htime⟩, hc.map⟩
    rcases hcovers r k hk with hhas | ⟨hp, heq⟩
    · exact Or.inl hhas
    · exact Or.inr ⟨hp, congrArg φ heq⟩

end Map

end MMR

/-! ## Hash and value -/

namespace MMRData

/-- What the hash of a leaf is made from. -/
def leafBytes (object : List Byte) (value : MiniNumber) : List Byte :=
  MiniNumber.zero.writeDataStream ++ object ++ value.writeDataStream

/-- What the hash of a parent is made from. -/
def parentBytes (left right : MiniData) (value : MiniNumber) : List Byte :=
  MiniNumber.one.writeDataStream ++ left.writeDataStream ++ right.writeDataStream ++ value.writeDataStream

theorem createMMRDataLeafNode_data {C : Crypto} {object : List Byte} {value : MiniNumber} {d : MMRData}
    (h : createMMRDataLeafNode C (.ok object) value = .ok d) :
    value.copy = .ok d.value ∧ d.data = ⟨C.hashData (leafBytes object d.value)⟩ := by
  unfold createMMRDataLeafNode at h
  obtain ⟨copy, hcopy, h⟩ := Result.bind_eq_ok.mp h
  obtain ⟨hdata, hvalue, -⟩ := make_eq_ok h
  obtain rfl : copy = d.value := Except.ok.inj (hcopy.symm.trans hvalue)
  refine ⟨hvalue, ?_⟩
  rw [hdata, show [Except.ok MiniNumber.zero.writeDataStream, .ok object, .ok d.value.writeDataStream] =
    [MiniNumber.zero.writeDataStream, object, d.value.writeDataStream].map (.ok (ε := Fault)) from rfl,
    C.hashAllObjects_ok]
  simp [leafBytes]

theorem createMMRDataParentNode_data {C : Crypto} {l r p : MMRData}
    (h : createMMRDataParentNode C l r = .ok p) :
    p.data = ⟨C.hashData (parentBytes l.data r.data p.value)⟩ := by
  obtain ⟨-, hdata, -⟩ := createMMRDataParentNode_eq_ok.mp h
  rw [hdata, show [Except.ok MiniNumber.one.writeDataStream, .ok l.data.writeDataStream,
      .ok r.data.writeDataStream, .ok p.value.writeDataStream] =
    [MiniNumber.one.writeDataStream, l.data.writeDataStream, r.data.writeDataStream,
      p.value.writeDataStream].map (.ok (ε := Fault)) from rfl, C.hashAllObjects_ok]
  simp [parentBytes]

/-- Hash and value. -/
def content (d : MMRData) : MiniData × ℚ := (d.data, d.value.toRat)

@[simp] theorem content_clone (d : MMRData) : d.clone.content = d.content := rfl

end MMRData

namespace MMR

/-- **A parent of two nodes:** its value is their sum, and its hash was made from their hashes and it. -/
def SumJoins (C : Crypto) (l r p : MiniData × ℚ) : Prop :=
  ∃ a b value : MiniNumber, a.Canonical ∧ b.Canonical ∧ a.toRat = l.2 ∧ b.toRat = r.2 ∧
    a.add b = .ok value ∧ value.toRat = p.2 ∧ p.1 = ⟨C.hashData (MMRData.parentBytes l.1 r.1 value)⟩

variable {C : Crypto}

theorem sumJoins_of_create (l r p : MMRData) (h : MMRData.createMMRDataParentNode C l r = .ok p) :
    SumJoins C l.content r.content p.content :=
  ⟨l.value, r.value, p.value, l.canonical, r.canonical, rfl, rfl,
    (MMRData.createMMRDataParentNode_eq_ok.mp h).1, rfl, MMRData.createMMRDataParentNode_data h⟩

/-- A sum is as far from zero as the exact one, up to the limit of exact sums. -/
theorem abs_add_lt {a b c : MiniNumber} (h : a.add b = .ok c) (hc : |c.toRat| < 10 ^ 20) :
    |a.toRat + b.toRat| < 10 ^ 20 := by
  rw [(MiniNumber.add_truncates a b).toRat_eq h] at hc
  by_contra hbig
  rw [not_lt] at hbig
  rcases abs_cases (a.toRat + b.toRat) with ⟨habs, -⟩ | ⟨habs, -⟩
  · rw [habs] at hbig
    have hle := MiniNumber.zpow_le_truncated (l := 20) (by norm_num) (by exact_mod_cast hbig)
    exact absurd ((le_abs_self _).trans_lt hc) (not_lt.mpr (by exact_mod_cast hle))
  · rw [habs] at hbig
    have hle := MiniNumber.zpow_le_truncated (l := 20) (by norm_num) (by exact_mod_cast hbig)
    rw [MiniNumber.truncated_neg] at hle
    exact absurd ((neg_le_abs _).trans_lt hc) (not_lt.mpr (by exact_mod_cast hle))

/-- The value of a parent is the exact sum, below the limit. -/
theorem SumJoins.value {l r p : MiniData × ℚ} (h : SumJoins C l r p) (hp : |p.2| < 10 ^ 20) :
    p.2 = l.2 + r.2 := by
  obtain ⟨a, b, value, ha, hb, hl, hr, hadd, hv, -⟩ := h
  rw [← hv] at hp ⊢
  rw [MiniNumber.add_toRat ha hb (abs_add_lt hadd hp) hadd, hl, hr]

/-! ## The value of a tree -/

/-- The value of the leaves under a node. -/
def leafSum (f : ℕ → ℕ → MiniData × ℚ) (r k : ℕ) : ℚ :=
  ∑ i ∈ Finset.Ico (k * 2 ^ r) ((k + 1) * 2 ^ r), (f 0 i).2

theorem leafSum_zero (f : ℕ → ℕ → MiniData × ℚ) (k : ℕ) : leafSum f 0 k = (f 0 k).2 := by
  simp [leafSum]

theorem leafSum_succ (f : ℕ → ℕ → MiniData × ℚ) (r k : ℕ) :
    leafSum f (r + 1) k = leafSum f r (2 * k) + leafSum f r (2 * k + 1) := by
  have hlow : 2 * k * 2 ^ r ≤ (2 * k + 1) * 2 ^ r := Nat.mul_le_mul_right _ (by omega)
  have hhigh : (2 * k + 1) * 2 ^ r ≤ (2 * k + 1 + 1) * 2 ^ r := Nat.mul_le_mul_right _ (by omega)
  rw [leafSum, leafSum, leafSum, Finset.sum_Ico_consecutive _ hlow hhigh]
  congr 2 <;> ring

/-- Where no leaf is worth less than nothing, no node is worth more than all leaves. -/
theorem leafSum_le {n : ℕ} {f : ℕ → ℕ → MiniData × ℚ} (hf : ∀ k < n, 0 ≤ (f 0 k).2) {r k : ℕ}
    (hk : Complete n r k) : 0 ≤ leafSum f r k ∧ leafSum f r k ≤ ∑ i ∈ Finset.range n, (f 0 i).2 := by
  have hlast : (k + 1) * 2 ^ r ≤ n := (Nat.mul_le_mul_right _ hk).trans (Nat.div_mul_le_self n (2 ^ r))
  have hsub : Finset.Ico (k * 2 ^ r) ((k + 1) * 2 ^ r) ⊆ Finset.range n := by
    intro i hi
    rw [Finset.mem_Ico] at hi
    exact Finset.mem_range.mpr (hi.2.trans_le hlast)
  constructor
  · exact Finset.sum_nonneg fun i hi => hf i (Finset.mem_range.mp (hsub hi))
  · exact Finset.sum_le_sum_of_subset_of_nonneg hsub fun i hi _ => hf i (Finset.mem_range.mp hi)

/-- **The value of a node is that of the leaves under it**, when the leaves together are worth less than the
limit of exact sums. -/
theorem value_eq_leafSum {C : Crypto} {n : ℕ} {f : ℕ → ℕ → MiniData × ℚ} (hjoin : Labelling (SumJoins C) n f)
    (hf : ∀ k < n, 0 ≤ (f 0 k).2) (hsum : ∑ i ∈ Finset.range n, (f 0 i).2 < 10 ^ 20) {r : ℕ} :
    ∀ {k : ℕ}, Complete n r k → (f r k).2 = leafSum f r k := by
  induction r with
  | zero => exact fun {k} _ => (leafSum_zero f k).symm
  | succ r ih =>
    intro k hk
    obtain ⟨hl, hr⟩ := complete_children hk
    obtain ⟨a, b, value, ha, hb, hleft, hright, hadd, hv, -⟩ := hjoin r k hk
    obtain ⟨hnonneg, hle⟩ := leafSum_le hf hk
    rw [ih hl] at hleft
    rw [ih hr] at hright
    have hexact : |a.toRat + b.toRat| < 10 ^ 20 := by
      rw [hleft, hright, ← leafSum_succ, abs_of_nonneg hnonneg]
      exact hle.trans_lt hsum
    rw [← hv, MiniNumber.add_toRat ha hb hexact hadd, hleft, hright, leafSum_succ]

end MMR

end Minima
