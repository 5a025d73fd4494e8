import Minima.Mmr.Tracks

/-! # Chains of MMRs

Each block has its own `MMR`, which stores what that block changed; older nodes are found by
walking back through the parents. A `Snapshot` is an `MMR` with the tree it stands for, and a
`Chain` is a list of snapshots, newest first, in which every MMR stores each node that differs from
its parent's tree (`Covers`). The oldest MMR may store any part of its tree, so that a chain whose
root was trimmed is still one.

* **`lookup_some`** — whatever a lookup finds is the current label of the node.
* **`lookup_none`** — a node a lookup misses has not changed since the oldest MMR it looked at. -/

namespace Minima

open MountainRange

/-- An MMR and the tree it stands for: the number of leaves and the labels. -/
structure Snapshot (A : Type) where
  mmr : MMR
  size : ℕ
  label : ℕ → ℕ → A

namespace MMR

variable {A : Type} (C : Crypto) (label : MMRData → A) (J : A → A → A → Prop)

/-- A snapshot whose MMR tracks its tree; a finalized one has stored the peaks and their root. -/
structure Sound (s : Snapshot A) : Prop where
  tracks : s.mmr.Tracks label s.size s.label
  joined : Labelling J s.size s.label
  time : s.mmr.blockTime.IsNonneg
  final : s.mmr.finalized = true → PeaksCarry label s.size s.label s.mmr.finalizedPeaks ∧
    ∃ xs, PeaksCarry label s.size s.label xs ∧ rootOfPeaks C xs = .ok s.mmr.finalizedRoot

/-- Every node of `s` is stored in its MMR or is unchanged from the tree of `p`. -/
def Covers (s p : Snapshot A) : Prop :=
  ∀ r k, Complete s.size r k → s.mmr.Has r k ∨ (Complete p.size r k ∧ s.label r k = p.label r k)

/-- `s` comes after the newest of `older`. -/
def Over (s : Snapshot A) : List (Snapshot A) → Prop
  | [] => True
  | p :: _ => p.size ≤ s.size ∧ Covers s p ∧ p.mmr.blockTime.toRat ≤ s.mmr.blockTime.toRat

/-- A chain of snapshots, newest first. -/
def Chain : List (Snapshot A) → Prop
  | [] => True
  | s :: older => Sound C label J s ∧ Over s older ∧ Chain older

/-- The lookups from `m` walk through the MMRs of `older` after `m` itself. -/
def Walks (m : MMR) (anc : Ancestry) (older : List (Snapshot A)) : Prop :=
  (anc.parents ++ if m.useMegaMMR then anc.megaMMR.toList else []) = older.map Snapshot.mmr

variable {C label J}

theorem Walks.searchPath {m : MMR} {anc : Ancestry} {older : List (Snapshot A)}
    (h : Walks m anc older) : m.searchPath anc = m :: older.map Snapshot.mmr := by
  rw [MMR.searchPath, List.cons_append, h]

/-- Times do not increase towards the past. -/
theorem Chain.time_le {older : List (Snapshot A)} {s : Snapshot A} (ho : Over s older)
    (h : Chain C label J older) : ∀ q ∈ older, q.mmr.blockTime.toRat ≤ s.mmr.blockTime.toRat := by
  induction older generalizing s with
  | nil => simp
  | cons p rest ih =>
      intro q hq
      rcases List.mem_cons.mp hq with rfl | hq
      · exact ho.2.2
      · exact (ih h.2.1 h.2.2 q hq).trans ho.2.2

variable (hclone : ∀ d : MMRData, label d.clone = label d)

include hclone

/-- **A hit is current.** What a lookup finds, in whichever MMR of the chain, carries the label the
node has in the newest tree. -/
theorem lookup_some {older : List (Snapshot A)} {s : Snapshot A}
    (hs : s.mmr.Stored label s.size s.label) (ho : Over s older) (hc : Chain C label J older)
    {maxBack : MiniNumber} {r k : ℕ} {x : MMREntry}
    (h : lookup maxBack r (.ofNat k) ((s :: older).map Snapshot.mmr) = some x) :
    Complete s.size r k ∧ x.Carries label s.label r k := by
  induction older generalizing s with
  | nil =>
      rw [List.map_cons, lookup] at h
      split_ifs at h
      cases hf : findEntry s.mmr.setEntries r (.ofNat k) with
      | none => simp [hf, lookup] at h
      | some y =>
          obtain ⟨h1, h2⟩ := hs.find hf
          simp only [hf, Option.some.injEq] at h
          exact ⟨h1, h ▸ h2.copy hclone⟩
  | cons p rest ih =>
      rw [List.map_cons, lookup] at h
      split_ifs at h
      cases hf : findEntry s.mmr.setEntries r (.ofNat k) with
      | some y =>
          obtain ⟨h1, h2⟩ := hs.find hf
          simp only [hf, Option.some.injEq] at h
          exact ⟨h1, h ▸ h2.copy hclone⟩
      | none =>
          -- not stored here, so unchanged from the parent
          simp only [hf] at h
          obtain ⟨h1, h2⟩ := ih hc.1.tracks.stored hc.2.1 hc.2.2 h
          have h1' := h1.mono ho.1
          refine ⟨h1', ?_⟩
          rcases ho.2.1 r k h1' with hhas | ⟨-, heq⟩
          · rw [Has, hf] at hhas
            exact absurd hhas (by simp)
          · exact h2.congr heq.symm

omit hclone

/-- **A miss means unchanged.** A node that a lookup back to `maxBack` does not find has, in every
MMR from that time on, the label it has now, and is stored in none of them. -/
theorem lookup_none {older : List (Snapshot A)} {s : Snapshot A} (ho : Over s older)
    (hc : Chain C label J older) {maxBack : MiniNumber} {r k : ℕ}
    (h : lookup maxBack r (.ofNat k) ((s :: older).map Snapshot.mmr) = none)
    (hk : Complete s.size r k) :
    ∀ q ∈ s :: older, maxBack.toRat ≤ q.mmr.blockTime.toRat →
      Complete q.size r k ∧ q.label r k = s.label r k ∧ ¬ q.mmr.Has r k := by
  -- the head is looked at as soon as any MMR of the chain is recent enough
  have hhead : ∀ (s : Snapshot A) (rest : List (Snapshot A)),
      ¬ s.mmr.blockTime.isLess maxBack = true →
      lookup maxBack r (.ofNat k) ((s :: rest).map Snapshot.mmr) = none →
      ¬ s.mmr.Has r k ∧ lookup maxBack r (.ofNat k) (rest.map Snapshot.mmr) = none := by
    intro s rest htime hl
    rw [List.map_cons, lookup, if_neg htime] at hl
    cases hf : findEntry s.mmr.setEntries r (.ofNat k) with
    | some y => simp [hf] at hl
    | none =>
        simp only [hf] at hl
        exact ⟨by simp [Has, hf], hl⟩
  induction older generalizing s with
  | nil =>
      intro q hq hq'
      rw [List.mem_singleton] at hq
      subst hq
      refine ⟨hk, rfl, (hhead q [] ?_ h).1⟩
      rwa [MiniNumber.isLess_iff, not_lt]
  | cons p rest ih =>
      intro q hq hq'
      have htime : ¬ s.mmr.blockTime.isLess maxBack = true := by
        rw [MiniNumber.isLess_iff, not_lt]
        rcases List.mem_cons.mp hq with rfl | hq
        · exact hq'
        · exact hq'.trans (Chain.time_le ho hc q hq)
      obtain ⟨hno, hrest⟩ := hhead s (p :: rest) htime h
      rcases List.mem_cons.mp hq with rfl | hq
      · exact ⟨hk, rfl, hno⟩
      · rcases ho.2.1 r k hk with hhas | ⟨hp, heq⟩
        · exact absurd hhas hno
        · obtain ⟨h1, h2, h3⟩ := ih hc.2.1 hc.2.2 hrest hp q hq hq'
          exact ⟨h1, h2.trans heq.symm, h3⟩

/-- A node that exists now but did not exist at `q` was stored by an MMR that is not older. -/
theorem has_of_fresh {older : List (Snapshot A)} {s : Snapshot A} (ho : Over s older)
    (hc : Chain C label J older) {r k : ℕ} (hk : Complete s.size r k) :
    ∀ q ∈ s :: older, ¬ Complete q.size r k →
      ∃ q' ∈ s :: older, q.mmr.blockTime.toRat ≤ q'.mmr.blockTime.toRat ∧ q'.mmr.Has r k := by
  induction older generalizing s with
  | nil =>
      intro q hq hnq
      rw [List.mem_singleton] at hq
      subst hq
      exact absurd hk hnq
  | cons p rest ih =>
      intro q hq hnq
      rcases List.mem_cons.mp hq with rfl | hq
      · exact absurd hk hnq
      · rcases ho.2.1 r k hk with hhas | ⟨hp, -⟩
        · exact ⟨s, List.mem_cons_self, Chain.time_le ho hc q hq, hhas⟩
        · obtain ⟨q', hq', hle, hhas⟩ := ih hc.2.1 hc.2.2 hp q hq hnq
          exact ⟨q', List.mem_cons_of_mem s hq', hle, hhas⟩

/-- The two outcomes of `getEntryBack`: the current node, or an empty entry for a node that has not
changed since. -/
theorem getEntryBack_cases (hclone : ∀ d : MMRData, label d.clone = label d)
    {older : List (Snapshot A)} {s : Snapshot A} {anc : Ancestry} (hw : Walks s.mmr anc older)
    (hs : s.mmr.Stored label s.size s.label) (ho : Over s older) (hc : Chain C label J older)
    (maxBack : MiniNumber) (r k : ℕ) :
    let x := s.mmr.getEntryBack anc r (.ofNat k) maxBack
    (Complete s.size r k ∧ x.Carries label s.label r k) ∨
      (x = MMREntry.empty r (.ofNat k) ∧ (Complete s.size r k → ∀ q ∈ s :: older,
        maxBack.toRat ≤ q.mmr.blockTime.toRat →
          Complete q.size r k ∧ q.label r k = s.label r k ∧ ¬ q.mmr.Has r k)) := by
  intro x
  have hpath : s.mmr.searchPath anc = (s :: older).map Snapshot.mmr := hw.searchPath
  cases hl : lookup maxBack r (.ofNat k) ((s :: older).map Snapshot.mmr) with
  | some y =>
      left
      have hx : x = y := by simp only [x, getEntryBack, hpath, hl, Option.getD_some]
      rw [hx]
      exact lookup_some hclone hs ho hc hl
  | none =>
      right
      refine ⟨by simp only [x, getEntryBack, hpath, hl, Option.getD_none], ?_⟩
      exact lookup_none ho hc hl

/-- A node stored in the newest MMR is found whatever the limit, unless that MMR itself is older. -/
theorem getEntryBack_of_has (hclone : ∀ d : MMRData, label d.clone = label d)
    {older : List (Snapshot A)} {s : Snapshot A} {anc : Ancestry} (hw : Walks s.mmr anc older)
    (hs : s.mmr.Stored label s.size s.label) {maxBack : MiniNumber} {r k : ℕ}
    (hb : maxBack.toRat ≤ s.mmr.blockTime.toRat) (hh : s.mmr.Has r k) :
    (s.mmr.getEntryBack anc r (.ofNat k) maxBack).Carries label s.label r k := by
  obtain ⟨y, hy⟩ := Option.isSome_iff_exists.mp hh
  obtain ⟨-, hcy⟩ := hs.find hy
  have hx : s.mmr.getEntryBack anc r (.ofNat k) maxBack = y.copy := by
    rw [getEntryBack, hw.searchPath, lookup, if_neg (by rwa [MiniNumber.isLess_iff, not_lt]), hy]
    rfl
  rw [hx]
  exact hcy.copy hclone

/-! ## Chains that start with a complete MMR -/

/-- The oldest MMR of the chain stores its whole tree. -/
def Grounded {A : Type} : List (Snapshot A) → Prop
  | [] => True
  | [b] => ∀ r k, Complete b.size r k → b.mmr.Has r k
  | _ :: p :: older => Grounded (p :: older)

omit hclone

theorem Grounded.tail {s : Snapshot A} {older : List (Snapshot A)} (h : Grounded (s :: older)) :
    Grounded older := by
  cases older with
  | nil => trivial
  | cons p rest => exact h

/-- Below a newest MMR that stores at least what is new, the chain stays grounded. -/
theorem Grounded.grow {s t : Snapshot A} {older : List (Snapshot A)} (h : Grounded (s :: older))
    (hhas : ∀ r k, s.mmr.Has r k → t.mmr.Has r k)
    (hnew : ∀ r k, Complete t.size r k → Complete s.size r k ∨ t.mmr.Has r k) :
    Grounded (t :: older) := by
  cases older with
  | nil =>
      intro r k hk
      rcases hnew r k hk with hc | hh
      · exact hhas r k (h r k hc)
      · exact hh
  | cons p rest => exact h

/-- In a grounded chain every complete node is stored somewhere. -/
theorem Grounded.exists_has {older : List (Snapshot A)} {s : Snapshot A}
    (hg : Grounded (s :: older)) (ho : Over s older) (hc : Chain C label J older) {r k : ℕ}
    (hk : Complete s.size r k) : ∃ q ∈ s :: older, q.mmr.Has r k := by
  induction older generalizing s with
  | nil => exact ⟨s, List.mem_cons_self, hg r k hk⟩
  | cons p rest ih =>
      rcases ho.2.1 r k hk with hh | ⟨hp, -⟩
      · exact ⟨s, List.mem_cons_self, hh⟩
      · obtain ⟨q, hq, hh⟩ := ih hg hc.2.1 hc.2.2 hp
        exact ⟨q, List.mem_cons_of_mem s hq, hh⟩

theorem Chain.sound {ss : List (Snapshot A)} (h : Chain C label J ss) :
    ∀ q ∈ ss, Sound C label J q := by
  induction ss with
  | nil => simp
  | cons s older ih =>
      intro q hq
      rcases List.mem_cons.mp hq with rfl | hq
      · exact h.1
      · exact ih h.2.2 q hq

/-- Every tail of a chain is a chain. -/
theorem Chain.suffix {newer : List (Snapshot A)} : ∀ {ss : List (Snapshot A)},
    Chain C label J (newer ++ ss) → Chain C label J ss := by
  induction newer with
  | nil => exact fun h => h
  | cons s newer ih => exact fun h => ih h.2.2

theorem Grounded.suffix {newer : List (Snapshot A)} : ∀ {ss : List (Snapshot A)},
    Grounded (newer ++ ss) → Grounded ss := by
  induction newer with
  | nil => exact fun h => h
  | cons s newer ih => exact fun h => ih h.tail

/-- Without a MegaMMR the lookups walk through the parents. -/
theorem walks_parents {m : MMR} {older : List (Snapshot A)} :
    Walks m ⟨older.map Snapshot.mmr, none⟩ older := by
  unfold Walks
  simp

/-- **In a grounded chain every complete node is found.** -/
theorem Grounded.getEntry (hclone : ∀ d : MMRData, label d.clone = label d)
    {older : List (Snapshot A)} {s : Snapshot A} (hg : Grounded (s :: older))
    (hc : Chain C label J (s :: older)) {r k : ℕ} (hk : Complete s.size r k) :
    (s.mmr.getEntry ⟨older.map Snapshot.mmr, none⟩ r (.ofNat k)).Carries label s.label r k := by
  rcases getEntryBack_cases hclone walks_parents hc.1.tracks.stored hc.2.1 hc.2.2 .zero r k with
    ⟨-, h⟩ | ⟨-, h⟩
  · exact h
  · obtain ⟨q, hq, hh⟩ := hg.exists_has hc.2.1 hc.2.2 hk
    have htime := (Chain.sound hc q hq).time.toRat_nonneg
    exact absurd hh (h hk q hq (by simpa using htime)).2.2

end MMR

end Minima
