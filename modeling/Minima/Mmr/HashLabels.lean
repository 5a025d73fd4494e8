import Minima.Base.Codec
import Minima.Lib.HashTree
import Minima.Mmr.Content

/-! # What an accepted proof shows

A proof is made by whoever wants it to be accepted, and its siblings can be anything. With the hash of a
node as its label, and a hash without collisions, the labels of a tree determine those below them. So a
proof that ends at the root or at a peak of a sound MMR began at a leaf of its tree, and carries the
hashes of the siblings of that leaf.

* **`MMR.HashJoins`** — one hash was made from two. **`MMR.LeafHash`** — a hash was made from an object.
* **`MMR.Sealed`** — an MMR whose tree determines the labels under its root.
* **`MMR.Sealed.checkProof`** — an accepted proof began at a leaf. -/

namespace Minima

open MountainRange

namespace MMR

variable {C : Crypto}

/-! ## Joins of hashes -/

/-- A hash is short when its length fits twice in the four bytes that say it. -/
def Short (d : MiniData) : Prop := d.bytes.length < 2 ^ 30

instance (d : MiniData) : Decidable (Short d) := inferInstanceAs (Decidable (_ < _))

/-- **One hash was made from two**, with some sum. -/
def HashJoins (C : Crypto) (l r p : MiniData) : Prop :=
  ∃ value : MiniNumber, value.Canonical ∧ p = ⟨C.hashData (MMRData.parentBytes l r value)⟩

/-- **A hash was made from an object**, with some value. -/
def LeafHash (C : Crypto) (p : MiniData) : Prop :=
  ∃ object value, p = ⟨C.hashData (MMRData.leafBytes object value)⟩

theorem hashJoins_of_create (l r p : MMRData) (h : MMRData.createMMRDataParentNode C l r = .ok p) :
    HashJoins C l.data r.data p.data :=
  ⟨p.value, p.canonical, MMRData.createMMRDataParentNode_data h⟩

theorem SumJoins.hashJoins {l r p : MiniData × ℚ} (h : SumJoins C l r p) : HashJoins C l.1 r.1 p.1 := by
  obtain ⟨_, _, value, -, -, -, -, hadd, -, hp⟩ := h
  exact ⟨value, MiniNumber.add_canonical hadd, hp⟩

/-- The number of bytes of a number inside the limits. -/
theorem length_writeDataStream_le {v : MiniNumber} (h : v.Canonical) : v.writeDataStream.length ≤ 34 := by
  have hlen := MiniNumber.length_toTwosComplementBytes_le h.digits
  simp only [MiniNumber.writeDataStream, List.length_cons]
  omega

/-- Numbers inside the limits have different encodings. -/
theorem writeDataStream_inj {v w : MiniNumber} (hv : v.Canonical) (hw : w.Canonical)
    (h : v.writeDataStream = w.writeDataStream) : v = w := by
  have hread := MiniNumber.reads hv []
  rw [h, MiniNumber.reads hw []] at hread
  exact (Except.ok.inj (Prod.mk.inj hread).1).symm

/-- **A hash that was made from two short ones** was made from no others. -/
theorem HashJoins.only (hC : Function.Injective C.hashData) {a b p : MiniData} (ha : Short a)
    (hb : Short b) (h : HashJoins C a b p) {x y : MiniData} (hxy : HashJoins C x y p) :
    x = a ∧ y = b := by
  obtain ⟨v, hv, rfl⟩ := h
  obtain ⟨w, hw, heq⟩ := hxy
  have hbytes := hC (congrArg MiniData.bytes heq)
  have hvlen := length_writeDataStream_le hv
  unfold Short at ha hb
  -- as long as the first encoding, the second one has room for short hashes only
  have hlen := congrArg List.length hbytes
  simp only [MMRData.parentBytes, List.length_append, MiniData.writeDataStream,
    MiniData.length_writeInt32BE] at hlen
  simp only [MMRData.parentBytes, List.append_assoc] at hbytes
  have htail := List.append_cancel_left hbytes
  obtain ⟨rfl, hrest⟩ := MiniData.writeDataStream_append_inj (by omega) (by omega) htail
  obtain ⟨rfl, -⟩ := MiniData.writeDataStream_append_inj (by omega) (by omega) hrest
  exact ⟨rfl, rfl⟩

/-- **The hash of a parent commits to its value.** -/
theorem SumJoins.value_eq (hC : Function.Injective C.hashData) {l r p l' r' p' : MiniData × ℚ}
    (hl : Short l.1) (hr : Short r.1) (h : SumJoins C l r p) (h' : SumJoins C l' r' p') (heq : p'.1 = p.1) :
    p'.2 = p.2 := by
  obtain ⟨a, b, v, -, -, -, -, hadd, hv, hp⟩ := h
  obtain ⟨a', b', v', -, -, -, -, hadd', hv', hp'⟩ := h'
  have hvcan := MiniNumber.add_canonical hadd
  have hvcan' := MiniNumber.add_canonical hadd'
  have hjoins : HashJoins C l'.1 r'.1 p.1 := ⟨v', hvcan', heq ▸ hp'⟩
  obtain ⟨hleft, hright⟩ := HashJoins.only hC hl hr ⟨v, hvcan, hp⟩ hjoins
  have hbytes := hC (congrArg MiniData.bytes (hp'.symm.trans (heq.trans hp)))
  rw [MMRData.parentBytes, MMRData.parentBytes, hleft, hright] at hbytes
  have hvalue : v' = v := writeDataStream_inj hvcan' hvcan (List.append_cancel_left hbytes)
  rw [← hv, ← hv', hvalue]

/-- The hash of a leaf was not made from two. -/
theorem LeafHash.not_joins (hC : Function.Injective C.hashData) {p : MiniData} (h : LeafHash C p)
    (x y : MiniData) : ¬ HashJoins C x y p := by
  rintro ⟨w, -, heq⟩
  obtain ⟨object, value, rfl⟩ := h
  have hbytes := hC (congrArg MiniData.bytes heq)
  simp only [MMRData.parentBytes, MMRData.leafBytes, List.append_assoc] at hbytes
  have hhead := congrArg (List.take 3) hbytes
  rw [List.take_append_of_le_length (by decide), List.take_append_of_le_length (by decide)] at hhead
  exact absurd hhead (by decide)

/-- The leaves of different objects have different hashes. -/
theorem leafBytes_inj (hC : Function.Injective C.hashData) {object object' : List Byte}
    {value value' : MiniNumber}
    (h : (⟨C.hashData (MMRData.leafBytes object value)⟩ : MiniData) =
      ⟨C.hashData (MMRData.leafBytes object' value')⟩) :
    object ++ value.writeDataStream = object' ++ value'.writeDataStream := by
  have hbytes := hC (congrArg MiniData.bytes h)
  simp only [MMRData.leafBytes, List.append_assoc] at hbytes
  exact List.append_cancel_left hbytes

/-- The labels of a tree of short hashes determine those below them. -/
theorem rigid {n : ℕ} {f : ℕ → ℕ → MiniData} (hC : Function.Injective C.hashData)
    (hf : Labelling (HashJoins C) n f) (hshort : ∀ r k, Complete n r k → Short (f r k))
    (hleaf : ∀ k < n, LeafHash C (f 0 k)) : Rigid (HashJoins C) n f where
  joined := hf
  leaf := fun k hk => (hleaf k hk).not_joins hC
  join := by
    intro r k hk x y hxy
    obtain ⟨hl, hr⟩ := complete_children hk
    exact (hf r k hk).only hC (hshort r _ hl) (hshort r _ hr) hxy

/-! ## Bagging the peaks -/

/-- In every round in which the peaks are bagged, the hashes that are made are short. -/
def ShortBags (C : Crypto) : ℕ → List MMREntry → Prop
  | 0, _ => True
  | fuel + 1, peaks => 1 < peaks.length → ∀ m ∈ (bagPeaks C new peaks).toOption,
    (∀ x ∈ m.setEntries, ∀ d ∈ x.mmrData, Short d.data) ∧ ShortBags C fuel m.getPeaks

instance decidableShortBags (C : Crypto) : ∀ (fuel : ℕ) (peaks : List MMREntry),
    Decidable (ShortBags C fuel peaks)
  | 0, _ => inferInstanceAs (Decidable True)
  | fuel + 1, peaks =>
    have : ∀ m : MMR, Decidable (ShortBags C fuel m.getPeaks) :=
      fun m => decidableShortBags C fuel m.getPeaks
    inferInstanceAs (Decidable (1 < peaks.length → ∀ m ∈ (bagPeaks C new peaks).toOption,
      (∀ x ∈ m.setEntries, ∀ d ∈ x.mmrData, Short d.data) ∧ ShortBags C fuel m.getPeaks))

/-- The entries carry labels joined from the peaks of a tree. -/
def AllBagged (C : Crypto) (n : ℕ) (f : ℕ → ℕ → MiniData) (xs : List MMREntry) : Prop :=
  ∀ x ∈ xs, ∀ d, x.getMMRData = .ok d → Bagged (HashJoins C) n f d.data

/-- The peaks of a tree carry peaks. -/
theorem PeaksCarry.allBagged {n : ℕ} {f : ℕ → ℕ → MiniData} {xs : List MMREntry}
    (h : PeaksCarry MMRData.data n f xs) : AllBagged C n f xs := by
  intro x hx d hd
  obtain ⟨r, k, hp, hcarry⟩ := h.isPeak hx
  obtain ⟨d', hd', hlabel⟩ := hcarry.getMMRData
  obtain rfl := Except.ok.inj (hd.symm.trans hd')
  rw [hlabel]
  exact .peak hp

/-- What a tree over a whole MMR stores is short when the entries are. -/
theorem Stored.short {m : MMR} {n : ℕ} {f : ℕ → ℕ → MiniData} (h : m.Stored MMRData.data n f)
    (hshort : ∀ x ∈ m.setEntries, ∀ d ∈ x.mmrData, Short d.data) {r k : ℕ} (hhas : m.Has r k) :
    Short (f r k) := by
  obtain ⟨x, hx⟩ := Option.isSome_iff_exists.mp hhas
  obtain ⟨-, hcarry⟩ := h.find hx
  obtain ⟨d, hd, hlabel⟩ := hcarry.data
  exact hlabel ▸ hshort x (List.mem_of_find?_eq_some hx) d hd

/-- **One round of bagging.** -/
theorem AllBagged.bagPeaks (hC : Function.Injective C.hashData) {n : ℕ} {f : ℕ → ℕ → MiniData}
    {xs : List MMREntry} (hxs : AllBagged C n f xs) {m : MMR} (h : bagPeaks C new xs = .ok m)
    {ds : List MMRData} (hds : HoldData xs ds)
    (hshort : ∀ x ∈ m.setEntries, ∀ d ∈ x.mmrData, Short d.data) : AllBagged C n f m.getPeaks := by
  rw [bagPeaks_eq_addAll hds] at h
  have hnew : Sound C MMRData.data (HashJoins C) ⟨new, 0, fun _ _ => default⟩ := sound_new _
  have hw : Walks new .none ([] : List (Snapshot MiniData)) := by simp [Walks, Ancestry.none, new]
  obtain ⟨g, hext, htracks, hjoined, hstored, -, hleaves⟩ := addAll_sound (fun _ => rfl)
    hashJoins_of_create ds new 0 _ m hnew.tracks hnew.joined rfl hnew.time hw h
  rw [Nat.zero_add] at htracks hjoined hstored
  have hnode : ∀ r k, Complete ds.length r k → Short (g r k) := by
    intro r k hk
    rcases hstored r k hk with hzero | hhas
    · unfold Complete at hzero
      simp at hzero
    · exact htracks.stored.short hshort hhas
  have hleaf : ∀ k < ds.length, Bagged (HashJoins C) n f (g 0 k) := by
    intro k hk
    have hlabel := hleaves k hk
    rw [Nat.zero_add] at hlabel
    obtain ⟨x, hx, hxd⟩ := hds.mem_right (List.getElem_mem hk)
    rw [hlabel]
    exact hxs x hx _ hxd
  intro x hx d hd
  obtain ⟨r, k, hp, hcarry⟩ := (htracks.getPeaks (fun _ => rfl) hext.finalized).isPeak hx
  obtain ⟨d', hd', hlabel⟩ := hcarry.getMMRData
  obtain rfl := Except.ok.inj (hd.symm.trans hd')
  rw [hlabel]
  refine bagged_node hjoined hleaf (fun r k hk u v huv => ?_) hp.complete
  obtain ⟨hl, hr⟩ := complete_children hk
  exact (hjoined r k hk).only hC (hnode r _ hl) (hnode r _ hr) huv

/-- Bagging asks every peak for its data. -/
theorem holdData_of_bagPeaks {xs : List MMREntry} : ∀ {m m' : MMR}, MMR.bagPeaks C m xs = .ok m' →
    ∃ ds, HoldData xs ds := by
  induction xs with
  | nil => exact fun _ => ⟨[], .nil⟩
  | cons x xs ih =>
    intro m m' h
    simp only [MMR.bagPeaks, Result.bind_eq_ok] at h
    obtain ⟨d, hd, _, -, _, -, h⟩ := h
    obtain ⟨ds, hds⟩ := ih h
    exact ⟨d :: ds, .cons hd hds⟩

/-- **All rounds of bagging.** -/
theorem AllBagged.rootLoop (hC : Function.Injective C.hashData) {n : ℕ} {f : ℕ → ℕ → MiniData}
    (fuel : ℕ) : ∀ {xs ys : List MMREntry}, AllBagged C n f xs → ShortBags C fuel xs →
      MMR.rootLoop C fuel xs = .ok ys → AllBagged C n f ys := by
  induction fuel with
  | zero =>
    intro xs ys hxs _ h
    rw [MMR.rootLoop, Except.ok.injEq] at h
    exact h ▸ hxs
  | succ fuel ih =>
    intro xs ys hxs hbags h
    rw [MMR.rootLoop] at h
    split_ifs at h with hlen
    · obtain ⟨m, hm, h⟩ := Result.bind_eq_ok.mp h
      obtain ⟨hshort, hmore⟩ := hbags hlen m (by rw [hm]; rfl)
      obtain ⟨ds, hds⟩ := holdData_of_bagPeaks hm
      exact ih (hxs.bagPeaks hC hm hds hshort) hmore h
    · rw [Except.ok.injEq] at h
      exact h ▸ hxs

/-- **The root was joined from the peaks.** -/
theorem PeaksCarry.rootOfPeaks_bagged (hC : Function.Injective C.hashData) {n : ℕ}
    {f : ℕ → ℕ → MiniData} {xs : List MMREntry} (hxs : PeaksCarry MMRData.data n f xs)
    (hbags : ShortBags C xs.length xs) {root : MMRData} (h : rootOfPeaks C xs = .ok (some root)) :
    Bagged (HashJoins C) n f root.data := by
  unfold rootOfPeaks at h
  split_ifs at h with hempty
  · cases h
  · obtain ⟨ys, hys, h⟩ := Result.bind_eq_ok.mp h
    have hbagged := hxs.allBagged.rootLoop hC _ hbags hys
    cases ys with
    | nil => cases h
    | cons y ys =>
      simp only [Result.bind_eq_ok, Result.pure_eq_ok, Option.some.injEq] at h
      obtain ⟨d, hd, made, hmade, rfl⟩ := h
      rw [(MMRData.make_eq_ok hmade).1]
      exact hbagged y List.mem_cons_self d hd

/-! ## What an accepted proof shows -/

/-- The steps of a proof: the side and the hash of each sibling. -/
def stepsOf (chain : List MMRProofChunk) : List (Bool × MiniData) :=
  chain.map fun c => (c.isLeft, c.mmrData.data)

/-- Calculating a proof is a climb. -/
theorem climbs_of_calculateChain {chain : List MMRProofChunk} : ∀ {cur top : MMRData},
    MMRProof.calculateChain C cur chain = .ok top →
      Climbs (HashJoins C) cur.data (stepsOf chain) top.data := by
  induction chain with
  | nil =>
    intro cur top h
    rw [MMRProof.calculateChain, Except.ok.injEq] at h
    exact congrArg MMRData.data h
  | cons c chain ih =>
    intro cur top h
    rw [MMRProof.calculateChain] at h
    obtain ⟨next, hnext, h⟩ := Result.bind_eq_ok.mp h
    refine ⟨next.data, ?_, ih h⟩
    unfold MMRProof.calculateStep at hnext
    cases hside : c.isLeft with
    | false =>
      rw [hside] at hnext
      exact hashJoins_of_create _ _ _ hnext
    | true =>
      rw [hside] at hnext
      exact hashJoins_of_create _ _ _ hnext

/-- The hashes of a snapshot. -/
def hashLabels (s : Snapshot (MiniData × ℚ)) : Snapshot MiniData := s.map Prod.fst

/-- **An MMR whose tree determines the labels under its root:** it is sound, its hashes are short and its
values far below the limit of exact sums, and its leaves are hashes of objects. -/
structure Sealed (C : Crypto) (s : Snapshot (MiniData × ℚ)) : Prop where
  sound : Sound C MMRData.content (SumJoins C) s
  short : ∀ r k, Complete s.size r k → Short (s.label r k).1
  small : ∀ r k, Complete s.size r k → |(s.label r k).2| < 10 ^ 20
  leaf : ∀ k < s.size, LeafHash C (s.label 0 k).1
  root : s.mmr.getRoot C = rootOfPeaks C s.mmr.getPeaks
  bags : ShortBags C s.mmr.getPeaks.length s.mmr.getPeaks

/-- What a finalized MMR says is its root is the root of the peaks that it hands out. -/
theorem getRoot_of_finalizeSet {m m' : MMR} (h : m.finalizeSet C = .ok m')
    (hdata : ∀ x ∈ m'.finalizedPeaks, ∃ d, x.getMMRData = .ok d) : m'.getRoot C = rootOfPeaks C m'.getPeaks := by
  unfold finalizeSet at h
  simp only [Result.bind_eq_ok, Result.pure_eq_ok] at h
  obtain ⟨root, hroot, rfl⟩ := h
  rw [getRoot, if_neg (by simp), getRootInternal] at hroot
  -- the peaks are handed out as copies, which hold the same data
  have hsame : List.Forall₂ SameData (getPeaks { m with finalized := false })
      ((getPeaks { m with finalized := false }).map MMREntry.copy) := by
    rw [List.forall₂_map_right_iff]
    refine List.forall₂_same.mpr fun x hx => ?_
    obtain ⟨d, hd⟩ := hdata x hx
    refine ⟨d, d.clone, hd, ?_, rfl⟩
    rw [MMREntry.getMMRData_eq_ok] at hd ⊢
    rw [MMREntry.copy, hd]
    rfl
  have hopen : rootOfPeaks C (getPeaks { m with finalized := false }) = .ok root := hroot
  show Except.ok (root.map MMRData.clone) =
    rootOfPeaks C ((getPeaks { m with finalized := false }).map MMREntry.copy)
  rw [← rootOfPeaks_congr hsame, hopen, rootOfPeaks_clone hopen]

/-- Peaks have a root. -/
theorem eq_nil_of_rootOfPeaks {xs : List MMREntry} (h : rootOfPeaks C xs = .ok none) : xs = [] := by
  unfold rootOfPeaks at h
  split_ifs at h with hempty
  · exact List.isEmpty_iff.mp hempty
  · obtain ⟨ys, -, h⟩ := Result.bind_eq_ok.mp h
    cases ys with
    | nil => cases h
    | cons y ys =>
      simp only [Result.bind_eq_ok, Result.pure_eq_ok] at h
      obtain ⟨_, -, _, -, h⟩ := h
      cases h

/-- **A finalized MMR with leaves has a root.** -/
theorem Sealed.exists_root {s : Snapshot (MiniData × ℚ)} (h : Sealed C s) (hfinal : s.mmr.finalized = true)
    (hsize : s.size ≠ 0) : ∃ root, s.mmr.getRoot C = .ok (some root) := by
  cases hroot : s.mmr.finalizedRoot with
  | some root => exact ⟨root.clone, by rw [getRoot, if_pos hfinal, hroot]; rfl⟩
  | none =>
    have hnone : s.mmr.getRoot C = .ok none := by
      rw [getRoot, if_pos hfinal, hroot]
      rfl
    obtain ⟨xs, hxs, hpeaks⟩ := h.sound.getRoot MMRData.content_clone
    rw [hpeaks] at hnone
    have htotal := hxs.total
    rw [eq_nil_of_rootOfPeaks hnone] at htotal
    exact absurd (Int.ofNat.inj htotal).symm hsize

theorem Sealed.hashes {s : Snapshot (MiniData × ℚ)} (h : Sealed C s) :
    Sound C MMRData.data (HashJoins C) (hashLabels s) :=
  h.sound.map (φ := Prod.fst) fun _ _ _ => SumJoins.hashJoins

theorem Sealed.rigid (hC : Function.Injective C.hashData) {s : Snapshot (MiniData × ℚ)} (h : Sealed C s) :
    Rigid (HashJoins C) s.size (hashLabels s).label := MMR.rigid hC h.hashes.joined h.short h.leaf

/-- **One step of an accepted proof:** the node above is that of the tree, so the sibling is. -/
theorem Sealed.chunk (hC : Function.Injective C.hashData) {s : Snapshot (MiniData × ℚ)} (h : Sealed C s)
    {e i : ℕ} (hnode : Complete s.size (i + 1) (e / 2 ^ (i + 1))) {own next : MMRData} {c : MMRProofChunk}
    (hown : own.content = s.label i (e / 2 ^ i))
    (hside : c.isLeft = decide (sibling (e / 2 ^ i) % 2 = 0))
    (hstep : MMRProof.calculateStep C own c = .ok next)
    (hnext : next.data = (s.label (i + 1) (e / 2 ^ (i + 1))).1) :
    next.content = s.label (i + 1) (e / 2 ^ (i + 1)) ∧
      c.mmrData.content.2 = (s.label i (sibling (e / 2 ^ i))).2 := by
  obtain ⟨hl, hr⟩ := complete_children hnode
  have hjoin := h.sound.joined i _ hnode
  have hdiv := div_pow_succ e i
  unfold MMRProof.calculateStep at hstep
  by_cases heven : e / 2 ^ i % 2 = 0
  · obtain ⟨h1, h2⟩ := pair_of_even heven
    rw [← hdiv] at h1 h2
    have hc : c.isLeft = false := by
      rw [hside, decide_eq_false_iff_not, ← h2]
      omega
    rw [hc] at hstep
    have hmade := sumJoins_of_create _ _ _ hstep
    have hvalue := SumJoins.value_eq hC (h.short _ _ hl) (h.short _ _ hr) hjoin hmade hnext
    refine ⟨Prod.ext hnext hvalue, ?_⟩
    have hsum := hjoin.value (h.small _ _ hnode)
    have hsum' := hmade.value (by rw [hvalue]; exact h.small _ _ hnode)
    rw [hvalue, hsum, h2, h1, ← hown] at hsum'
    linarith
  · obtain ⟨h1, h2⟩ := pair_of_odd heven
    rw [← hdiv] at h1 h2
    have hc : c.isLeft = true := by
      rw [hside, decide_eq_true_iff, ← h1]
      omega
    rw [hc] at hstep
    have hmade := sumJoins_of_create _ _ _ hstep
    have hvalue := SumJoins.value_eq hC (h.short _ _ hl) (h.short _ _ hr) hjoin hmade hnext
    refine ⟨Prod.ext hnext hvalue, ?_⟩
    have hsum := hjoin.value (h.small _ _ hnode)
    have hsum' := hmade.value (by rw [hvalue]; exact h.small _ _ hnode)
    rw [hvalue, hsum, h2, h1, ← hown] at hsum'
    linarith

/-- **All steps of an accepted proof** up to a node of the tree. -/
theorem Sealed.chunks (hC : Function.Injective C.hashData) {s : Snapshot (MiniData × ℚ)} (h : Sealed C s)
    {e r : ℕ} (hnode : Complete s.size r (e / 2 ^ r)) {d top : MMRData} {chain : List MMRProofChunk}
    (hd : d.content = s.label 0 e) (htop : MMRProof.calculateChain C d chain = .ok top)
    {rest : List (Bool × MiniData)}
    (hsteps : stepsOf chain = (List.range r).map (stepAt (hashLabels s).label e) ++ rest)
    (halong : Along (HashJoins C) (hashLabels s).label e r d.data (stepsOf chain) top.data) :
    ∀ i < r, ∀ c, chain[i]? = some c → c.mmrData.content = s.label i (sibling (e / 2 ^ i)) := by
  -- what the climb goes through at row `i`
  have hown : ∀ i ≤ r, ∃ own, MMRProof.calculateChain C d (chain.take i) = .ok own ∧
      MMRProof.calculateChain C own (chain.drop i) = .ok top ∧ own.content = s.label i (e / 2 ^ i) ∧
      ∀ j < i, ∀ c, chain[j]? = some c → c.mmrData.content = s.label j (sibling (e / 2 ^ j)) := by
    intro i
    induction i with
    | zero => exact fun _ => ⟨d, rfl, by simpa using htop, by simpa using hd, by simp⟩
    | succ i ih =>
      intro hi
      obtain ⟨own, hbelow, habove, hcontent, hchunks⟩ := ih (by omega)
      have hlen : i < chain.length := by
        have hlength := congrArg List.length hsteps
        simp only [stepsOf, List.length_map, List.length_append, List.length_range] at hlength
        omega
      rw [List.drop_eq_getElem_cons hlen, MMRProof.calculateChain] at habove
      obtain ⟨next, hstep, habove⟩ := Result.bind_eq_ok.mp habove
      have hbelow' : MMRProof.calculateChain C d (chain.take (i + 1)) = .ok next := by
        rw [List.take_succ_eq_append_getElem hlen, calculateChain_append, hbelow]
        simp [MMRProof.calculateChain, hstep]
      have hnext : next.data = (s.label (i + 1) (e / 2 ^ (i + 1))).1 :=
        halong (i + 1) hi next.data (by
          rw [stepsOf, ← List.map_take]
          exact climbs_of_calculateChain hbelow') (by
          rw [stepsOf, ← List.map_drop]
          exact climbs_of_calculateChain habove)
      have hhere : (stepsOf chain)[i]? = some (stepAt (hashLabels s).label e i) := by
        rw [hsteps, List.getElem?_append_left (by simp; omega), List.getElem?_map,
          List.getElem?_range (by omega), Option.map_some]
      rw [stepsOf, List.getElem?_map, List.getElem?_eq_getElem hlen, Option.map_some, Option.some.injEq,
        stepAt, Prod.mk.injEq] at hhere
      have hup : Complete s.size (i + 1) (e / 2 ^ (i + 1)) := by
        rcases Nat.eq_or_lt_of_le hi with heq | hlt
        · exact heq ▸ hnode
        · exact (path_complete hnode (i + 1) hlt).1
      obtain ⟨hnextc, hvalue⟩ := h.chunk hC hup hcontent hhere.1 hstep hnext
      refine ⟨next, hbelow', habove, hnextc, ?_⟩
      intro j hj c hc
      rcases Nat.lt_succ_iff_lt_or_eq.mp hj with hlt | rfl
      · exact hchunks j hlt c hc
      · rw [List.getElem?_eq_getElem hlen, Option.some.injEq] at hc
        exact hc ▸ Prod.ext hhere.2 hvalue
  intro i hi
  obtain ⟨-, -, -, -, hchunks⟩ := hown r le_rfl
  exact hchunks i hi

/-- **An accepted proof began at a leaf**, and carries hash and value of its siblings up to the peak. -/
theorem Sealed.checkProof (hC : Function.Injective C.hashData) {s : Snapshot (MiniData × ℚ)}
    (h : Sealed C s) {d : MMRData} (hd : LeafHash C d.data)
    (hvalue : ∀ k < s.size, (s.label 0 k).1 = d.data → (s.label 0 k).2 = d.value.toRat) {p : MMRProof}
    (hp : s.mmr.checkProof C d p = .ok true) :
    ∃ e r, IsPeak s.size r (e / 2 ^ r) ∧ e < s.size ∧ s.label 0 e = d.content ∧
      ∀ i < r, ∀ c, p.proofChain[i]? = some c → c.mmrData.content = s.label i (sibling (e / 2 ^ i)) := by
  have hpeaks := h.hashes.getPeaks fun _ => rfl
  unfold MMR.checkProof at hp
  obtain ⟨top, htop, hp⟩ := Result.bind_eq_ok.mp hp
  obtain ⟨root, hroot, hp⟩ := Result.bind_eq_ok.mp hp
  have hchain : MMRProof.calculateChain C d.clone p.proofChain = .ok top := htop
  have hclimb : Climbs (HashJoins C) d.clone.data (stepsOf p.proofChain) top.data :=
    climbs_of_calculateChain hchain
  have hbagged : Bagged (HashJoins C) s.size (hashLabels s).label top.data := by
    cases hend : (root.map top.isEqual).getD false with
    | true =>
      cases root with
      | none => cases hend
      | some root =>
        have heq : top.isEqual root = true := hend
        rw [((MMRData.isEqual_iff _ _).mp heq).1]
        exact hpeaks.rootOfPeaks_bagged hC h.bags (h.root.symm.trans hroot)
    | false =>
      rw [hend] at hp
      have hany : (s.mmr.getPeaks.any fun peak => (peak.mmrData.map top.isEqual).getD false) = true :=
        Except.ok.inj hp
      obtain ⟨peak, hpeak, heq⟩ := List.any_eq_true.mp hany
      cases hdata : peak.mmrData with
      | none =>
        rw [hdata] at heq
        cases heq
      | some pd =>
        rw [hdata] at heq
        have heq' : top.isEqual pd = true := heq
        rw [((MMRData.isEqual_iff _ _).mp heq').1]
        exact hpeaks.allBagged peak hpeak pd (MMREntry.getMMRData_eq_ok.mpr hdata)
  obtain ⟨e, r, rest, hpeak, he, hde, hsteps, halong⟩ := hbagged.climbs (h.rigid hC) (hd.not_joins hC) hclimb
  have hcontent : d.content = s.label 0 e := Prod.ext hde (hvalue e he hde.symm).symm
  exact ⟨e, r, hpeak, he, hcontent.symm, h.chunks hC hpeak.complete (d := d.clone) hcontent hchain hsteps halong⟩

end MMR

end Minima
