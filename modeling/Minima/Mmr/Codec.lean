import Minima.Base.Codec
import Minima.Mmr.Tracks

/-! # The streams of the MMR

Entry numbers, node data, proofs and entries make the round trip. So does a whole MMR, although its
entries are written in whatever order the hash table lists them: the table of largest entries and
the root that are calculated on reading do not depend on it.

* **`MMR.readDataStream`**, **`MMR.writeDataStream`** — the streams of an MMR.
* **`MMR.Loaded`** — the entries are distinct, and the largest row and the table of largest entries
  belong to them.
* **`MMR.transmits`** — an MMR that was read is written and reads back with the same entries. -/

namespace Minima

open TwosComplement

/-! ## Entry numbers -/

namespace MMREntryNumber

/-- An entry number with a scale of an `int` and an unscaled part that a `MiniData` can hold. -/
structure Wire (x : MMREntryNumber) : Prop where
  scale : -2 ^ 31 ≤ x.scale ∧ x.scale < 2 ^ 31
  length : (toTwosComplementBytes x.unscaled).length ≤ MiniData.maxMiniDataLength

/-- The width loop ends at the least width that holds the number, once there is fuel up to one. -/
theorem negativeWidth_spec {v : ℤ} {k : ℕ} (hk : -2 ^ (8 * k - 1) ≤ v) :
    ∀ fuel n, 0 < n → n ≤ k → k ≤ n + fuel →
      n ≤ negativeWidth v fuel n ∧ negativeWidth v fuel n ≤ k ∧
        -2 ^ (8 * negativeWidth v fuel n - 1) ≤ v := by
  intro fuel
  induction fuel with
  | zero =>
    intro n hn hle hfuel
    obtain rfl : n = k := by omega
    exact ⟨le_rfl, le_rfl, hk⟩
  | succ fuel ih =>
    intro n hn hle hfuel
    rw [negativeWidth]
    split_ifs with hfits
    · exact ⟨le_rfl, hle, hfits⟩
    · have hne : n ≠ k := fun heq => hfits (heq ▸ hk)
      obtain ⟨h1, h2, h3⟩ := ih (n + 1) (by omega) (by omega) (by omega)
      exact ⟨by omega, h2, h3⟩

/-- A negative number is written on `w + 1` bytes that hold it, and no more than it needs. -/
theorem toTwosComplementBytes_of_neg {v : ℤ} (h : v < 0) :
    ∃ w, toTwosComplementBytes v = bytesBE (w + 1) (256 ^ (w + 1) - v.natAbs) ∧
      v.natAbs ≤ 128 * 256 ^ w ∧ ∀ k, v.natAbs ≤ 128 * 256 ^ k → w ≤ k := by
  have hfits : ∀ k : ℕ, -2 ^ (8 * (k + 1) - 1) ≤ v ↔ v.natAbs ≤ 128 * 256 ^ k := by
    intro k
    have hexp : (2 : ℤ) ^ (8 * (k + 1) - 1) = ((128 * 256 ^ k : ℕ) : ℤ) := by
      rw [show 8 * (k + 1) - 1 = 8 * k + 7 by omega, pow_add, pow_mul]
      push_cast
      ring
    rw [hexp]
    omega
  have hwide : v.natAbs ≤ 128 * 256 ^ byteWidth v.natAbs := by
    have hlt := lt_pow_byteWidth v.natAbs
    omega
  obtain ⟨h1, h2, h3⟩ := negativeWidth_spec ((hfits _).mpr hwide) (byteWidth v.natAbs) 1 (by norm_num)
    (by omega) (by omega)
  obtain ⟨w, hw⟩ := Nat.exists_eq_succ_of_ne_zero (Nat.one_le_iff_ne_zero.mp h1)
  rw [hw] at h2 h3
  have hpow : 2 ^ (8 * (w + 1)) = 256 ^ (w + 1) := by
    rw [pow_mul]
    norm_num
  refine ⟨w, ?_, (hfits w).mp h3, fun k hk => ?_⟩
  · unfold toTwosComplementBytes
    rw [if_neg (by omega), if_neg (by omega)]
    show bytesBE (negativeWidth v (byteWidth v.natAbs) 1)
      (2 ^ (8 * negativeWidth v (byteWidth v.natAbs) 1) - v.natAbs) = _
    rw [hw, hpow]
  · by_contra hlt
    have := negativeWidth_spec ((hfits k).mpr hk) (byteWidth v.natAbs) 1 (by norm_num) (by omega)
      (by omega)
    omega

theorem ofSigned_toTwosComplementBytes (v : ℤ) : ofSigned (toTwosComplementBytes v) = v := by
  rcases lt_or_ge v 0 with h | h
  · obtain ⟨w, hbytes, hle, -⟩ := toTwosComplementBytes_of_neg h
    rw [hbytes, ofSigned_negative (by omega) hle]
    omega
  · unfold toTwosComplementBytes
    split_ifs with h0 hpos
    · rw [h0]
      rfl
    · rw [ofSigned_positiveBytes]
      omega
    · omega

/-- A number that was read is written on no more bytes than it was read from. -/
theorem length_toTwosComplementBytes_ofSigned (bs : List Byte) :
    (toTwosComplementBytes (ofSigned bs)).length ≤ max 1 bs.length := by
  rcases Nat.eq_zero_or_pos bs.length with h0 | hpos
  · rw [List.eq_nil_of_length_eq_zero h0]
    decide
  obtain ⟨w, hw⟩ := Nat.exists_eq_succ_of_ne_zero hpos.ne'
  obtain ⟨hlow, hhigh⟩ := ofSigned_bounds hw
  rcases lt_or_ge (ofSigned bs) 0 with h | h
  · obtain ⟨v, hbytes, -, hmin⟩ := toTwosComplementBytes_of_neg h
    have := hmin w (by omega)
    rw [hbytes, length_bytesBE]
    omega
  · unfold toTwosComplementBytes
    split_ifs with h0 hpos'
    · simp
    · have := length_positiveBytes_le (n := (ofSigned bs).natAbs) (w := w) (by omega)
      omega
    · omega

theorem yields : Yields readDataStream Wire := by
  refine Yields.readLength.bind fun scale hscale => MiniData.yields.bind fun d hd => Yields.pure ?_
  refine ⟨hscale, (length_toTwosComplementBytes_ofSigned d.bytes).trans ?_⟩
  exact max_le (by decide) hd

theorem reads {x : MMREntryNumber} (h : x.Wire) : Reads readDataStream x.writeDataStream x := by
  refine (MiniNumber.reads_int h.scale.1 h.scale.2).bind ?_
  have hread := (MiniData.reads (d := ⟨toTwosComplementBytes x.unscaled⟩) h.length).then_pure
    (f := fun d => (⟨ofSigned d.bytes, x.scale⟩ : MMREntryNumber))
  rwa [ofSigned_toTwosComplementBytes] at hread

end MMREntryNumber

/-! ## Node data and proofs -/

namespace MMRData

/-- Node data as the reader makes it. -/
structure Wire (d : MMRData) : Prop where
  length : d.data.getLength ≤ MiniData.maxHashLength
  unspendable : d.unspendable = false

theorem yields : Yields readDataStream Wire := by
  refine MiniData.yieldsHash.bind fun md hmd => (Yields.any _).bind fun mv _ => Yields.lift ?_
  intro d hd
  obtain ⟨hdata, -, hspend⟩ := make_eq_ok hd
  exact ⟨hdata ▸ hmd, hspend⟩

theorem transmits {d : MMRData} (h : d.Wire) : Transmits writeDataStream readDataStream d d := by
  refine ⟨d.data.writeDataStream ++ d.value.writeDataStream, ?_, (MiniData.readsHash h.length).bind ?_⟩
  · rw [writeDataStream, MiniData.writeHashToStream_eq h.length]
    rfl
  · have hmake : make d.data d.value = .ok d := by rw [make_eq_clone, clone_eq_self h.unspendable]
    have hlast := (MiniNumber.reads d.canonical).bind (f := fun v => Reader.lift (make d.data v))
      (Reads.lift hmake)
    rwa [List.append_nil] at hlast

end MMRData

namespace MMRProofChunk

theorem yields : Yields readDataStream fun c => c.mmrData.Wire :=
  (Yields.any _).bind fun _ _ => MMRData.yields.bind fun _ hd => Yields.pure hd

theorem transmits {c : MMRProofChunk} (h : c.mmrData.Wire) :
    Transmits writeDataStream readDataStream c c := by
  obtain ⟨bs, hbs, hread⟩ := MMRData.transmits h
  refine ⟨c.left :: bs, ?_, (Reads.readByte c.left).bind hread.then_pure⟩
  rw [writeDataStream, hbs]
  rfl

end MMRProofChunk

namespace MMRProof

/-- A proof as the reader makes it. -/
structure Wire (p : MMRProof) : Prop where
  blockTime : p.blockTime.Canonical
  length : p.proofChain.length < 2 ^ 31
  chunks : ∀ c ∈ p.proofChain, c.mmrData.Wire

theorem yields : Yields readDataStream Wire := by
  refine (Yields.any _).bind fun time _ => ?_
  refine (Yields.lift fun t ht => MiniNumber.copy_canonical ht).bind fun blockTime htime => ?_
  refine Yields.readLength.bind fun len hlen => ?_
  refine (MMRProofChunk.yields.readVector len).bind fun chain hchain => Yields.pure ?_
  have hlength : chain.length < 2 ^ 31 := by omega
  exact ⟨htime, hlength, hchain.2⟩

theorem transmits {p : MMRProof} (h : p.Wire) : Transmits writeDataStream readDataStream p p := by
  obtain ⟨bs, hbs, hread⟩ := Transmits.vector (Transmits.forall₂_self.mpr fun c hc =>
    MMRProofChunk.transmits (h.chunks c hc))
  refine ⟨p.blockTime.writeDataStream ++
    ((MiniNumber.ofInt p.proofChain.length).writeDataStream ++ bs), ?_, ?_⟩
  · rw [writeDataStream, hbs, ← List.append_assoc]
    rfl
  · refine (MiniNumber.reads h.blockTime).bind ?_
    refine Reads.lift_bind (MiniNumber.copy_of_canonical h.blockTime) ?_
    exact (MiniNumber.reads_count h.length).bind hread.then_pure

end MMRProof

namespace MMREntry

/-- An entry as the reader makes it. -/
structure Wire (x : MMREntry) : Prop where
  row : -2 ^ 31 ≤ x.row ∧ x.row < 2 ^ 31
  number : x.entryNumber.Wire
  data : ∃ d, x.mmrData = some d ∧ d.Wire
  full : x.isEmpty = false

theorem yields : Yields readDataStream Wire := by
  refine Yields.readLength.bind fun row hrow => ?_
  refine MMREntryNumber.yields.bind fun e he => MMRData.yields.bind fun d hd => Yields.pure ?_
  exact ⟨hrow, he, ⟨d, rfl, hd⟩, rfl⟩

theorem transmits {x : MMREntry} (h : x.Wire) : Transmits writeDataStream readDataStream x x := by
  obtain ⟨row, e, mmrData, isEmpty⟩ := x
  obtain ⟨hrow, hnumber, ⟨d, rfl, hdata⟩, rfl⟩ := h
  obtain ⟨bs, hbs, hread⟩ := MMRData.transmits hdata
  refine ⟨(MiniNumber.ofInt row).writeDataStream ++ (e.writeDataStream ++ bs), ?_, ?_⟩
  · rw [writeDataStream, ← List.append_assoc]
    simp only [hbs]
    rfl
  · exact (MiniNumber.reads_int hrow.1 hrow.2).bind
      ((MMREntryNumber.reads hnumber).bind hread.then_pure)

/-- An entry as the reader makes it is set as it is. -/
theorem Wire.make_eq {x : MMREntry} (h : x.Wire) :
    ∃ d, x.getMMRData = .ok d ∧ make x.row x.entryNumber d = x := by
  obtain ⟨row, e, mmrData, isEmpty⟩ := x
  obtain ⟨-, -, ⟨d, rfl, hdata⟩, rfl⟩ := h
  exact ⟨d, rfl, by rw [make, MMRData.clone_eq_self hdata.unspendable]⟩

end MMREntry

/-! ## MMRs -/

namespace MMR

/-- `writeDataStream`. The hash table lists the entries in an order of its own, `order`. -/
def writeDataStream (m : MMR) (order : List MMREntry) : Result (List Byte) := do
  let entries ← Crypto.concatAll (order.map MMREntry.writeDataStream)
  return m.blockTime.writeDataStream ++ m.entryNumber.writeDataStream ++
    (MiniNumber.ofInt m.setEntries.length).writeDataStream ++ entries

/-- The loop of `readDataStream`: every entry is set as it is read. -/
def readEntries : ℕ → MMR → Reader MMR
  | 0, m => pure m
  | n + 1, m => do
    let entry ← MMREntry.readDataStream
    let d ← Reader.lift entry.getMMRData
    let set ← Reader.lift (m.setEntry entry.row entry.entryNumber d)
    readEntries n set.1

/-- A new MMR with the block time and the entry number that were read. -/
def starting (blockTime : MiniNumber) (entryNumber : MMREntryNumber) : MMR :=
  { new with blockTime, entryNumber }

/-- `readDataStream` into a new MMR. -/
def readDataStream (C : Crypto) : Reader MMR := do
  let time ← MiniNumber.readDataStream
  let blockTime ← Reader.lift time.copy
  let entryNumber ← MMREntryNumber.readDataStream
  let len ← MiniNumber.getAsInt <$> MiniNumber.readDataStream
  let m ← readEntries len.toNat (starting blockTime entryNumber)
  Reader.lift (m.finalizeSet C)

/-- **An MMR that was loaded entry by entry:** no two entries have the same key, and the largest row
and the table of largest entries belong to the entries. -/
structure Loaded (m : MMR) : Prop where
  indexed : m.Indexed
  distinct : m.setEntries.Pairwise fun x y => ¬ sameKey x.row x.entryNumber y
  maxRow : m.maxRow = 0 ∨ ∃ x ∈ m.setEntries, x.row = m.maxRow

theorem Loaded.maxRow_nonneg {m : MMR} (h : m.Loaded) : 0 ≤ m.maxRow := by
  rcases h.maxRow with hz | ⟨x, hx, hrow⟩
  · omega
  · have := (h.indexed.range x hx).1
    omega

theorem Loaded.maxRow_le {m m' : MMR} (h : m.Loaded) (h' : m'.Loaded)
    (hp : m'.setEntries.Perm m.setEntries) : m'.maxRow ≤ m.maxRow := by
  have h0 := h.maxRow_nonneg
  rcases h'.maxRow with hz | ⟨x, hx, hrow⟩
  · omega
  · have := (h.indexed.range x (hp.mem_iff.mp hx)).2.2
    omega

theorem Loaded.eq_of_key {m : MMR} (h : m.Loaded) {x y : MMREntry} (hx : x ∈ m.setEntries)
    (hy : y ∈ m.setEntries) (hrow : y.row = x.row) (hnumber : y.entryNumber.toRat = x.entryNumber.toRat) :
    x = y := by
  have hsymm : Std.Symm fun x y : MMREntry => ¬ sameKey x.row x.entryNumber y := ⟨fun a b hab => by
    rw [sameKey_iff] at hab ⊢
    exact fun hkey => hab ⟨hkey.1.symm, hkey.2.symm⟩⟩
  by_contra hne
  exact h.distinct.forall hx hy hne (sameKey_iff.mpr ⟨hrow, hnumber⟩)

/-- **The entries fix the largest row and the table of largest entries**, in whatever order they were
set. -/
theorem Loaded.unique {m m' : MMR} (h : m.Loaded) (h' : m'.Loaded)
    (hp : m'.setEntries.Perm m.setEntries) : m'.maxRow = m.maxRow ∧ m'.maxEntries = m.maxEntries := by
  have hsome : ∀ {m m' : MMR}, m.Loaded → m'.Loaded → m'.setEntries.Perm m.setEntries →
      ∀ r x, m.maxEntries r = some x → m'.maxEntries r = some x := by
    intro m m' h h' hp r x hx
    obtain ⟨hrow, hfound⟩ := h.indexed.found r x hx
    have hmem := (findEntry_some hfound).1
    obtain ⟨x', hx', hle⟩ := h'.indexed.largest x (hp.mem_iff.mpr hmem)
    rw [hrow] at hx'
    obtain ⟨hrow', hfound'⟩ := h'.indexed.found r x' hx'
    have hmem' := hp.mem_iff.mp (findEntry_some hfound').1
    obtain ⟨x'', hx'', hle'⟩ := h.indexed.largest x' hmem'
    rw [hrow', hx, Option.some.injEq] at hx''
    subst hx''
    rw [h.eq_of_key hmem hmem' (hrow'.trans hrow.symm) (le_antisymm hle' hle), hx']
  refine ⟨le_antisymm (h.maxRow_le h' hp) (h'.maxRow_le h hp.symm), funext fun r => ?_⟩
  cases hr : m.maxEntries r with
  | some x => exact hsome h h' hp r x hr
  | none =>
    cases hr' : m'.maxEntries r with
    | none => rfl
    | some x =>
      rw [hsome h' h hp.symm r x hr'] at hr
      exact absurd hr (by simp)

/-- **Setting an entry** keeps an MMR loaded. -/
theorem Loaded.setEntry {m m' : MMR} {row : ℤ} {e : MMREntryNumber} {d : MMRData} {x : MMREntry}
    (h : m.Loaded) (hopen : m.finalized = false) (hset : m.setEntry row e d = .ok (m', x)) :
    m'.Loaded := by
  refine ⟨h.indexed.setEntry hopen hset, ?_, ?_⟩
  · obtain ⟨-, -, -, rfl⟩ := setEntry_eq_ok hopen hset
    refine List.pairwise_cons.mpr ⟨fun y hy => ?_, h.distinct.filter _⟩
    simpa using (List.mem_filter.mp hy).2
  · obtain ⟨hrow, -, -, rfl⟩ := setEntry_eq_ok hopen hset
    have hzero := h.maxRow_nonneg
    rcases le_total m.maxRow row with hle | hle
    · exact Or.inr ⟨_, List.mem_cons_self, (max_eq_right hle).symm⟩
    · rcases h.maxRow with hz | ⟨y, hy, hyrow⟩
      · exact Or.inl (by simp only; omega)
      · right
        by_cases hkey : sameKey row e y
        · exact ⟨_, List.mem_cons_self, by
            have := (sameKey_iff.mp hkey).1
            simp only [MMREntry.make_row]
            omega⟩
        · exact ⟨y, List.mem_cons_of_mem _ (List.mem_filter.mpr ⟨hy, by simpa using hkey⟩), by
            simp only
            omega⟩

/-- `m` comes from `base` by setting entries, all of them as a reader makes them. -/
structure LoadedFrom (base m : MMR) : Prop where
  loaded : m.Loaded
  wire : ∀ x ∈ m.setEntries, x.Wire
  rest : m = { base with
    setEntries := m.setEntries
    maxRow := m.maxRow
    maxEntries := m.maxEntries }

theorem LoadedFrom.finalized {base m : MMR} (h : LoadedFrom base m) : m.finalized = base.finalized := by
  rw [h.rest]

/-- **The loop over the entries** loads them. -/
theorem yields_readEntries {base : MMR} (hopen : base.finalized = false) (n : ℕ) :
    ∀ m, LoadedFrom base m → Yields (readEntries n m) fun m' =>
      LoadedFrom base m' ∧ m'.setEntries.length ≤ m.setEntries.length + n := by
  induction n with
  | zero => exact fun m hm => Yields.pure ⟨hm, le_rfl⟩
  | succ n ih =>
    intro m hm
    refine MMREntry.yields.bind fun x hx => ?_
    obtain ⟨d, hd, hmake⟩ := hx.make_eq
    refine (Yields.lift (P := fun d' => d' = d) fun d' hd' => ?_).bind fun d' hd' => ?_
    · rw [hd, Except.ok.injEq] at hd'
      exact hd'.symm
    subst hd'
    refine (Yields.lift (P := fun set => LoadedFrom base set.1 ∧
      set.1.setEntries.length ≤ m.setEntries.length + 1) fun set hset => ?_).bind fun set hset => ?_
    · have hopen' : m.finalized = false := hm.finalized.trans hopen
      have hloaded := hm.loaded.setEntry hopen' hset
      obtain ⟨-, -, -, hm'⟩ := setEntry_eq_ok hopen' hset
      rw [hmake] at hm'
      refine ⟨⟨hloaded, ?_, ?_⟩, ?_⟩
      · intro y hy
        rw [hm'] at hy
        rcases mem_putEntry hy with rfl | ⟨hy, -⟩
        · exact hx
        · exact hm.wire y hy
      · rw [hm', hm.rest]
      · rw [hm']
        exact Nat.succ_le_succ (List.length_filter_le _ _)
    · exact (ih set.1 hset.1).mono fun m' hm' => ⟨hm'.1, by omega⟩

/-- **Entries that are distinct** are written, and loading them sets these entries. -/
theorem reads_readEntries {base : MMR} (hopen : base.finalized = false) (xs : List MMREntry) :
    ∀ m, LoadedFrom base m → (∀ x ∈ xs, x.Wire ∧ 0 ≤ x.row ∧ x.row < maxRows) →
      xs.Pairwise (fun x y => ¬ sameKey x.row x.entryNumber y) →
      (∀ x ∈ xs, ∀ y ∈ m.setEntries, ¬ sameKey x.row x.entryNumber y) →
      ∃ bytes m', Crypto.concatAll (xs.map MMREntry.writeDataStream) = .ok bytes ∧
        Reads (readEntries xs.length m) bytes m' ∧ LoadedFrom base m' ∧
        m'.setEntries = xs.reverse ++ m.setEntries := by
  induction xs with
  | nil => exact fun m hm _ _ _ => ⟨[], m, rfl, Reads.pure m, hm, rfl⟩
  | cons x xs ih =>
    intro m hm hxs hdistinct hfresh
    obtain ⟨hx, h0, hrange⟩ := hxs x List.mem_cons_self
    obtain ⟨d, hd, hmake⟩ := hx.make_eq
    obtain ⟨bs, hbs, hread⟩ := MMREntry.transmits hx
    have hopen' : m.finalized = false := hm.finalized.trans hopen
    have hset := setEntry_of_range x.entryNumber d hopen' h0 hrange
    set m1 : MMR := { m with
      maxRow := max m.maxRow x.row
      setEntries := putEntry m.setEntries (.make x.row x.entryNumber d)
      maxEntries := putMax m.maxEntries (.make x.row x.entryNumber d) } with hm1
    have hentries : m1.setEntries = x :: m.setEntries := by
      rw [hm1]
      simp only [hmake, putEntry]
      congr 1
      refine List.filter_eq_self.mpr fun y hy => ?_
      simpa using hfresh x List.mem_cons_self y hy
    have hfrom : LoadedFrom base m1 := by
      refine ⟨hm.loaded.setEntry hopen' hset, ?_, ?_⟩
      · rw [hentries]
        exact fun y hy => (List.mem_cons.mp hy).elim (fun heq => heq ▸ hx) (hm.wire y)
      · rw [hm1, hm.rest]
    obtain ⟨hhead, htail⟩ := List.pairwise_cons.mp hdistinct
    obtain ⟨cs, m', hcs, hreads, hm', hset'⟩ := ih m1 hfrom
      (fun y hy => hxs y (List.mem_cons_of_mem _ hy)) htail (by
        rw [hentries]
        intro y hy z hz
        rcases List.mem_cons.mp hz with rfl | hz
        · have hne := hhead y hy
          rw [sameKey_iff] at hne ⊢
          exact fun h => hne ⟨h.1.symm, h.2.symm⟩
        · exact hfresh y (List.mem_cons_of_mem _ hy) z hz)
    refine ⟨bs ++ cs, m', ?_, ?_, hm', ?_⟩
    · rw [List.map_cons, Crypto.concatAll, hbs, hcs]
      rfl
    · exact hread.bind (Reads.lift_bind hd (Reads.lift_bind hset hreads))
    · rw [hset', hentries]
      simp

/-- Two MMRs with the same entries, listed in any order, and the same everything else. -/
structure Same (m m' : MMR) : Prop where
  entries : m'.setEntries.Perm m.setEntries
  rest : m' = { m with setEntries := m'.setEntries }

/-- The peaks and the root come from the table of largest entries alone. -/
theorem finalizeSet_setEntries {C : Crypto} {m m' : MMR} (h : m.finalizeSet C = .ok m')
    (es : List MMREntry) :
    finalizeSet C { m with setEntries := es } = .ok { m' with setEntries := es } := by
  unfold finalizeSet at h ⊢
  rw [Result.bind_eq_ok] at h ⊢
  obtain ⟨root, hroot, h⟩ := h
  refine ⟨root, hroot, ?_⟩
  cases h
  rfl

/-- An MMR as the reader makes it: loaded into a new one and finalized. -/
structure Wire (C : Crypto) (m : MMR) : Prop where
  blockTime : m.blockTime.Canonical
  number : m.entryNumber.Wire
  length : m.setEntries.length < 2 ^ 31
  loaded : ∃ m0, LoadedFrom (starting m.blockTime m.entryNumber) m0 ∧
    m0.setEntries = m.setEntries ∧ m0.finalizeSet C = .ok m

theorem loadedFrom_starting (blockTime : MiniNumber) (e : MMREntryNumber) :
    LoadedFrom (starting blockTime e) (starting blockTime e) := by
  have hindexed : (starting blockTime e).Indexed :=
    ⟨fun _ _ h => absurd h (by simp [new, starting]), by simp [new, starting], by simp [new, starting]⟩
  exact ⟨⟨hindexed, List.Pairwise.nil, Or.inl rfl⟩, by simp [new, starting], rfl⟩

theorem finalizeSet_eq_ok {C : Crypto} {m m' : MMR} (h : m.finalizeSet C = .ok m') :
    m'.blockTime = m.blockTime ∧ m'.entryNumber = m.entryNumber ∧ m'.setEntries = m.setEntries := by
  unfold finalizeSet at h
  rw [Result.bind_eq_ok] at h
  obtain ⟨root, -, h⟩ := h
  cases h
  exact ⟨rfl, rfl, rfl⟩

theorem yields (C : Crypto) : Yields (readDataStream C) (Wire C) := by
  refine (Yields.any _).bind fun time _ => ?_
  refine (Yields.lift fun t ht => MiniNumber.copy_canonical ht).bind fun blockTime htime => ?_
  refine MMREntryNumber.yields.bind fun e he => Yields.readLength.bind fun len hlen => ?_
  refine (yields_readEntries rfl len.toNat _ (loadedFrom_starting blockTime e)).bind fun m0 hm0 => Yields.lift fun m hm => ?_
  obtain ⟨h1, h2, h3⟩ := finalizeSet_eq_ok hm
  have htime0 : m0.blockTime = blockTime := congrArg MMR.blockTime hm0.1.rest
  have hnumber0 : m0.entryNumber = e := congrArg MMR.entryNumber hm0.1.rest
  refine ⟨?_, ?_, ?_, m0, ?_, h3.symm, hm⟩
  · rwa [h1, htime0]
  · rwa [h2, hnumber0]
  · have hlen0 := hm0.2
    rw [show (starting blockTime e).setEntries.length = 0 from rfl] at hlen0
    rw [h3]
    omega
  · rw [h1, h2, htime0, hnumber0]
    exact hm0.1

/-- **An MMR makes the round trip**, in whatever order the hash table lists its entries. -/
theorem transmits {C : Crypto} {m : MMR} (h : m.Wire C) {order : List MMREntry}
    (hp : order.Perm m.setEntries) :
    ∃ bytes m', m.writeDataStream order = .ok bytes ∧ Reads (readDataStream C) bytes m' ∧
      m.Same m' := by
  obtain ⟨htime, hnumber, hlen, m0, hfrom, hentries, hfinal⟩ := h
  have hmem : ∀ x, x ∈ order ↔ x ∈ m0.setEntries := fun x => by rw [hp.mem_iff, hentries]
  have hsymm : ∀ x y : MMREntry, ¬ sameKey x.row x.entryNumber y → ¬ sameKey y.row y.entryNumber x := by
    intro x y hne
    rw [sameKey_iff] at hne ⊢
    exact fun h => hne ⟨h.1.symm, h.2.symm⟩
  obtain ⟨bs, m1, hbs, hread, hm1, hset⟩ := reads_readEntries rfl order _
    (loadedFrom_starting m.blockTime m.entryNumber)
    (fun x hx => ⟨hfrom.wire x ((hmem x).mp hx), (hfrom.loaded.indexed.range x ((hmem x).mp hx)).1,
      (hfrom.loaded.indexed.range x ((hmem x).mp hx)).2.1⟩)
    (((hentries ▸ hp).pairwise_iff (hsymm _ _)).mpr hfrom.loaded.distinct)
    (by simp [starting, new])
  rw [show (starting m.blockTime m.entryNumber).setEntries = [] from rfl, List.append_nil] at hset
  have hperm : m1.setEntries.Perm m0.setEntries := by
    rw [hset, hentries]
    exact (List.reverse_perm order).trans hp
  obtain ⟨hrow, hlargest⟩ := hfrom.loaded.unique hm1.loaded hperm
  have hm1eq : m1 = { m0 with setEntries := m1.setEntries } := by
    rw [hm1.rest, hrow, hlargest, hfrom.rest]
  have hfinal1 : m1.finalizeSet C = .ok { m with setEntries := m1.setEntries } := by
    rw [hm1eq]
    exact finalizeSet_setEntries hfinal _
  have hlength : order.length < 2 ^ 31 := hp.length_eq ▸ hlen
  refine ⟨m.blockTime.writeDataStream ++ (m.entryNumber.writeDataStream ++
    ((MiniNumber.ofInt order.length).writeDataStream ++ bs)),
    { m with setEntries := m1.setEntries }, ?_, ?_, ⟨hentries ▸ hperm, rfl⟩⟩
  · rw [writeDataStream, hbs, ← hp.length_eq, ← List.append_assoc, ← List.append_assoc]
    rfl
  · refine (MiniNumber.reads htime).bind ?_
    refine Reads.lift_bind (MiniNumber.copy_of_canonical htime) ?_
    refine (MMREntryNumber.reads hnumber).bind ((MiniNumber.reads_count hlength).bind ?_)
    rw [Int.toNat_natCast]
    have hlast := hread.bind (f := fun m => Reader.lift (finalizeSet C m)) (Reads.lift hfinal1)
    rwa [List.append_nil] at hlast

end MMR

end Minima
