import Minima.Lib.Checksum
import Minima.Utils.Crypto

/-! # `Winternitz`: one-time signatures over hash chains

A key is 34 hash chains of 255 steps; its public key is the hash of all chain ends. Every byte of the
digest that is signed says how far one chain is walked, and two more chains carry a checksum. Whoever
verifies walks every chain to its end.

* **`digits`** — how far signing walks the chains.
* **`verify_sign`** — the chains of a signature, walked on, end in the public key.
* **`digits_block_forward`** — the digits of another digest fall somewhere, so nobody gets from one
  signature to another by walking on, short of breaking the hash. -/

namespace Minima

open Checksum

/-! ## Hashes of 32 bytes -/

/-- `Hash256`: an array of 32 bytes. -/
structure Hash256 where
  bytes : List Byte
  length_eq : bytes.length = 32
  deriving DecidableEq

namespace Hash256

/-- `to_hash256`: a longer vector is cut, a shorter one filled with zeros. -/
def ofBytes (v : List Byte) : Hash256 :=
  ⟨v.take 32 ++ List.replicate (32 - v.length) 0, by
    rw [List.length_append, List.length_take, List.length_replicate]
    omega⟩

theorem ofBytes_bytes (h : Hash256) : ofBytes h.bytes = h := by
  obtain ⟨bs, hbs⟩ := h
  simp [ofBytes, hbs]

/-- The bytes of several hashes one after the other. -/
def concat (hs : List Hash256) : List Byte := hs.flatMap bytes

@[simp] theorem concat_nil : concat [] = [] := rfl

@[simp] theorem concat_cons (h : Hash256) (hs : List Hash256) : concat (h :: hs) = h.bytes ++ concat hs :=
  List.flatMap_cons

@[simp] theorem length_concat (hs : List Hash256) : (concat hs).length = 32 * hs.length := by
  induction hs with
  | nil => rfl
  | cons h hs ih =>
    rw [concat_cons, List.length_append, h.length_eq, ih, List.length_cons]
    ring

/-- The pieces of 32 bytes that a signature consists of. -/
def pieces : ℕ → List Byte → List Hash256
  | 0, _ => []
  | n + 1, bs => ofBytes (bs.take 32) :: pieces n (bs.drop 32)

@[simp] theorem length_pieces (n : ℕ) (bs : List Byte) : (pieces n bs).length = n := by
  induction n generalizing bs with
  | zero => rfl
  | succ n ih => rw [pieces, List.length_cons, ih]

theorem pieces_concat (hs : List Hash256) : pieces hs.length (concat hs) = hs := by
  induction hs with
  | nil => rfl
  | cons h hs ih =>
    rw [List.length_cons, pieces, concat_cons, List.take_left' h.length_eq,
      List.drop_left' h.length_eq, ofBytes_bytes, ih]

end Hash256

/-- `Winternitz`: a private seed and its public key. -/
structure Winternitz where
  privateSeed : MiniData
  publicKey : MiniData

namespace Winternitz

/-! ## Parameters -/

/-- `w_param`: the bits of a digit. -/
def wParam : ℕ := 8

/-- `n_bytes`. -/
def nBytes : ℕ := 32

/-- The largest digit, which is also the length of a chain. -/
def maxSteps : ℕ := (1 <<< wParam) - 1

/-- `l1`: the digits of a message. -/
def l1 : ℕ := (nBytes * 8 + wParam - 1) / wParam

/-- The loop of `getLog`. The fuel is the number looked for, and `n3` doubles in every turn. -/
def getLogLoop : ℕ → ℕ → ℕ → ℕ → ℕ
  | 0, _, n2, _ => n2
  | fuel + 1, n, n2, n3 => if n3 < n then getLogLoop fuel n (n2 + 1) (n3 <<< 1) else n2

/-- `getLog`. -/
def getLog (n : ℕ) : ℕ := getLogLoop n n 1 2

/-- `l2`: the digits of the checksum. -/
def l2 : ℕ := (getLog ((l1 <<< wParam) + 1) + wParam - 1) / wParam

/-- `l_total`. -/
def lTotal : ℕ := l1 + l2

theorem l1_eq : l1 = 32 := rfl

theorem l2_eq : l2 = 2 := by decide +kernel

theorem lTotal_eq : lTotal = 34 := by decide +kernel

theorem maxSteps_eq : maxSteps = 255 := rfl

/-! ## Digits -/

/-- The digits of a byte: one, since a digit has as many bits as a byte. -/
def byteDigits (b : Byte) : List ℕ :=
  (List.range (8 / wParam)).map fun j => (b.toNat >>> (wParam * j)) &&& maxSteps

/-- The loop that makes the digits of the checksum. -/
def checksumLoop : ℕ → ℕ → List ℕ
  | 0, _ => []
  | turns + 1, checksum => (checksum &&& maxSteps) :: checksumLoop turns (checksum >>> wParam)

/-- **How far the chains are walked** for a digest: its bytes, and the digits of the checksum. -/
def digits (hashed : Hash256) : List ℕ :=
  let msg := hashed.bytes.flatMap byteDigits
  let checksumsize := getLog ((l1 <<< wParam) + 1)
  msg ++ checksumLoop ((checksumsize + wParam - 1) / wParam) ((l1 <<< wParam) - msg.sum)

theorem byteDigits_eq (b : Byte) : byteDigits b = [b.toNat] := by
  have hb : b.toNat < 2 ^ 8 := b.toNat_lt
  show [(b.toNat >>> 0) &&& (2 ^ 8 - 1)] = _
  rw [Nat.shiftRight_zero, Nat.and_two_pow_sub_one_eq_mod, Nat.mod_eq_of_lt hb]

theorem checksumLoop_eq (turns checksum : ℕ) :
    checksumLoop turns checksum = lowDigits 256 turns checksum := by
  induction turns generalizing checksum with
  | zero => rfl
  | succ turns ih =>
    rw [checksumLoop, lowDigits, ih, Nat.shiftRight_eq_div_pow]
    show (checksum &&& (2 ^ 8 - 1)) :: _ = _
    rw [Nat.and_two_pow_sub_one_eq_mod]
    rfl

/-- The bytes of a digest as numbers. -/
def byteValues (hashed : Hash256) : List ℕ := hashed.bytes.map UInt8.toNat

theorem length_byteValues (hashed : Hash256) : (byteValues hashed).length = 32 := by
  rw [byteValues, List.length_map, hashed.length_eq]

theorem sum_byteValues_le (hashed : Hash256) : (byteValues hashed).sum ≤ 8192 := by
  have hbytes : ∀ x ∈ byteValues hashed, x ≤ 255 := by
    intro x hx
    obtain ⟨b, -, rfl⟩ := List.mem_map.mp hx
    exact Nat.le_of_lt_succ b.toNat_lt
  have hsum := List.sum_le_card_nsmul _ 255 hbytes
  rw [length_byteValues, smul_eq_mul] at hsum
  omega

/-- **The digits are the bytes with their checksum.** -/
theorem digits_eq (hashed : Hash256) : digits hashed = withChecksum 256 2 8192 (byteValues hashed) := by
  have hmsg : hashed.bytes.flatMap byteDigits = byteValues hashed := by
    rw [byteValues, List.map_eq_flatMap]
    congr 1
    funext b
    exact byteDigits_eq b
  have hturns : (getLog ((l1 <<< wParam) + 1) + wParam - 1) / wParam = 2 := l2_eq
  rw [digits, hmsg, hturns, checksumLoop_eq]
  rfl

theorem length_digits (hashed : Hash256) : (digits hashed).length = lTotal := by
  rw [digits_eq, length_withChecksum, length_byteValues, lTotal_eq]

theorem le_of_mem_digits {hashed : Hash256} {x : ℕ} (h : x ∈ digits hashed) : x ≤ maxSteps := by
  rw [maxSteps_eq]
  rw [digits_eq, withChecksum, List.mem_append] at h
  rcases h with h | h
  · obtain ⟨b, -, rfl⟩ := List.mem_map.mp h
    exact Nat.le_of_lt_succ b.toNat_lt
  · exact Nat.le_of_lt_succ (lt_of_mem_lowDigits (by norm_num) h)

/-- **The digits of another digest fall somewhere.** -/
theorem exists_digit_lt {hashed hashed' : Hash256} (h : hashed ≠ hashed') :
    ∃ (i x y : ℕ), (digits hashed)[i]? = some x ∧ (digits hashed')[i]? = some y ∧ y < x := by
  rw [digits_eq, digits_eq]
  apply exists_lt_of_ne _ (by norm_num) (sum_byteValues_le hashed')
  · intro heq
    apply h
    obtain ⟨bs, hbs⟩ := hashed
    obtain ⟨bs', hbs'⟩ := hashed'
    rw [Hash256.mk.injEq]
    exact List.map_injective_iff.mpr (fun a b hab => UInt8.toNat_inj.mp hab) heq
  · rw [length_byteValues, length_byteValues]

/-! ## Chains -/

section Chains

variable (C : Crypto)

/-- `sha3_256_bytes` and `sha3_256_array`: the hash library fills an array of 32 bytes. -/
def sha3 (bs : List Byte) : Hash256 := Hash256.ofBytes (C.hashData bs)

/-- `add_one_be` on the bytes from the last to the first: the carry stops at the first byte that does
not become zero. -/
def addOneLE : List Byte → List Byte
  | [] => []
  | b :: bs => if b + 1 ≠ 0 then (b + 1) :: bs else (b + 1) :: addOneLE bs

/-- `add_one_be`. -/
def addOneBE (data : List Byte) : List Byte := (addOneLE data.reverse).reverse

/-- The loop of `derive_private_chains`: the seed is hashed and then incremented. -/
def deriveLoop : ℕ → List Byte → List Hash256
  | 0, _ => []
  | todo + 1, currentSeed => sha3 C currentSeed :: deriveLoop todo (addOneBE currentSeed)

/-- `derive_private_chains`: the secret starts of the chains. -/
def derivePrivateChains (seed : List Byte) : List Hash256 :=
  deriveLoop C lTotal (Hash256.ofBytes seed).bytes

@[simp] theorem length_derivePrivateChains (seed : List Byte) :
    (derivePrivateChains C seed).length = lTotal := by
  have hloop : ∀ todo s, (deriveLoop C todo s).length = todo := by
    intro todo
    induction todo with
    | zero => exact fun s => rfl
    | succ todo ih =>
      intro s
      rw [deriveLoop, List.length_cons, ih]
  exact hloop _ _

/-- One step along a chain. -/
def chainStep (current : Hash256) : Hash256 := sha3 C current.bytes

/-- `chain_hash_opt`. -/
def chainHash (current : Hash256) (steps : ℕ) : Hash256 := (chainStep C)^[steps] current

/-- Walking a chain in two parts. -/
theorem chainHash_add (current : Hash256) (m n : ℕ) :
    chainHash C (chainHash C current m) n = chainHash C current (m + n) := by
  rw [chainHash, chainHash, chainHash, Nat.add_comm, Function.iterate_add_apply]

/-- Walk several chains, each as far as its digit says. -/
def walk (xs : List Hash256) (steps : List ℕ) : List Hash256 := List.zipWith (chainHash C) xs steps

theorem walk_walk (xs : List Hash256) (ms ns : List ℕ) (h : ms.length = ns.length) :
    walk C (walk C xs ms) ns = walk C xs (List.zipWith (· + ·) ms ns) := by
  induction xs generalizing ms ns with
  | nil => rfl
  | cons x xs ih =>
    cases ms with
    | nil =>
      cases ns with
      | nil => rfl
      | cons n ns => cases h
    | cons m ms =>
      cases ns with
      | nil => cases h
      | cons n ns =>
        show chainHash C (chainHash C x m) n :: walk C (walk C xs ms) ns = _
        rw [chainHash_add, ih ms ns (Nat.succ.inj h)]
        rfl

/-- The ends of the chains. -/
def chainEnds (x : List Hash256) : List Hash256 := x.map fun c => chainHash C c maxSteps

/-- `compute_public_key_parallel`: the hash of the chain ends. -/
def computePublicKey (x : List Hash256) : MiniData := ⟨(sha3 C (Hash256.concat (chainEnds C x))).bytes⟩

/-! ## Signing and verifying -/

/-- The public key of a private seed. -/
def getPublicKey (seed : MiniData) : MiniData := computePublicKey C (derivePrivateChains C seed.bytes)

/-- The constructor from a private seed. -/
def ofSeed (seed : MiniData) : Winternitz := ⟨seed, getPublicKey C seed⟩

/-- `sign` behind the hash of the data. -/
def signDigest (seed : MiniData) (hashed : Hash256) : MiniData :=
  ⟨Hash256.concat (walk C (derivePrivateChains C seed.bytes) (digits hashed))⟩

/-- `sign`. -/
def sign (seed zData : MiniData) : MiniData := signDigest C seed (sha3 C zData.bytes)

/-- The steps that are left to the end of a chain. -/
def remainingSteps (hashed : Hash256) : List ℕ := (digits hashed).map fun d => maxSteps - d

/-- The ends that the chains of a signature are walked to. -/
def derivedEnds (hashed : Hash256) (zSignature : MiniData) : List Hash256 :=
  walk C (Hash256.pieces lTotal zSignature.bytes) (remainingSteps hashed)

/-- `verify` behind the hash of the data. -/
def verifyDigest (zPublicKey : MiniData) (hashed : Hash256) (zSignature : MiniData) : Bool :=
  if zSignature.bytes.length ≠ lTotal * nBytes then false
  else decide ((sha3 C (Hash256.concat (derivedEnds C hashed zSignature))).bytes = zPublicKey.bytes)

/-- `verify`. -/
def verify (zPublicKey zData zSignature : MiniData) : Bool :=
  verifyDigest C zPublicKey (sha3 C zData.bytes) zSignature

theorem length_remainingSteps (hashed : Hash256) : (remainingSteps hashed).length = lTotal := by
  rw [remainingSteps, List.length_map, length_digits]

/-- **Signing and verifying split the work of every chain**: together they walk it to its end. -/
theorem digits_add_remainingSteps (hashed : Hash256) :
    List.zipWith (· + ·) (digits hashed) (remainingSteps hashed) =
      List.replicate lTotal maxSteps := by
  have hsplit : ∀ ds : List ℕ, (∀ d ∈ ds, d ≤ maxSteps) →
      List.zipWith (· + ·) ds (ds.map fun d => maxSteps - d) = List.replicate ds.length maxSteps := by
    intro ds hds
    induction ds with
    | nil => rfl
    | cons d ds ih =>
      have hd := hds d List.mem_cons_self
      rw [List.map_cons, List.zipWith_cons_cons, ih fun x hx => hds x (List.mem_cons_of_mem d hx),
        Nat.add_sub_cancel' hd, List.length_cons, List.replicate_succ]
  rw [← length_digits hashed]
  exact hsplit _ fun d hd => le_of_mem_digits hd

theorem walk_replicate (xs : List Hash256) (n : ℕ) :
    walk C xs (List.replicate xs.length n) = xs.map fun c => chainHash C c n := by
  induction xs with
  | nil => rfl
  | cons x xs ih =>
    show chainHash C x n :: walk C xs (List.replicate xs.length n) = _
    rw [ih]
    rfl

theorem length_walk {xs : List Hash256} {steps : List ℕ} (h : xs.length = steps.length) :
    (walk C xs steps).length = xs.length := by
  rw [walk, List.length_zipWith, h, min_self]

/-- The pieces of a signature made of as many hashes as there are chains. -/
theorem pieces_of_length {hs : List Hash256} (h : hs.length = lTotal) :
    Hash256.pieces lTotal (Hash256.concat hs) = hs := by
  rw [← h, Hash256.pieces_concat]

theorem length_concat_of_length {hs : List Hash256} (h : hs.length = lTotal) :
    (Hash256.concat hs).length = lTotal * nBytes := by
  rw [Hash256.length_concat, h, nBytes, Nat.mul_comm]

/-- **A signature verifies** under the public key of its seed. -/
theorem verifyDigest_signDigest (seed : MiniData) (hashed : Hash256) :
    verifyDigest C (getPublicKey C seed) hashed (signDigest C seed hashed) = true := by
  have hx := length_derivePrivateChains C seed.bytes
  set x := derivePrivateChains C seed.bytes with hxdef
  have hwalk : (walk C x (digits hashed)).length = lTotal := by
    rw [length_walk C (by rw [hx, length_digits]), hx]
  rw [signDigest, ← hxdef, verifyDigest, if_neg (not_not.mpr (length_concat_of_length hwalk)),
    decide_eq_true_eq, derivedEnds, pieces_of_length hwalk,
    walk_walk C x _ _ (by rw [length_digits, length_remainingSteps]), digits_add_remainingSteps,
    ← hx, walk_replicate]
  rfl

/-- The length of public keys and signatures. -/
theorem length_getPublicKey (seed : MiniData) : (getPublicKey C seed).getLength = 32 :=
  (sha3 C _).length_eq

theorem length_sign (seed zData : MiniData) : (sign C seed zData).getLength = lTotal * nBytes := by
  have hx := length_derivePrivateChains C seed.bytes
  have hwalk : (walk C (derivePrivateChains C seed.bytes) (digits (sha3 C zData.bytes))).length =
      lTotal := by rw [length_walk C (by rw [hx, length_digits]), hx]
  exact length_concat_of_length hwalk

theorem verify_sign (seed zData : MiniData) :
    verify C (getPublicKey C seed) zData (sign C seed zData) = true :=
  verifyDigest_signDigest C seed _

/-! ## Walking on -/

/-- A signature whose chains are walked on by so many steps. -/
def walkOn (zSignature : MiniData) (steps : List ℕ) : MiniData :=
  ⟨Hash256.concat (walk C (Hash256.pieces lTotal zSignature.bytes) steps)⟩

/-- **The hash is broken for a key**: the chain ends that a verification computed hash to the public key
and are not those of the key, or a chain of the key comes back to its end when it is walked on. -/
def Broken (seed : MiniData) (derived : List Hash256) : Prop :=
  (derived ≠ chainEnds C (derivePrivateChains C seed.bytes) ∧
      sha3 C (Hash256.concat derived) =
        sha3 C (Hash256.concat (chainEnds C (derivePrivateChains C seed.bytes)))) ∨
    ∃ x ∈ derivePrivateChains C seed.bytes, ∃ j, 0 < j ∧
      chainHash C x (maxSteps + j) = chainHash C x maxSteps

/-- Chains that are walked too far and end where they should come back. -/
theorem returns_of_walk_eq {xs : List Hash256} {steps : List ℕ} (hlen : steps.length = xs.length)
    {i n : ℕ} (hi : steps[i]? = some n) (hn : maxSteps < n) (h : walk C xs steps = chainEnds C xs) :
    ∃ x ∈ xs, ∃ j, 0 < j ∧ chainHash C x (maxSteps + j) = chainHash C x maxSteps := by
  obtain ⟨his, hin⟩ := List.getElem?_eq_some_iff.mp hi
  have hget := congrArg (fun l : List Hash256 => l[i]?) h
  simp only [walk, chainEnds, List.getElem?_zipWith, List.getElem?_map, hi,
    List.getElem?_eq_getElem (show i < xs.length by omega), Option.map_some,
    Option.some.injEq] at hget
  refine ⟨xs[i], List.getElem_mem _, n - maxSteps, by omega, ?_⟩
  rwa [Nat.add_sub_cancel' hn.le]

/-- **A signature walked on is not a signature of another digest**, unless the hash is broken. -/
theorem broken_of_verifyDigest {seed : MiniData} {hashed hashed' : Hash256} {steps : List ℕ}
    (hne : hashed ≠ hashed') (hsteps : steps.length = lTotal)
    (h : verifyDigest C (getPublicKey C seed) hashed'
      (walkOn C (signDigest C seed hashed) steps) = true) :
    Broken C seed (derivedEnds C hashed' (walkOn C (signDigest C seed hashed) steps)) := by
  have hx := length_derivePrivateChains C seed.bytes
  set x := derivePrivateChains C seed.bytes with hxdef
  have hsigned : (walk C x (digits hashed)).length = lTotal := by
    rw [length_walk C (by rw [hx, length_digits]), hx]
  -- the chains of the forged signature, from their secret starts on
  set total := List.zipWith (· + ·) (digits hashed) steps with htotal
  have htotalLen : total.length = lTotal := by
    rw [htotal, List.length_zipWith, length_digits, hsteps, min_self]
  have hwalk : (walk C x total).length = lTotal := by rw [length_walk C (by rw [hx, htotalLen]), hx]
  have hforged : walkOn C (signDigest C seed hashed) steps = ⟨Hash256.concat (walk C x total)⟩ := by
    rw [walkOn, signDigest, ← hxdef, pieces_of_length hsigned,
      walk_walk C x _ _ (by rw [length_digits, hsteps])]
  set ends := List.zipWith (· + ·) total (remainingSteps hashed') with hends
  have hendsLen : ends.length = lTotal := by
    rw [hends, List.length_zipWith, htotalLen, length_remainingSteps, min_self]
  have hderived : derivedEnds C hashed' (walkOn C (signDigest C seed hashed) steps) =
      walk C x ends := by
    rw [hforged, derivedEnds, pieces_of_length hwalk,
      walk_walk C x _ _ (by rw [htotalLen, length_remainingSteps])]
  have hsize : (walkOn C (signDigest C seed hashed) steps).bytes.length = lTotal * nBytes := by
    rw [hforged]
    exact length_concat_of_length hwalk
  rw [verifyDigest, if_neg (not_not.mpr hsize), decide_eq_true_eq, hderived] at h
  rw [hderived, Broken, ← hxdef]
  by_cases hsame : walk C x ends = chainEnds C x
  · -- where the other digest has the smaller digit, the chain was walked beyond its end
    right
    obtain ⟨i, a, b, ha, hb, hlt⟩ := exists_digit_lt hne
    obtain ⟨hia, -⟩ := List.getElem?_eq_some_iff.mp ha
    rw [length_digits] at hia
    obtain ⟨k, hk⟩ : ∃ k, steps[i]? = some k := ⟨_, List.getElem?_eq_getElem (by omega)⟩
    have hmax := le_of_mem_digits (List.mem_of_getElem? hb)
    have hend : ends[i]? = some (a + k + (maxSteps - b)) := by
      simp [hends, htotal, remainingSteps, List.getElem?_zipWith, ha, hb, hk]
    exact returns_of_walk_eq C (by rw [hendsLen, hx]) hend (by omega) hsame
  · left
    refine ⟨hsame, ?_⟩
    rw [Hash256.mk.injEq]
    exact h

end Chains

/-- **The checksum blocks walking forward.** The digits of two digests have one length and stay inside
the chains; signing and verifying split every chain; of different digests, the second has a smaller
digit somewhere; and a signature of the first that is walked on is no signature of the second, unless
the hash is broken. -/
theorem digits_block_forward {hashed hashed' : Hash256} (h : hashed ≠ hashed') :
    (digits hashed).length = (digits hashed').length ∧
      (∀ d ∈ digits hashed ++ digits hashed', d ≤ maxSteps) ∧
      (∃ (i x y : ℕ), (digits hashed)[i]? = some x ∧ (digits hashed')[i]? = some y ∧ y < x) ∧
      List.zipWith (· + ·) (digits hashed) (remainingSteps hashed) =
        List.replicate lTotal maxSteps ∧
      ∀ (C : Crypto) (seed : MiniData) (steps : List ℕ), steps.length = lTotal →
        verifyDigest C (getPublicKey C seed) hashed' (walkOn C (signDigest C seed hashed) steps) =
          true → Broken C seed (derivedEnds C hashed' (walkOn C (signDigest C seed hashed) steps)) := by
  refine ⟨by rw [length_digits, length_digits], fun d hd => ?_, exists_digit_lt h,
    digits_add_remainingSteps hashed,
    fun C seed steps hsteps => broken_of_verifyDigest C h hsteps⟩
  rcases List.mem_append.mp hd with hd | hd
  · exact le_of_mem_digits hd
  · exact le_of_mem_digits hd

/-- A digest of zeros and one that differs in its last byte. -/
theorem digits_block_forward_zeros :
    ∃ (i x y : ℕ), (digits (Hash256.ofBytes []))[i]? = some x ∧
      (digits (Hash256.ofBytes (List.replicate 31 0 ++ [1])))[i]? = some y ∧ y < x :=
  (@digits_block_forward (Hash256.ofBytes [])
    (Hash256.ofBytes (List.replicate 31 0 ++ [1])) (by decide +kernel)).2.2.1

end Winternitz

end Minima
