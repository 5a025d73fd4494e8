import Minima.Keys.Signatures
import Minima.Lib.OneTime

/-! # The keys of the wallet

A row of the wallet's table has the seed of a key tree and its use counter. `signData` makes the tree
again, loads the counter, signs and stores the counter. What a key signs, and with which one-time keys,
is a ledger, and the signatures in it are made with these keys. It is the ledger of a counter that starts
again after the last use, so a one-time key signs a second time as soon as a key signs once more than it
has one-time keys.

* **`Wallet.signData`**, **`Wallet.createNewKey`** — the operations of the wallet.
* **`Wallet.ledger`** — what the one-time keys of a key sign, over any run; **`Signed.MadeBy`** — with these keys.
* **`Wallet.one_time_iff`** — no one-time key signs twice, and the key refuses when all are used, exactly
  in runs with no more signatures than one-time keys. -/

namespace Minima

/-! ## The one-time keys of a key tree -/

/-- The path to a one-time key, in a tree of so many levels with so many keys a node. -/
def IsLeaf (n levels : ℕ) (leaf : List ℕ) : Prop := leaf.length = levels ∧ ∀ k ∈ leaf, k < n

/-- The path of a use. -/
def leafOfUse (n levels use : ℕ) : List ℕ :=
  match TreeKey.baseConversion use n levels with
  | .ok nodes => nodes
  | .error _ => []

theorem isLeaf_leafOfUse {n levels u : ℕ} (hn : 1 ≤ n) (hu : u < n ^ levels) :
    IsLeaf n levels (leafOfUse n levels u) ∧ Nat.ofDigits n (leafOfUse n levels u).reverse = u := by
  obtain ⟨nodes, hnodes, hlen, hlt, hvalue⟩ := TreeKey.baseConversion_spec hn hu
  rw [leafOfUse, hnodes]
  exact ⟨⟨hlen, hlt⟩, hvalue⟩

/-- **Different uses have different paths.** -/
theorem leafOfUse_inj {n levels : ℕ} (hn : 1 ≤ n) (u : ℕ) (hu : u < n ^ levels) (u' : ℕ)
    (hu' : u' < n ^ levels) (h : leafOfUse n levels u = leafOfUse n levels u') : u = u' := by
  rw [← (isLeaf_leafOfUse hn hu).2, ← (isLeaf_leafOfUse hn hu').2, h]

/-- **Every one-time key has a use.** -/
theorem isLeaf_iff {n levels : ℕ} (hn : 2 ≤ n) (leaf : List ℕ) :
    IsLeaf n levels leaf ↔ ∃ u < n ^ levels, leafOfUse n levels u = leaf := by
  constructor
  · rintro ⟨hlen, hlt⟩
    have hlt' : ∀ k ∈ leaf.reverse, k < n := fun k hk => hlt k (List.mem_reverse.mp hk)
    have hu : Nat.ofDigits n leaf.reverse < n ^ levels := by
      rw [← hlen, ← List.length_reverse]
      exact Nat.ofDigits_lt_base_pow_length (by omega) hlt'
    obtain ⟨⟨hlen', hlt''⟩, hvalue⟩ := isLeaf_leafOfUse (by omega) hu
    refine ⟨_, hu, List.reverse_injective ?_⟩
    refine Nat.ofDigits_inj_of_len_eq (by omega) ?_ (fun k hk => hlt'' k (List.mem_reverse.mp hk)) hlt' hvalue
    rw [List.length_reverse, List.length_reverse, hlen, hlen']
  · rintro ⟨u, hu, rfl⟩
    exact (isLeaf_leafOfUse (by omega) hu).1

/-! ## Signatures by one-time keys -/

/-- An entry of the ledger: the path to a one-time key, the data that it signs, and the signature. -/
structure Signed where
  leaf : List ℕ
  zData : MiniData
  signature : Signature

namespace Signed

/-- The one-time key and the data. -/
def line (s : Signed) : List ℕ × MiniData := (s.leaf, s.zData)

/-- **The signature is made by the one-time key** at the end of the path, in a tree with this seed: the last
of its proofs has the public key of this `Winternitz` key, and what it signs the data to. -/
def MadeBy (C : Crypto) (seed : MiniData) (s : Signed) : Prop :=
  ∃ front proof, s.signature.signatures = front ++ [⟨Winternitz.getPublicKey C (leafSeed C seed s.leaf),
    Winternitz.sign C (leafSeed C seed s.leaf) s.zData, proof⟩]

end Signed

/-! ## Runs of one key -/

namespace TreeKey

/-- A call of `sign`, or the key made again with the counter it had. -/
inductive Event where
  | sign (zData : MiniData)
  | reload

/-- What the one-time keys sign in a run. -/
def ledger (C : Crypto) (outOfRange : ℤ) : TreeKey → List Event → List Signed
  | _, [] => []
  | k, .sign zData :: events =>
    match k.sign C zData with
    | .ok (signature, k') =>
      ⟨leafOfUse k.keysPerLevel k.levels k.nextUse, zData, signature⟩ :: ledger C outOfRange k' events
    | .error _ => ledger C outOfRange k events
  | k, .reload :: events =>
    match create C outOfRange k.privateSeed k.keysPerLevel k.levels with
    | .ok k' => ledger C outOfRange (k'.setUses k.uses) events
    | .error _ => []

/-- The data of a run. -/
def Event.data : Event → Option MiniData
  | .sign zData => some zData
  | .reload => none

variable {C : Crypto} {outOfRange : ℤ} {n levels : ℕ} {seed publicKey : MiniData} {k : TreeKey}

/-- As long as the number of one-time keys is an `int`, the counter starts again after the last one. -/
theorem Kept.nextUse_eq (h : Kept C outOfRange n levels seed publicKey k) (hmax : n ^ levels < 2 ^ 31) :
    k.nextUse = OneTime.next (n ^ levels) k.uses := by
  rw [nextUse, h.maxUses_eq, castToInt, if_pos hmax, OneTime.next]
  norm_cast

/-- **One entry:** the signature is made by the one-time key of the use. -/
theorem Kept.sign_madeBy (h : Kept C outOfRange n levels seed publicKey k) (hC : C.Is256) (hn : 1 ≤ n)
    (hn' : n < 2 ^ 31) (hL : 1 ≤ levels) (hmax : n ^ levels < 2 ^ 31) (hu : k.uses ≤ n ^ levels)
    (zData : MiniData) : ∃ sig k', k.sign C zData = .ok (sig, k') ∧
      Kept C outOfRange n levels seed publicKey k' ∧ k'.uses = OneTime.next (n ^ levels) k.uses + 1 ∧
      Signed.MadeBy C seed ⟨leafOfUse n levels (OneTime.next (n ^ levels) k.uses), zData, sig⟩ := by
  obtain ⟨sig, k', nodes, hsign, hkept, huses, hpath, hspec⟩ := h.sign hC hn hn' hL (.inl (by omega)) zData
  have hleaf : leafOfUse n levels (OneTime.next (n ^ levels) k.uses) = nodes := by
    rw [path, h.keysPerLevel_eq, h.levels_eq, h.nextUse_eq hmax] at hpath
    rw [leafOfUse, hpath]
  refine ⟨sig, k', hsign, hkept, by rw [huses, h.nextUse_eq hmax], ?_⟩
  rw [hleaf]
  exact hspec.last

/-- **The ledger of a key is that of a wrapping counter**, and its signatures are made by the one-time keys
that it names. -/
theorem Kept.ledger_spec (hC : C.Is256) (hn : 1 ≤ n) (hn' : n < 2 ^ 31) (hL : 1 ≤ levels)
    (hL' : levels ≤ maxKeyLevels) (hmax : n ^ levels < 2 ^ 31) (events : List Event) {k : TreeKey}
    (h : Kept C outOfRange n levels seed publicKey k) (hu : k.uses ≤ n ^ levels) :
    (k.ledger C outOfRange events).map Signed.line =
        (OneTime.taken (n ^ levels) k.uses (events.filterMap Event.data)).map (Prod.map (leafOfUse n levels) id) ∧
      ∀ s ∈ k.ledger C outOfRange events, s.MadeBy C seed := by
  induction events generalizing k publicKey with
  | nil => exact ⟨rfl, by simp [ledger]⟩
  | cons event events ih =>
    cases event with
    | sign zData =>
      have huse := h.nextUse_lt hn (.inl (by omega))
      obtain ⟨sig, k', hsign, hkept, huses, hmade⟩ := h.sign_madeBy hC hn hn' hL hmax hu zData
      rw [h.nextUse_eq hmax] at huse
      obtain ⟨hlines, hentries⟩ := ih hkept (by omega)
      rw [ledger, hsign]
      show (Signed.mk _ zData sig :: ledger C outOfRange k' events).map Signed.line = _ ∧
        ∀ s ∈ Signed.mk _ zData sig :: ledger C outOfRange k' events, s.MadeBy C seed
      rw [h.nextUse_eq hmax, h.keysPerLevel_eq, h.levels_eq, List.map_cons, hlines, huses, List.forall_mem_cons]
      exact ⟨rfl, hmade, hentries⟩
    | reload =>
      obtain ⟨k', hcreate, -, hkept⟩ := exists_create hC outOfRange seed hn hn' hL'
      rw [ledger, h.privateSeed_eq, h.keysPerLevel_eq, h.levels_eq, hcreate]
      exact ih (hkept.setUses k.uses) hu

end TreeKey

/-! ## The wallet -/

/-- A row of the table `keys`. Seeds and public keys are hex texts there. -/
structure KeyRow where
  size : ℕ
  depth : ℕ
  uses : ℕ
  maxuses : ℤ
  modifier : MiniData
  privatekey : MiniData
  publickey : MiniData
  deriving DecidableEq

/-- `Wallet`: the seed, the table of keys, and the number of public keys in memory. -/
structure Wallet where
  baseSeed : Option MiniData
  keys : List KeyRow
  allKeys : List MiniData

namespace Wallet

/-- `miniDataFromUInt64`: big endian, with a zero byte before a byte that would be a sign. -/
def miniDataFromUInt64 (v : ℕ) : MiniData :=
  let temp : List Byte := if v = 0 then [0] else ((Nat.digits 256 v).map UInt8.ofNat).reverse
  ⟨if temp.headD 0 &&& 0x80 ≠ 0 then 0 :: temp else temp⟩

/-- No seed, or the seed `0x00` of a wallet whose keys are away. -/
def locked (w : Wallet) : Bool := w.baseSeed.isNone || w.baseSeed == some ⟨[0]⟩

/-- `createNewKey`: the key of the next number under the seed of the wallet. -/
def createNewKey (C : Crypto) (outOfRange : ℤ) (w : Wallet) : Result (KeyRow × Wallet) :=
  match w.baseSeed with
  | none => undefinedBehaviour "null seed"
  | some seedmd => do
    let modifier := miniDataFromUInt64 w.allKeys.length
    let privseed := C.hashObjects (.ok seedmd.writeDataStream) (.ok modifier.writeDataStream)
    let treekey ← TreeKey.createDefault C outOfRange privseed
    let row : KeyRow := ⟨treekey.keysPerLevel, treekey.levels, treekey.uses, treekey.maxUses, modifier,
      treekey.privateSeed, treekey.publicKey⟩
    return (row, { w with keys := w.keys ++ [row], allKeys := w.allKeys.insert row.publickey })

/-- The key tree of a row, with its counter. -/
def load (C : Crypto) (outOfRange : ℤ) (row : KeyRow) : Result TreeKey := do
  let tk ← TreeKey.create C outOfRange row.privatekey row.size row.depth
  return tk.setUses row.uses

/-- The row of a public key: the first one. -/
def rowOf (w : Wallet) (zPublicKey : MiniData) : Option KeyRow :=
  w.keys.find? fun row => row.publickey == zPublicKey

/-- `updateUsesInternal`. -/
def updateUses (w : Wallet) (zUses : ℕ) (zPublicKey : MiniData) : Wallet :=
  { w with keys := w.keys.map fun row =>
      if row.publickey == zPublicKey then { row with uses := zUses } else row }

/-- `signData`. An exception behind the check of the seed is logged, and there is no signature. -/
def signData (C : Crypto) (outOfRange : ℤ) (w : Wallet) (zPublicKey zData : MiniData) :
    Result (Option Signature × Wallet) :=
  if w.locked then throwException "KeysDB LOCKED. No Private Keys.."
  else match w.rowOf zPublicKey with
    | none => .ok (none, w)
    | some row =>
      match (do
        let tk ← load C outOfRange row
        let (signature, tk) ← tk.sign C zData
        return (signature, tk.uses) : Result (Signature × ℕ)) with
      | .ok (signature, newuses) => .ok (some signature, w.updateUses newuses zPublicKey)
      | .error (.exception _) => .ok (none, w)
      | .error (.undefined what) => undefinedBehaviour what

/-! ## Runs of the wallet -/

/-- A call of `signData` or of `createNewKey`. -/
inductive Request where
  | signData (zPublicKey zData : MiniData)
  | createNewKey

/-- The wallet after a call. A call that throws changes nothing. -/
def after (C : Crypto) (outOfRange : ℤ) (w : Wallet) : Request → Wallet
  | .signData zPublicKey zData =>
    match w.signData C outOfRange zPublicKey zData with
    | .ok (_, w') => w'
    | .error _ => w
  | .createNewKey =>
    match w.createNewKey C outOfRange with
    | .ok (_, w') => w'
    | .error _ => w

/-- The path to the one-time key that signs next for a public key. -/
def nextLeaf (C : Crypto) (outOfRange : ℤ) (w : Wallet) (zPublicKey : MiniData) : List ℕ :=
  match w.rowOf zPublicKey with
  | none => []
  | some row =>
    match load C outOfRange row with
    | .ok tk => leafOfUse tk.keysPerLevel tk.levels tk.nextUse
    | .error _ => []

/-- What a call enters in the ledger of a public key. -/
def entry (C : Crypto) (outOfRange : ℤ) (publicKey : MiniData) (w : Wallet) : Request → List Signed
  | .signData zPublicKey zData =>
    match w.signData C outOfRange zPublicKey zData with
    | .ok (some signature, _) =>
      if zPublicKey = publicKey then [⟨w.nextLeaf C outOfRange publicKey, zData, signature⟩] else []
    | _ => []
  | .createNewKey => []

/-- What the one-time keys of a public key sign in a run. -/
def ledger (C : Crypto) (outOfRange : ℤ) (publicKey : MiniData) : Wallet → List Request → List Signed
  | _, [] => []
  | w, request :: requests =>
    w.entry C outOfRange publicKey request ++ ledger C outOfRange publicKey (w.after C outOfRange request) requests

/-- The data that a call wants signed by a public key. -/
def Request.dataFor (publicKey : MiniData) : Request → Option MiniData
  | .signData zPublicKey zData => if zPublicKey = publicKey then some zData else none
  | .createNewKey => none

/-- **The wallet has a key**: the first row of the public key is that of a default tree with a seed, at a
use. -/
structure HasKey (publicKey seed : MiniData) (u : ℕ) (row : KeyRow) (w : Wallet) : Prop where
  rowOf : w.rowOf publicKey = some row
  privatekey : row.privatekey = seed
  size : row.size = TreeKey.defaultKeysPerLevel
  depth : row.depth = TreeKey.defaultLevels
  uses : row.uses = u

/-- The number of one-time keys of a default tree. -/
def defaultUses : ℕ := TreeKey.defaultKeysPerLevel ^ TreeKey.defaultLevels

theorem defaultUses_eq : defaultUses = 262144 := by decide

section

variable {C : Crypto} {outOfRange : ℤ} {publicKey seed : MiniData} {u : ℕ} {row : KeyRow} {w : Wallet}

@[simp] theorem locked_updateUses (w : Wallet) (zUses : ℕ) (zPublicKey : MiniData) :
    (w.updateUses zUses zPublicKey).locked = w.locked := rfl

/-- `updateUsesInternal` finds the same row, with the new counter if it is one of the public key. -/
theorem rowOf_updateUses (w : Wallet) (zUses : ℕ) (zPublicKey publicKey : MiniData) :
    (w.updateUses zUses zPublicKey).rowOf publicKey = (w.rowOf publicKey).map fun row =>
      if row.publickey == zPublicKey then { row with uses := zUses } else row := by
  rw [rowOf, updateUses, List.find?_map, rowOf]
  congr 2
  funext row
  simp only [Function.comp_apply]
  split_ifs <;> rfl

theorem publickey_of_rowOf (h : w.rowOf publicKey = some row) : row.publickey = publicKey := by
  have hfound := List.find?_some h
  simpa using hfound

/-- What `createNewKey` does: a row for a new default tree, after the others. -/
theorem createNewKey_eq_ok {w' : Wallet} (h : w.createNewKey C outOfRange = .ok (row, w')) :
    ∃ tk modifier privseed, TreeKey.createDefault C outOfRange privseed = .ok tk ∧
      row = ⟨tk.keysPerLevel, tk.levels, tk.uses, tk.maxUses, modifier, tk.privateSeed, tk.publicKey⟩ ∧
      w' = { w with keys := w.keys ++ [row], allKeys := w.allKeys.insert row.publickey } := by
  rw [createNewKey] at h
  split at h
  · exact absurd h (undefinedBehaviour_ne_ok _ _)
  · obtain ⟨tk, htk, hw⟩ := Result.bind_eq_ok.mp h
    simp only [pure, Except.pure, Except.ok.injEq, Prod.mk.injEq] at hw
    obtain ⟨rfl, rfl⟩ := hw
    exact ⟨tk, _, _, htk, rfl, rfl⟩

/-- A new row comes after the others. -/
theorem HasKey.createNewKey (C : Crypto) (outOfRange : ℤ) (h : HasKey publicKey seed u row w) :
    HasKey publicKey seed u row (w.after C outOfRange .createNewKey) ∧
      (w.after C outOfRange .createNewKey).locked = w.locked := by
  rw [after]
  cases hcreate : w.createNewKey C outOfRange with
  | error e => exact ⟨h, rfl⟩
  | ok created =>
    obtain ⟨row', w'⟩ := created
    obtain ⟨-, -, -, -, -, rfl⟩ := createNewKey_eq_ok hcreate
    refine ⟨⟨?_, h.privatekey, h.size, h.depth, h.uses⟩, rfl⟩
    have hrow := h.rowOf
    rw [Wallet.rowOf] at hrow ⊢
    rw [List.find?_append, hrow, Option.some_or]

/-- `signData` changes nothing but the counter of its public key. -/
theorem after_signData (C : Crypto) (outOfRange : ℤ) (w : Wallet) (zPublicKey zData : MiniData) :
    w.after C outOfRange (.signData zPublicKey zData) = w ∨
      ∃ zUses, w.after C outOfRange (.signData zPublicKey zData) = w.updateUses zUses zPublicKey := by
  rw [after]
  cases hsign : w.signData C outOfRange zPublicKey zData with
  | error e => exact .inl rfl
  | ok signed =>
    obtain ⟨signature, w'⟩ := signed
    rw [signData] at hsign
    split_ifs at hsign with hlocked
    · exact absurd hsign (throwException_ne_ok _ _)
    · split at hsign
      · rw [Except.ok.injEq, Prod.mk.injEq] at hsign
        exact .inl hsign.2.symm
      · split at hsign
        · rw [Except.ok.injEq, Prod.mk.injEq] at hsign
          exact .inr ⟨_, hsign.2.symm⟩
        · rw [Except.ok.injEq, Prod.mk.injEq] at hsign
          exact .inl hsign.2.symm
        · exact absurd hsign (undefinedBehaviour_ne_ok _ _)

/-- Signing with another key. -/
theorem HasKey.signData_other (C : Crypto) (outOfRange : ℤ) (h : HasKey publicKey seed u row w)
    {zPublicKey : MiniData} (hne : zPublicKey ≠ publicKey) (zData : MiniData) :
    HasKey publicKey seed u row (w.after C outOfRange (.signData zPublicKey zData)) ∧
      (w.after C outOfRange (.signData zPublicKey zData)).locked = w.locked := by
  rcases after_signData C outOfRange w zPublicKey zData with hafter | ⟨zUses, hafter⟩
  · rw [hafter]
    exact ⟨h, rfl⟩
  · rw [hafter]
    have hkey : (row.publickey == zPublicKey) = false := by
      rw [publickey_of_rowOf h.rowOf]
      simpa using hne.symm
    refine ⟨⟨?_, h.privatekey, h.size, h.depth, h.uses⟩, rfl⟩
    rw [rowOf_updateUses, h.rowOf, Option.map_some, hkey]
    rfl

/-- The key tree of the row. -/
theorem HasKey.load (hC : C.Is256) (outOfRange : ℤ) (h : HasKey publicKey seed u row w) :
    ∃ tk rootKey, load C outOfRange row = .ok tk ∧ tk.uses = u ∧
      tk.Kept C outOfRange TreeKey.defaultKeysPerLevel TreeKey.defaultLevels seed rootKey := by
  obtain ⟨tk, hcreate, -, hkept⟩ := @TreeKey.exists_create C TreeKey.defaultKeysPerLevel
    TreeKey.defaultLevels hC outOfRange seed (by decide) (by decide) (by decide)
  refine ⟨tk.setUses row.uses, tk.publicKey, ?_, h.uses, hkept.setUses row.uses⟩
  rw [Wallet.load, h.size, h.depth, h.privatekey, hcreate]
  rfl

/-- **Signing with the key**: there is a signature, made by the one-time key of the next use, and the counter
moves on. -/
theorem HasKey.signData (hC : C.Is256) (outOfRange : ℤ) (h : HasKey publicKey seed u row w)
    (hlocked : w.locked = false) (hu : u ≤ defaultUses) (zData : MiniData) :
    (∃ s : Signed, w.entry C outOfRange publicKey (.signData publicKey zData) = [s] ∧
        s.line = (leafOfUse TreeKey.defaultKeysPerLevel TreeKey.defaultLevels (OneTime.next defaultUses u), zData) ∧
        s.MadeBy C seed) ∧
      (w.after C outOfRange (.signData publicKey zData)).locked = false ∧
      ∃ row', HasKey publicKey seed (OneTime.next defaultUses u + 1) row'
        (w.after C outOfRange (.signData publicKey zData)) := by
  obtain ⟨tk, rootKey, hload, rfl, hkept⟩ := h.load hC outOfRange
  obtain ⟨sig, tk', hsign, -, huses', hmade⟩ :=
    hkept.sign_madeBy hC (by decide) (by decide) (by decide) (by decide) hu zData
  have hsigned : w.signData C outOfRange publicKey zData =
      .ok (some sig, w.updateUses (OneTime.next defaultUses tk.uses + 1) publicKey) := by
    rw [Wallet.signData, hlocked, h.rowOf]
    simp only [Bool.false_eq_true, if_false, hload, Result.ok_bind, hsign, huses']
    rfl
  have hafter : w.after C outOfRange (.signData publicKey zData) =
      w.updateUses (OneTime.next defaultUses tk.uses + 1) publicKey := by rw [after, hsigned]
  rw [hafter]
  refine ⟨⟨_, ?_, rfl, hmade⟩, by rw [locked_updateUses, hlocked],
    { row with uses := OneTime.next defaultUses tk.uses + 1 }, ?_, h.privatekey, h.size, h.depth, rfl⟩
  · rw [entry, hsigned]
    simp only [if_true, nextLeaf, h.rowOf, hload, hkept.keysPerLevel_eq, hkept.levels_eq,
      hkept.nextUse_eq (by decide)]
  · have hkey : (row.publickey == publicKey) = true := by simpa using publickey_of_rowOf h.rowOf
    rw [rowOf_updateUses, h.rowOf, Option.map_some, if_pos hkey]

/-- **The ledger of a wallet key is that of a wrapping counter**, and its signatures are made by the one-time
keys that it names. -/
theorem HasKey.ledger_spec (hC : C.Is256) (outOfRange : ℤ) (requests : List Request)
    (h : HasKey publicKey seed u row w) (hlocked : w.locked = false) (hu : u ≤ defaultUses) :
    (w.ledger C outOfRange publicKey requests).map Signed.line =
        (OneTime.taken defaultUses u (requests.filterMap (Request.dataFor publicKey))).map
          (Prod.map (leafOfUse TreeKey.defaultKeysPerLevel TreeKey.defaultLevels) id) ∧
      ∀ s ∈ w.ledger C outOfRange publicKey requests, s.MadeBy C seed := by
  induction requests generalizing u row w with
  | nil => exact ⟨rfl, by simp [ledger]⟩
  | cons request requests ih =>
    rw [ledger]
    cases request with
    | createNewKey =>
      obtain ⟨hkey, hsame⟩ := h.createNewKey C outOfRange
      exact ih hkey (by rw [hsame, hlocked]) hu
    | signData zPublicKey zData =>
      by_cases heq : zPublicKey = publicKey
      · subst heq
        obtain ⟨⟨s, hentry, hline, hmade⟩, hlocked', row', hkey⟩ := h.signData hC outOfRange hlocked hu zData
        have hdefault := defaultUses_eq
        have hnext : OneTime.next defaultUses u + 1 ≤ defaultUses := by
          rw [OneTime.next]
          split_ifs <;> omega
        have hdata : (Request.signData zPublicKey zData).dataFor zPublicKey = some zData := if_pos rfl
        obtain ⟨hlines, hentries⟩ := ih hkey hlocked' hnext
        rw [hentry, List.singleton_append, List.map_cons, hline, hlines, List.filterMap_cons_some hdata,
          List.forall_mem_cons]
        exact ⟨rfl, hmade, hentries⟩
      · obtain ⟨hkey, hsame⟩ := h.signData_other C outOfRange heq zData
        have hdata : (Request.signData zPublicKey zData).dataFor publicKey = none := if_neg heq
        have hentry : w.entry C outOfRange publicKey (.signData zPublicKey zData) = [] := by
          rw [entry]
          split
          · rw [if_neg heq]
          · rfl
        rw [hentry, List.nil_append, List.filterMap_cons_none hdata]
        exact ih hkey (by rw [hsame, hlocked]) hu

/-- A locked wallet signs nothing. -/
theorem ledger_of_locked (outOfRange : ℤ) (requests : List Request) (hlocked : w.locked = true) :
    w.ledger C outOfRange publicKey requests = [] := by
  induction requests generalizing w with
  | nil => rfl
  | cons request requests ih =>
    rw [ledger]
    cases request with
    | createNewKey =>
      have hsame : (w.after C outOfRange .createNewKey).locked = true := by
        rw [after]
        cases hcreate : w.createNewKey C outOfRange with
        | error e => exact hlocked
        | ok created =>
          obtain ⟨row, w'⟩ := created
          obtain ⟨-, -, -, -, -, rfl⟩ := createNewKey_eq_ok hcreate
          exact hlocked
      rw [ih hsame]
      rfl
    | signData zPublicKey zData =>
      have hsign : w.signData C outOfRange zPublicKey zData =
          throwException "KeysDB LOCKED. No Private Keys.." := by rw [signData, if_pos hlocked]
      rw [entry, after, hsign]
      exact ih hlocked

/-- A new key, when there is no other one of its public key. -/
theorem hasKey_of_createNewKey (hC : C.Is256) {outOfRange : ℤ} {w' : Wallet}
    (h : w.createNewKey C outOfRange = .ok (row, w')) (hnew : w.rowOf row.publickey = none) :
    HasKey row.publickey row.privatekey 0 row w' := by
  obtain ⟨tk, modifier, privseed, hcreate, hrow, rfl⟩ := createNewKey_eq_ok h
  obtain ⟨tk', hcreate', huses, hkept⟩ := @TreeKey.exists_create C TreeKey.defaultKeysPerLevel
    TreeKey.defaultLevels hC outOfRange privseed (by decide) (by decide) (by decide)
  rw [TreeKey.createDefault, hcreate', Except.ok.injEq] at hcreate
  subst hcreate
  refine ⟨?_, rfl, by rw [hrow]; exact hkept.keysPerLevel_eq, by rw [hrow]; exact hkept.levels_eq,
    by rw [hrow]; exact huses⟩
  rw [rowOf] at hnew ⊢
  rw [List.find?_append, hnew, Option.none_or, List.find?_cons_of_pos (by simp)]

/-- `createNewKey` returns when there is a seed. -/
theorem exists_createNewKey (hC : C.Is256) (outOfRange : ℤ) {seed : MiniData} (hseed : w.baseSeed = some seed) :
    ∃ row w', w.createNewKey C outOfRange = .ok (row, w') := by
  obtain ⟨tk, hcreate, -, -⟩ := @TreeKey.exists_create C TreeKey.defaultKeysPerLevel TreeKey.defaultLevels
    hC outOfRange (C.hashObjects (.ok seed.writeDataStream)
      (.ok (miniDataFromUInt64 w.allKeys.length).writeDataStream)) (by decide) (by decide) (by decide)
  simp only [createNewKey, hseed, TreeKey.createDefault, hcreate, Result.ok_bind]
  exact ⟨_, _, rfl⟩

/-- There are as many names as uses. -/
theorem ledger_iff (ds : List MiniData) :
    OneTime.Ledger (IsLeaf TreeKey.defaultKeysPerLevel TreeKey.defaultLevels)
        ((OneTime.taken defaultUses 0 ds).map
          (Prod.map (leafOfUse TreeKey.defaultKeysPerLevel TreeKey.defaultLevels) id)) ↔
      ds.length ≤ defaultUses :=
  OneTime.ledger_taken_iff (leafOfUse_inj (by decide)) (isLeaf_iff (by decide)) ds

/-- **When no one-time key signs twice.** The key is a new one, of a tree or of a wallet, and the run any
sequence of calls, also for other keys, with the counter loaded again anywhere between them. All signatures of
the run are made by the one-time keys that its ledger names. In the ledger no one-time key has two different
data, and no entry comes after all one-time keys are used, exactly if the run wants no more signatures than
the key has one-time keys, or the wallet is locked and signs nothing. -/
theorem one_time_iff (hC : C.Is256) (outOfRange : ℤ) :
    (∀ seed, ∃ k, TreeKey.createDefault C outOfRange seed = .ok k ∧ ∀ events,
      (∀ s ∈ k.ledger C outOfRange events, s.MadeBy C seed) ∧
        (OneTime.Ledger (IsLeaf TreeKey.defaultKeysPerLevel TreeKey.defaultLevels)
            ((k.ledger C outOfRange events).map Signed.line) ↔
          (events.filterMap TreeKey.Event.data).length ≤ defaultUses)) ∧
    ∀ (w : Wallet) row w', w.createNewKey C outOfRange = .ok (row, w') → w.rowOf row.publickey = none →
      ∀ requests, (∀ s ∈ w'.ledger C outOfRange row.publickey requests, s.MadeBy C row.privatekey) ∧
        (OneTime.Ledger (IsLeaf TreeKey.defaultKeysPerLevel TreeKey.defaultLevels)
            ((w'.ledger C outOfRange row.publickey requests).map Signed.line) ↔
          (w'.locked = true ∨
            (requests.filterMap (Request.dataFor row.publickey)).length ≤ defaultUses)) := by
  constructor
  · intro seed
    obtain ⟨k, hcreate, huses, hkept⟩ := @TreeKey.exists_create C TreeKey.defaultKeysPerLevel
      TreeKey.defaultLevels hC outOfRange seed (by decide) (by decide) (by decide)
    refine ⟨k, hcreate, fun events => ?_⟩
    obtain ⟨hlines, hentries⟩ := hkept.ledger_spec hC (by decide) (by decide) (by decide) (by decide) (by decide)
      events (by omega)
    rw [hlines, huses]
    exact ⟨hentries, ledger_iff _⟩
  · intro w row w' hcreate hnew requests
    cases hlocked : w'.locked with
    | true =>
      rw [ledger_of_locked outOfRange requests hlocked]
      refine ⟨by simp, fun _ => .inl rfl, fun _ => ⟨fun _ _ _ h => absurd h List.not_mem_nil, ?_⟩⟩
      intro before entry after h
      simp at h
    | false =>
      have hkey := hasKey_of_createNewKey hC hcreate hnew
      obtain ⟨hlines, hentries⟩ := hkey.ledger_spec hC outOfRange requests hlocked (Nat.zero_le _)
      rw [hlines, ledger_iff]
      exact ⟨hentries, by simp⟩

theorem one_time_iff_firstBytes :
    (∀ seed, ∃ k, TreeKey.createDefault TreeKey.firstBytes 0 seed = .ok k ∧ ∀ events,
      (∀ s ∈ k.ledger TreeKey.firstBytes 0 events, s.MadeBy TreeKey.firstBytes seed) ∧
        (OneTime.Ledger (IsLeaf TreeKey.defaultKeysPerLevel TreeKey.defaultLevels)
            ((k.ledger TreeKey.firstBytes 0 events).map Signed.line) ↔
          (events.filterMap TreeKey.Event.data).length ≤ defaultUses)) ∧
    ∀ (w : Wallet) row w', w.createNewKey TreeKey.firstBytes 0 = .ok (row, w') →
      w.rowOf row.publickey = none →
      ∀ requests, (∀ s ∈ w'.ledger TreeKey.firstBytes 0 row.publickey requests,
          s.MadeBy TreeKey.firstBytes row.privatekey) ∧
        (OneTime.Ledger (IsLeaf TreeKey.defaultKeysPerLevel TreeKey.defaultLevels)
            ((w'.ledger TreeKey.firstBytes 0 row.publickey requests).map Signed.line) ↔
          (w'.locked = true ∨
            (requests.filterMap (Request.dataFor row.publickey)).length ≤ defaultUses)) :=
  one_time_iff TreeKey.is256_firstBytes 0

/-- **A key that signs again.** The first key of a new wallet signs one data first, and then another one
as many times as there are one-time keys: the last signature is made with the one-time key of the first. -/
theorem not_one_time :
    ∃ row w', createNewKey TreeKey.firstBytes 0 ⟨some ⟨[7]⟩, [], []⟩ = .ok (row, w') ∧
      ∃ ledger, w'.ledger TreeKey.firstBytes 0 row.publickey
          (.signData row.publickey ⟨[1]⟩ :: List.replicate 262144 (.signData row.publickey ⟨[2]⟩)) = ledger ∧
        ∃ s ∈ ledger, ∃ s' ∈ ledger, s.leaf = s'.leaf ∧ s.zData = ⟨[1]⟩ ∧ s'.zData = ⟨[2]⟩ ∧
          s.MadeBy TreeKey.firstBytes row.privatekey ∧ s'.MadeBy TreeKey.firstBytes row.privatekey := by
  have hC := TreeKey.is256_firstBytes
  obtain ⟨row, w', hnew⟩ := @exists_createNewKey TreeKey.firstBytes ⟨some ⟨[7]⟩, [], []⟩ hC 0 ⟨[7]⟩ rfl
  have hkey := hasKey_of_createNewKey hC hnew rfl
  have hlocked : w'.locked = false := by
    obtain ⟨-, -, -, -, -, rfl⟩ := createNewKey_eq_ok hnew
    rfl
  refine ⟨row, w', hnew, _, rfl, ?_⟩
  obtain ⟨hlines, hmade⟩ := hkey.ledger_spec hC 0 (.signData row.publickey ⟨[1]⟩ ::
    List.replicate 262144 (.signData row.publickey ⟨[2]⟩)) hlocked (Nat.zero_le _)
  -- the first signature, the last one, and those between
  have hdata : (Request.signData row.publickey ⟨[1]⟩ ::
      List.replicate 262144 (Request.signData row.publickey ⟨[2]⟩)).filterMap
        (Request.dataFor row.publickey) = (⟨[1]⟩ :: List.replicate 262143 ⟨[2]⟩) ++ [⟨[2]⟩] := by
    have hfor : ∀ zData, (Request.signData row.publickey zData).dataFor row.publickey = some zData :=
      fun zData => if_pos rfl
    rw [List.filterMap_cons_some (hfor _), List.filterMap_replicate_of_some (hfor _), List.cons_append,
      ← List.replicate_succ']
  rw [hdata] at hlines
  have hfirst : ((0 : ℕ), (⟨[1]⟩ : MiniData)) ∈
      OneTime.taken defaultUses 0 ((⟨[1]⟩ :: List.replicate 262143 ⟨[2]⟩) ++ [⟨[2]⟩]) := by
    rw [List.cons_append, OneTime.taken_cons]
    exact List.mem_cons_self
  have hlast : ((0 : ℕ), (⟨[2]⟩ : MiniData)) ∈
      OneTime.taken defaultUses 0 ((⟨[1]⟩ :: List.replicate 262143 ⟨[2]⟩) ++ [⟨[2]⟩]) := by
    apply OneTime.mem_taken_concat
    rw [List.length_cons, List.length_replicate, defaultUses_eq]
  -- the entries of the two uses
  obtain ⟨s, hs, hline⟩ := List.mem_map.mp (hlines ▸ List.mem_map_of_mem hfirst)
  obtain ⟨s', hs', hline'⟩ := List.mem_map.mp (hlines ▸ List.mem_map_of_mem hlast)
  simp only [Signed.line, Prod.map_apply, id_eq, Prod.mk.injEq] at hline hline'
  exact ⟨s, hs, s', hs', hline.1.trans hline'.1.symm, hline.2, hline'.2, hmade s hs, hmade s' hs'⟩

end

end Wallet

end Minima
