import Minima.Keys.TreeKey

/-! # Every signature of a key tree verifies

The public keys of a node are leaves without value, so their MMR exists and proves each of them. A
node that was signed with keeps children and signatures, but only those that the constructor and the
first signature would make again. So the signatures along every path verify, one under the other.

* **`NodeKeys.exists_proves`** — the constructor returns, and its MMR proves every key.
* **`TreeKeyNode.Grown`** — a node as signing leaves it.
* **`TreeKey.sign_verifies`** — what a key tree signs verifies, also when it was written and read. -/

namespace Minima

/-- **The hash is 32 bytes long**, as SHA3-256 is. -/
def Crypto.Is256 (C : Crypto) : Prop := ∀ bs, (C.hashData bs).length = 32

/-! ## The MMR over the public keys -/

namespace NodeKeys

variable {C : Crypto}

/-- Node data of an MMR over public keys. -/
def KeyData (d : MMRData) : Prop := d.Wire ∧ d.value = .zero

theorem length_hashAllObjects (hC : C.Is256) (bs : List (List Byte)) :
    (C.hashAllObjects (bs.map .ok)).getLength = 32 := by
  rw [Crypto.hashAllObjects_ok]
  exact hC _

/-- Public keys are leaves without value, and their hashes fit in a stream. -/
theorem inherited_keyData (hC : C.Is256) : MMR.Inherited C KeyData := by
  constructor
  · intro l r hl hr
    have hadd : l.value.add r.value = .ok .zero := by
      rw [hl.2, hr.2]
      rfl
    obtain ⟨p, hp⟩ : ∃ p, MMRData.createMMRDataParentNode C l r = .ok p := by
      unfold MMRData.createMMRDataParentNode
      rw [hadd, Result.ok_bind, MMRData.make_of_canonical _ MiniNumber.canonical_zero]
      exact ⟨_, rfl⟩
    obtain ⟨hvalue, hdata, hflag⟩ := MMRData.createMMRDataParentNode_eq_ok.mp hp
    rw [hadd, Except.ok.injEq] at hvalue
    refine ⟨p, hp, ⟨?_, hflag⟩, hvalue.symm⟩
    rw [hdata]
    have hlen := length_hashAllObjects hC [MiniNumber.one.writeDataStream, l.data.writeDataStream,
      r.data.writeDataStream, p.value.writeDataStream]
    simp only [List.map_cons, List.map_nil] at hlen
    rw [hlen]
    decide
  · exact fun d hd => hd.2

/-- The leaf of a public key. -/
def leaf (C : Crypto) (publicKey : MiniData) : MMRData :=
  ⟨C.hashAllObjects [.ok MiniNumber.zero.writeDataStream, .ok publicKey.writeDataStream,
    .ok MiniNumber.zero.writeDataStream], .zero, false, MiniNumber.canonical_zero⟩

theorem createMMRDataLeafNode_eq (publicKey : MiniData) :
    MMRData.createMMRDataLeafNode C (.ok publicKey.writeDataStream) .zero = .ok (leaf C publicKey) := by
  unfold MMRData.createMMRDataLeafNode
  rw [MiniNumber.copy_of_canonical MiniNumber.canonical_zero, Result.ok_bind,
    MMRData.make_of_canonical _ MiniNumber.canonical_zero]
  rfl

theorem keyData_leaf (hC : C.Is256) (publicKey : MiniData) : KeyData (leaf C publicKey) := by
  refine ⟨⟨?_, rfl⟩, rfl⟩
  have hlen := length_hashAllObjects hC [MiniNumber.zero.writeDataStream, publicKey.writeDataStream,
    MiniNumber.zero.writeDataStream]
  simp only [List.map_cons, List.map_nil] at hlen
  show (C.hashAllObjects _).getLength ≤ _
  rw [hlen]
  decide

/-- The one-time keys of the positions from `i` on. -/
def keysFrom (C : Crypto) (seed : MiniData) (todo i : ℕ) : List Winternitz :=
  (List.range' i todo).map fun j => Winternitz.ofSeed C (seedAt C seed j)

/-- The loop of the constructor fills an MMR with the leaves of the keys. -/
theorem addKeys_eq (seed : MiniData) (todo : ℕ) : ∀ (i : ℕ) (tree : MMR),
    addKeys C seed todo i tree =
      (MMR.addAll C .none tree ((keysFrom C seed todo i).map fun w => leaf C w.publicKey)).map
        fun tree' => (tree', keysFrom C seed todo i) := by
  induction todo with
  | zero => exact fun i tree => rfl
  | succ todo ih =>
    intro i tree
    have hkeys : keysFrom C seed (todo + 1) i =
        Winternitz.ofSeed C (seedAt C seed i) :: keysFrom C seed todo (i + 1) := by
      rw [keysFrom, List.range'_succ, List.map_cons]
      rfl
    rw [addKeys, hkeys, List.map_cons, MMR.addAll, createMMRDataLeafNode_eq, Result.ok_bind]
    cases MMR.addEntry C .none tree (leaf C (Winternitz.ofSeed C (seedAt C seed i)).publicKey) with
    | error e => rfl
    | ok added =>
      simp only [Result.ok_bind, ih]
      cases MMR.addAll C .none added.1 ((keysFrom C seed todo (i + 1)).map fun w => leaf C w.publicKey) with
      | error e => rfl
      | ok tree' => rfl

/-- **The keys of a node are proved by its MMR**: each position has its key, and a proof that leads from
its public key to that of the node. -/
structure Proves (C : Crypto) (n : ℕ) (seed : MiniData) (made : NodeKeys) : Prop where
  size : made.size = n
  childSeed : made.childSeed = C.hashObject (.ok seed.writeDataStream)
  keys : ∀ i < n, made.getWOTSKey i = .ok (Winternitz.ofSeed C (seedAt C seed i)) ∧
    ∃ proof, made.getProof C i = .ok proof ∧ proof.Wire ∧
      ∀ signature : MiniData, SignatureProof.getRootPublicKey C
        ⟨Winternitz.getPublicKey C (seedAt C seed i), signature, proof⟩ = .ok made.publicKey

/-- The bits of an `int` are 31. -/
theorem length_bitIndices_int {n : ℕ} (h : n < 2 ^ 31) : n.bitIndices.length ≤ 31 := by
  have hsub : ∀ i ∈ n.bitIndices, i ∈ List.range 31 := by
    intro i hi
    rw [List.mem_range]
    by_contra hle
    have htwo := Nat.two_pow_le_of_mem_bitIndices hi
    have hmono : 2 ^ 31 ≤ 2 ^ i := Nat.pow_le_pow_right (by norm_num) (not_lt.mp hle)
    omega
  have hlen := (List.subperm_of_subset Nat.bitIndices_sorted.nodup hsub).length_le
  rwa [List.length_range] at hlen

/-- **The constructor returns**, and its keys are proved. -/
theorem exists_proves (hC : C.Is256) (seed : MiniData) {n : ℕ} (hn : 1 ≤ n) (hn' : n < 2 ^ 31) :
    ∃ made, create C seed n = .ok made ∧ Proves C n seed made := by
  set keys := keysFrom C seed n 0 with hkeys
  have hlen : keys.length = n := by rw [hkeys, keysFrom, List.length_map, List.length_range']
  set ds := keys.map fun w => leaf C w.publicKey with hds
  have hdslen : ds.length = n := by rw [hds, List.length_map, hlen]
  have hdata : ∀ d ∈ ds, KeyData d.clone := by
    intro d hd
    obtain ⟨w, -, rfl⟩ := List.mem_map.mp hd
    exact keyData_leaf hC w.publicKey
  have hne : ds ≠ [] := by
    intro hnil
    rw [hnil, List.length_nil] at hdslen
    omega
  obtain ⟨tree, root, hadd, hroot, -, hproofs⟩ := (inherited_keyData hC).exists_root_and_proofs hdata
    hne (by rw [hdslen]; omega)
  refine ⟨⟨n, tree, keys, C.hashObject (.ok seed.writeDataStream), root.data⟩, ?_, rfl, rfl, ?_⟩
  · unfold create
    rw [if_neg (by omega), addKeys_eq, ← hkeys, ← hds, hadd]
    simp only [Except.map, Result.ok_bind, hroot]
    rfl
  · intro i hi
    have hiK : i < keys.length := by omega
    have hget : keys[i]? = some (Winternitz.ofSeed C (seedAt C seed i)) := by
      simp only [hkeys, keysFrom]
      rw [List.getElem?_map, List.getElem?_range' (by omega), Option.map_some]
      simp
    obtain ⟨p, hp, hcalc, hchunks, hchain, htime⟩ := hproofs i (by omega)
    refine ⟨?_, p, ?_, ⟨?_, ?_, fun c hc => (hchunks c hc).1⟩, fun signature => ?_⟩
    · rw [getWOTSKey, if_neg (by simpa using hi)]
      simp only [hget]
    · rw [getProof, if_neg (by simpa using hi)]
      exact hp
    · -- the MMR is a new one
      obtain ⟨g, hst⟩ := MMR.Filled.state (.built hadd)
      rw [htime]
      exact hst.chain.1.time.canonical
    · have hbits := length_bitIndices_int (n := ds.length) (by omega)
      omega
    · have hleaf : ds[i] = leaf C (Winternitz.getPublicKey C (seedAt C seed i)) := by
        have hmap : ds[i]? = some (leaf C (Winternitz.ofSeed C (seedAt C seed i)).publicKey) := by
          rw [hds, List.getElem?_map, hget, Option.map_some]
        rw [List.getElem?_eq_getElem (by omega)] at hmap
        exact Option.some.inj hmap
      rw [hleaf] at hcalc
      rw [SignatureProof.getRootPublicKey, createMMRDataLeafNode_eq, Result.ok_bind, hcalc]
      rfl

end NodeKeys

/-! ## Nodes as signing leaves them -/

/-- The key at a position signed this public key. -/
def SignedBy (C : Crypto) (made : NodeKeys) (i : ℕ) (publicKey : MiniData) (sig : SignatureProof) : Prop :=
  ∃ wots proof, made.getWOTSKey i = .ok wots ∧ made.getProof C i = .ok proof ∧
    sig = ⟨wots.publicKey, Winternitz.sign C wots.privateSeed publicKey, proof⟩

/-- **A node as signing leaves it.** Each child has the keys of a new one, and its public key is not
signed or signed by the key above it. -/
inductive TreeKeyNode.Grown (C : Crypto) (n : ℕ) : MiniData → TreeKeyNode → Prop
  | node {seed : MiniData} {made : NodeKeys} {children : List (Option TreeKeyNode)}
      {parentChildSig : Option SignatureProof} (proves : NodeKeys.Proves C n seed made)
      (signed : ∀ (i : ℕ) (child : TreeKeyNode), children[i]? = some (some child) →
        ∀ sig ∈ child.parentChildSig, SignedBy C made i child.getPublicKey sig)
      (grown : ∀ (i : ℕ) (child : TreeKeyNode), children[i]? = some (some child) →
        Grown C n (NodeKeys.seedAt C made.childSeed i) child) :
      Grown C n seed (.node made children parentChildSig)

/-- The seed of the one-time key at the end of a path, below the seed of a node. -/
def leafSeed (C : Crypto) : MiniData → List ℕ → MiniData
  | seed, [] => seed
  | seed, [keynum] => NodeKeys.seedAt C seed keynum
  | seed, keynum :: next :: nodes =>
    leafSeed C (NodeKeys.seedAt C (C.hashObject (.ok seed.writeDataStream)) keynum) (next :: nodes)

/-- **Signatures along a path**, below a root public key: each key belongs to its root and signs the next
root, the last one the data. -/
inductive Certifies (C : Crypto) (zData : MiniData) : MiniData → List SignatureProof → Prop
  | last {root : MiniData} {s : SignatureProof} (belongs : s.getRootPublicKey C = .ok root)
      (signs : Winternitz.verify C s.publicKey zData s.signature = true) : Certifies C zData root [s]
  | next {root below : MiniData} {s : SignatureProof} {rest : List SignatureProof}
      (belongs : s.getRootPublicKey C = .ok root)
      (signs : Winternitz.verify C s.publicKey below s.signature = true)
      (certifies : Certifies C zData below rest) : Certifies C zData root (s :: rest)

theorem Certifies.getRootPublicKey {C : Crypto} {zData root : MiniData} {sigs : List SignatureProof}
    (h : Certifies C zData root sigs) : ∃ s rest, sigs = s :: rest ∧ s.getRootPublicKey C = .ok root := by
  cases h with
  | last belongs _ => exact ⟨_, _, rfl, belongs⟩
  | next belongs _ _ => exact ⟨_, _, rfl, belongs⟩

theorem Certifies.verifyLoop {C : Crypto} {zData root : MiniData} {sigs : List SignatureProof}
    (h : Certifies C zData root sigs) : TreeKey.verifyLoop C zData sigs = .ok true := by
  induction h with
  | last belongs signs => rw [TreeKey.verifyLoop, signs]
  | next belongs signs certifies ih =>
    obtain ⟨s, sigs, rfl, hroot⟩ := certifies.getRootPublicKey
    rw [TreeKey.verifyLoop, hroot, Result.ok_bind, if_pos signs]
    exact ih

namespace TreeKeyNode

variable {C : Crypto} {n : ℕ}

/-- A new node is one that nothing was signed with. -/
theorem exists_create (hC : C.Is256) (seed : MiniData) (hn : 1 ≤ n) (hn' : n < 2 ^ 31) :
    ∃ node, create C seed n = .ok node ∧ Grown C n seed node ∧ node.parentChildSig = none := by
  obtain ⟨made, hmade, hproves⟩ := NodeKeys.exists_proves hC seed hn hn'
  refine ⟨node made (List.replicate n none) none, by rw [create, hmade]; rfl, ?_, rfl⟩
  have hnone : ∀ (i : ℕ) (child : TreeKeyNode),
      (List.replicate n (none : Option TreeKeyNode))[i]? ≠ some (some child) := by
    intro i child h
    have hmem := List.eq_of_mem_replicate (List.mem_of_getElem? h)
    cases hmem
  exact .node hproves (fun i child h => absurd h (hnone i child))
    fun i child h => absurd h (hnone i child)

variable {seed : MiniData} {node child : TreeKeyNode}

theorem Grown.proves (h : Grown C n seed node) : NodeKeys.Proves C n seed node.made := by
  cases h with
  | node proves => exact proves

/-- A child that is kept. -/
theorem Grown.kept_child (h : Grown C n seed node) {i : ℕ} (hi : node.children[i]? = some (some child)) :
    Grown C n (NodeKeys.seedAt C node.made.childSeed i) child ∧
      ∀ sig ∈ child.parentChildSig, SignedBy C node.made i child.getPublicKey sig := by
  cases h with
  | node proves signed grown => exact ⟨grown i child hi, signed i child hi⟩

/-- `setParentChildSig` changes nothing below the node. -/
theorem Grown.setParentChildSig (h : Grown C n seed node) (sig : SignatureProof) :
    Grown C n seed (node.setParentChildSig sig) := by
  cases h with
  | node proves signed grown => exact .node proves signed grown

/-- A child, new or kept. -/
theorem Grown.getChild (hC : C.Is256) (hn : 1 ≤ n) (hn' : n < 2 ^ 31) (h : Grown C n seed node) {i : ℕ}
    (hi : i < n) :
    ∃ child, node.getChild C i = .ok child ∧ Grown C n (NodeKeys.seedAt C node.made.childSeed i) child ∧
      ∀ sig ∈ child.parentChildSig, SignedBy C node.made i child.getPublicKey sig := by
  have hsize : ¬ node.made.size ≤ i := by
    rw [h.proves.size]
    omega
  rw [TreeKeyNode.getChild, if_neg hsize]
  match hchild : node.children[i]? with
  | some (some child) => exact ⟨child, rfl, h.kept_child hchild⟩
  | some none | none =>
    obtain ⟨child, hcreate, hgrown, hnone⟩ :=
      exists_create hC (NodeKeys.seedAt C node.made.childSeed i) hn hn'
    refine ⟨child, by rwa [h.proves.size], hgrown, ?_⟩
    rw [hnone]
    intro sig hsig
    cases hsig

/-- A child that is there after one was kept: that one, or one from before. -/
theorem eq_or_of_getElem?_set {children : List (Option TreeKeyNode)} {i j : ℕ} {child other : TreeKeyNode}
    (h : (children.set i (some child))[j]? = some (some other)) :
    (i = j ∧ child = other) ∨ children[j]? = some (some other) := by
  rw [List.getElem?_set] at h
  split_ifs at h with hij hlt
  · rw [Option.some.injEq, Option.some.injEq] at h
    exact .inl ⟨hij, h⟩
  · exact .inr h

/-- A child that is not signed gets its signature, once. -/
theorem Grown.sign_once {made : NodeKeys} {i : ℕ} (h : Grown C n seed child)
    (hsigned : ∀ sig ∈ child.parentChildSig, SignedBy C made i child.getPublicKey sig)
    {new : SignatureProof} (hnew : SignedBy C made i child.getPublicKey new) :
    ∃ sig, (if child.childSigExists then child else child.setParentChildSig new).parentChildSig = some sig ∧
      SignedBy C made i child.getPublicKey sig ∧
      Grown C n seed (if child.childSigExists then child else child.setParentChildSig new) ∧
      (if child.childSigExists then child else child.setParentChildSig new).made = child.made := by
  unfold childSigExists
  cases hsig : child.parentChildSig with
  | some sig => exact ⟨sig, hsig, hsigned sig (by rw [hsig]; rfl), h, rfl⟩
  | none => exact ⟨new, rfl, hnew, h.setParentChildSig new, rfl⟩

/-- Keeping a child that its key signed. -/
theorem Grown.setChild (h : Grown C n seed node) {i : ℕ}
    (hchild : Grown C n (NodeKeys.seedAt C node.made.childSeed i) child)
    (hsigned : ∀ sig ∈ child.parentChildSig, SignedBy C node.made i child.getPublicKey sig) :
    Grown C n seed (node.setChild i child) := by
  cases h with
  | @node seed made children sig proves signed grown =>
    refine .node proves ?_ ?_
    · intro j other hj
      rcases eq_or_of_getElem?_set hj with ⟨rfl, rfl⟩ | hold
      · exact hsigned
      · exact signed j other hold
    · intro j other hj
      rcases eq_or_of_getElem?_set hj with ⟨rfl, rfl⟩ | hold
      · exact hchild
      · exact grown j other hold

end TreeKeyNode

/-! ## Signing -/

namespace TreeKey

variable {C : Crypto} {n : ℕ}

/-- What a key of a node signed belongs to the root of the node, verifies, and fits in a stream. -/
theorem spec_of_signedBy {seed : MiniData} {made : NodeKeys} (hmade : NodeKeys.Proves C n seed made)
    {i : ℕ} (hi : i < n) {zData : MiniData} {sig : SignatureProof} (h : SignedBy C made i zData sig) :
    sig.getRootPublicKey C = .ok made.publicKey ∧
      Winternitz.verify C sig.publicKey zData sig.signature = true ∧ sig.Wire := by
  obtain ⟨wots, proof, hwots, hproof, rfl⟩ := h
  obtain ⟨hwots', proof', hproof', hwire, hroot⟩ := hmade.keys i hi
  rw [hwots', Except.ok.injEq] at hwots
  rw [hproof', Except.ok.injEq] at hproof
  subst hwots hproof
  refine ⟨hroot _, Winternitz.verify_sign C _ zData, ?_, ?_, hwire⟩
  · show (Winternitz.getPublicKey C _).getLength ≤ _
    rw [Winternitz.length_getPublicKey]
    decide
  · show (Winternitz.sign C _ zData).getLength ≤ _
    rw [Winternitz.length_sign, Winternitz.lTotal_eq]
    decide

/-- **What `sign` returns**, for the path to a one-time key below a node: the signatures lead from the
public key of the node to the data, the last one is made by the one-time key at the end of the path, and
all fit in a stream. -/
structure Signs (C : Crypto) (seed publicKey : MiniData) (nodes : List ℕ) (zData : MiniData)
    (sigs : List SignatureProof) : Prop where
  length : sigs.length = nodes.length
  wire : ∀ s ∈ sigs, s.Wire
  certifies : Certifies C zData publicKey sigs
  last : ∃ front proof, sigs = front ++ [⟨Winternitz.getPublicKey C (leafSeed C seed nodes),
    Winternitz.sign C (leafSeed C seed nodes) zData, proof⟩]

/-- **The loop of `sign`.** The node keeps its keys, and stays as signing leaves it. -/
theorem signPath_spec (hC : C.Is256) (hn : 1 ≤ n) (hn' : n < 2 ^ 31) {levels : ℕ} (zData : MiniData)
    {nodes : List ℕ} (hne : nodes ≠ []) (hlt : ∀ k ∈ nodes, k < n) {depth : ℕ}
    (hdepth : depth + nodes.length = levels + 1) {seed : MiniData} {current : TreeKeyNode}
    (h : TreeKeyNode.Grown C n seed current) :
    ∃ sigs after, signPath C levels zData nodes depth current = .ok (sigs, after) ∧
      TreeKeyNode.Grown C n seed after ∧ after.made = current.made ∧
      after.parentChildSig = current.parentChildSig ∧
      Signs C seed current.getPublicKey nodes zData sigs := by
  induction nodes generalizing depth seed current with
  | nil => exact absurd rfl hne
  | cons keynum nodes ih =>
    have hkey : keynum < n := hlt keynum List.mem_cons_self
    obtain ⟨hwots, proof, hproof, -, -⟩ := h.proves.keys keynum hkey
    rw [signPath, hwots, Result.ok_bind, hproof, Result.ok_bind]
    cases nodes with
    | nil =>
      -- the last node
      have hlast : depth = levels := by
        simp only [List.length_cons, List.length_nil] at hdepth
        omega
      obtain ⟨hroot, hverify, hwire⟩ := spec_of_signedBy h.proves hkey ⟨_, _, hwots, hproof, rfl⟩
      rw [if_pos hlast, signPath]
      exact ⟨_, current, rfl, h, rfl, rfl, rfl, by simpa using hwire, .last hroot hverify, [], proof, rfl⟩
    | cons next rest =>
      have hnot : depth ≠ levels := by
        simp only [List.length_cons] at hdepth
        omega
      obtain ⟨child, hchild, hgrown, hsigned⟩ := h.getChild hC hn hn' hkey
      obtain ⟨sig, hsig, hby, hgrown', hmade⟩ := hgrown.sign_once hsigned ⟨_, _, hwots, hproof, rfl⟩
      rw [if_neg hnot, hchild, Result.ok_bind]
      -- the child, signed
      set signed := (if child.childSigExists then child else child.setParentChildSig
        ⟨(Winternitz.ofSeed C (NodeKeys.seedAt C seed keynum)).publicKey,
          Winternitz.sign C (Winternitz.ofSeed C (NodeKeys.seedAt C seed keynum)).privateSeed
          child.getPublicKey, proof⟩) with hdef
      have hget : signed.getParentChildSig = .ok sig := by rw [TreeKeyNode.getParentChildSig, hsig]
      have hrest : depth + 1 + (next :: rest).length = levels + 1 := by
        rw [List.length_cons] at hdepth
        omega
      obtain ⟨sigs, after, hpath, hgrownA, hmadeA, hsigA, hspec⟩ :=
        ih (List.cons_ne_nil _ _) (fun k hk => hlt k (List.mem_cons_of_mem _ hk)) hrest hgrown'
      have hpub : after.getPublicKey = child.getPublicKey := by
        rw [TreeKeyNode.getPublicKey, hmadeA, hmade, TreeKeyNode.getPublicKey]
      obtain ⟨hroot, hverify, hwire⟩ := spec_of_signedBy h.proves hkey hby
      refine ⟨sig :: sigs, current.setChild keynum after, ?_, ?_, rfl, rfl, ?_, ?_, ?_, ?_⟩
      · show (do
          let parentchild ← signed.getParentChildSig
          let path ← signPath C levels zData (next :: rest) (depth + 1) signed
          return (parentchild :: path.1, current.setChild keynum path.2)) = _
        rw [hget, Result.ok_bind, hpath]
        rfl
      · refine h.setChild hgrownA ?_
        rw [hsigA, hsig, hpub]
        intro sig' hsig'
        rwa [← Option.some.inj hsig']
      · simp only [List.length_cons, hspec.length]
      · intro s hs
        rcases List.mem_cons.mp hs with rfl | hs
        · exact hwire
        · exact hspec.wire s hs
      · have hcert := hspec.certifies
        rw [TreeKeyNode.getPublicKey, hmade] at hcert
        exact .next hroot hverify hcert
      · obtain ⟨front, last, hlast⟩ := hspec.last
        rw [h.proves.childSeed] at hlast
        exact ⟨sig :: front, last, by rw [hlast, leafSeed, List.cons_append]⟩

/-- The path to the one-time key that `sign` has sign the data. -/
def path (k : TreeKey) : Result (List ℕ) := baseConversion k.nextUse k.keysPerLevel k.levels

/-- What signing and `setUses` keep of a key. -/
structure Kept (C : Crypto) (outOfRange : ℤ) (n levels : ℕ) (seed publicKey : MiniData) (k : TreeKey) :
    Prop where
  levels_eq : k.levels = levels
  keysPerLevel_eq : k.keysPerLevel = n
  maxUses_eq : k.maxUses = castToInt outOfRange (n ^ levels)
  privateSeed_eq : k.privateSeed = seed
  publicKey_eq : k.publicKey = publicKey
  root : k.root.getPublicKey = publicKey
  grown : TreeKeyNode.Grown C n seed k.root

section

variable {outOfRange : ℤ} {levels : ℕ} {seed publicKey : MiniData} {k : TreeKey}

/-- The constructor returns. -/
theorem exists_create (hC : C.Is256) (outOfRange : ℤ) (seed : MiniData) (hn : 1 ≤ n) (hn' : n < 2 ^ 31)
    (hL : levels ≤ maxKeyLevels) : ∃ k, create C outOfRange seed n levels = .ok k ∧ k.uses = 0 ∧
      Kept C outOfRange n levels seed k.publicKey k := by
  obtain ⟨root, hroot, hgrown, -⟩ := TreeKeyNode.exists_create hC seed hn hn'
  refine ⟨_, by rw [create, if_neg (not_lt.mpr hL), hroot]; rfl, rfl, rfl, rfl, rfl, rfl, rfl, rfl, hgrown⟩

theorem Kept.setUses (h : Kept C outOfRange n levels seed publicKey k) (u : ℕ) :
    Kept C outOfRange n levels seed publicKey (k.setUses u) :=
  ⟨h.levels_eq, h.keysPerLevel_eq, h.maxUses_eq, h.privateSeed_eq, h.publicKey_eq, h.root, h.grown⟩

/-- The use that is taken has a path: past the last one it is the first. -/
theorem Kept.nextUse_lt (h : Kept C outOfRange n levels seed publicKey k) (hn : 1 ≤ n)
    (hu : k.uses < 2 ^ 31 ∨ k.uses < n ^ levels) : k.nextUse < n ^ levels := by
  have hpos : 0 < n ^ levels := Nat.pow_pos hn
  rw [nextUse, h.maxUses_eq, castToInt]
  split_ifs <;> omega

/-- **One signature.** -/
theorem Kept.sign (h : Kept C outOfRange n levels seed publicKey k) (hC : C.Is256) (hn : 1 ≤ n)
    (hn' : n < 2 ^ 31) (hL : 1 ≤ levels) (hu : k.uses < 2 ^ 31 ∨ k.uses < n ^ levels) (zData : MiniData) :
    ∃ sig k' nodes, k.sign C zData = .ok (sig, k') ∧ Kept C outOfRange n levels seed publicKey k' ∧
      k'.uses = k.nextUse + 1 ∧ k.path = .ok nodes ∧ Signs C seed publicKey nodes zData sig.signatures := by
  obtain ⟨nodes, hnodes, hlen, hlt, -⟩ := baseConversion_spec hn (h.nextUse_lt hn hu)
  have hne : nodes ≠ [] := by
    rintro rfl
    simp only [List.length_nil] at hlen
    omega
  obtain ⟨sigs, root, hpath, hgrown, hmade, -, hspec⟩ :=
    @signPath_spec C n hC hn hn' levels zData nodes hne hlt 1 (by omega) _ _ h.grown
  rw [h.root] at hspec
  refine ⟨⟨sigs⟩, { k with root := root, uses := k.nextUse + 1 }, nodes, ?_, ?_, rfl, ?_, hspec⟩
  · rw [TreeKey.sign, h.keysPerLevel_eq, h.levels_eq, hnodes, Result.ok_bind, hpath]
    rfl
  · have hroot : root.getPublicKey = publicKey := by
      rw [← h.root, TreeKeyNode.getPublicKey, hmade, TreeKeyNode.getPublicKey]
    exact ⟨h.levels_eq, h.keysPerLevel_eq, h.maxUses_eq, h.privateSeed_eq, h.publicKey_eq, hroot, hgrown⟩
  · rw [path, h.keysPerLevel_eq, h.levels_eq, hnodes]

/-- The path of a use has as many keys as there are levels. -/
theorem Kept.length_path (h : Kept C outOfRange n levels seed publicKey k) (hn : 1 ≤ n)
    (hu : k.uses < 2 ^ 31 ∨ k.uses < n ^ levels) {nodes : List ℕ} (hnodes : k.path = .ok nodes) :
    nodes.length = levels := by
  obtain ⟨nodes', hnodes', hlen, -⟩ := baseConversion_spec hn (h.nextUse_lt hn hu)
  rw [path, h.keysPerLevel_eq, h.levels_eq, hnodes', Except.ok.injEq] at hnodes
  rw [← hnodes, hlen]

/-- Signatures along a path of at most `maxKeyLevels` keys are accepted. -/
theorem verify_of_certifies {zData : MiniData} {sig : Signature} (hlen : sig.signatures.length ≤ maxKeyLevels)
    (h : Certifies C zData publicKey sig.signatures) : verify C publicKey zData sig = .ok true := by
  obtain ⟨s, rest, hsigs, hroot⟩ := h.getRootPublicKey
  have hloop := h.verifyLoop
  rw [hsigs] at hloop
  rw [verify, if_neg (not_lt.mpr hlen), hsigs]
  simp only [hroot, Result.ok_bind, (MiniData.isEqual_iff publicKey publicKey).mpr rfl, if_true]
  exact hloop

end

/-- **Any sequence of signatures** with a key, and of loads of the use counter, which is an `int`. -/
inductive Reached (C : Crypto) (created : TreeKey) : TreeKey → Prop
  | start : Reached C created created
  | setUses {k : TreeKey} (h : Reached C created k) (u : ℕ) : Reached C created (k.setUses u)
  | sign {k k' : TreeKey} {zData : MiniData} {sig : Signature} (h : Reached C created k)
      (hint : k.uses < 2 ^ 31) (hsign : k.sign C zData = .ok (sig, k')) : Reached C created k'

theorem Reached.kept {created k : TreeKey} (h : Reached C created k) {outOfRange : ℤ} {levels : ℕ}
    {seed publicKey : MiniData} (hstart : Kept C outOfRange n levels seed publicKey created) (hC : C.Is256)
    (hn : 1 ≤ n) (hn' : n < 2 ^ 31) (hL : 1 ≤ levels) : Kept C outOfRange n levels seed publicKey k := by
  induction h with
  | start => exact hstart
  | setUses _ u ih => exact ih.setUses u
  | @sign k k' zData sig _ hint hsign ih =>
    obtain ⟨sig', k'', -, hsign', hkept, -⟩ := ih.sign hC hn hn' hL (.inl hint) zData
    rw [hsign', Except.ok.injEq, Prod.mk.injEq] at hsign
    rw [← hsign.2]
    exact hkept

/-- **Every signature verifies.** Whatever was signed before, at every use that has a path the key signs
every data, and `verify` accepts the signature under the public key. So it does for what is read from the
bytes that the signature is written to. -/
theorem sign_verifies (hC : C.Is256) (outOfRange : ℤ) (seed : MiniData) {n levels : ℕ} (hn : 1 ≤ n)
    (hn' : n < 2 ^ 31) (hL : 1 ≤ levels) (hL' : levels ≤ maxKeyLevels) :
    ∃ created, create C outOfRange seed n levels = .ok created ∧ ∀ k, Reached C created k →
      k.publicKey = created.publicKey ∧ ∀ u < n ^ levels, ∀ zData, ∃ sig k',
        (k.setUses u).sign C zData = .ok (sig, k') ∧ verify C k.publicKey zData sig = .ok true ∧
        ∃ bytes sig', sig.writeDataStream = .ok bytes ∧ Reads Signature.readDataStream bytes sig' ∧
          verify C k.publicKey zData sig' = .ok true := by
  obtain ⟨created, hcreate, -, hstart⟩ := exists_create hC outOfRange seed hn hn' hL'
  refine ⟨created, hcreate, fun k hk => ?_⟩
  have hkept := hk.kept hstart hC hn hn' hL
  refine ⟨hkept.publicKey_eq, fun u hu zData => ?_⟩
  obtain ⟨sig, k', nodes, hsign, -, -, hnodes, hspec⟩ :=
    (hkept.setUses u).sign hC hn hn' hL (.inr hu) zData
  have hlen : sig.signatures.length = levels :=
    hspec.length.trans ((hkept.setUses u).length_path hn (.inr hu) hnodes)
  have hcert := hspec.certifies
  rw [← hkept.publicKey_eq] at hcert
  have hverify := verify_of_certifies (by rw [hlen]; exact hL') hcert
  have hmax : maxKeyLevels < 2 ^ 31 := by decide
  obtain ⟨bytes, hwrite, hread⟩ := Signature.transmits (s := sig) ⟨by omega, hspec.wire⟩
  exact ⟨sig, k', hsign, hverify, bytes, sig, hwrite, hread, hverify⟩

/-- A hash of 32 bytes. -/
def firstBytes : Crypto := ⟨fun bs => (bs ++ List.replicate 32 0).take 32⟩

theorem is256_firstBytes : firstBytes.Is256 := by
  intro bs
  simp only [firstBytes, List.length_take, List.length_append, List.length_replicate]
  omega

theorem sign_verifies_two_levels :
    ∃ created, create firstBytes 0 ⟨[7]⟩ 2 2 = .ok created ∧ ∀ k, Reached firstBytes created k →
      k.publicKey = created.publicKey ∧ ∀ u < 2 ^ 2, ∀ zData, ∃ sig k',
        (k.setUses u).sign firstBytes zData = .ok (sig, k') ∧
        verify firstBytes k.publicKey zData sig = .ok true ∧
        ∃ bytes sig', sig.writeDataStream = .ok bytes ∧ Reads Signature.readDataStream bytes sig' ∧
          verify firstBytes k.publicKey zData sig' = .ok true :=
  sign_verifies is256_firstBytes 0 ⟨[7]⟩ (by decide) (by decide) (by decide) (by decide)

end TreeKey

end Minima
