import Mathlib.Algebra.BigOperators.Group.List.Basic
import Mathlib.Algebra.Order.Ring.Rat
import Mathlib.Data.List.Basic
import Mathlib.Data.List.Nodup
import Mathlib.Tactic.Linarith
import Mathlib.Tactic.Ring

/-! # A ledger that grows and whose entries are spent

A ledger is a list of items, each unspent or spent; the place of an entry is its number. A block is made of
transfers. Each one spends entries by their numbers and creates new ones; the entries that a block spends
are unspent and not spent twice in it.

* **`Run`** — blocks one after the other. **`Run.nodup`** — no entry is spent twice in a run.
* **`Run.entry`** — which entries are spent after a run.
* **`apply_total`** — what a block does to the value of the unspent entries.
* **`Distinct.block`** — where an id is derived from the id of an entry that is spent with it, a block
  keeps all ids different. -/

namespace SpendLedger

variable {α : Type*}

/-- An item, and whether it is spent. -/
structure Entry (α : Type*) where
  item : α
  spent : Bool
  deriving DecidableEq

/-- Entry `k` becomes spent. -/
def spend (l : List (Entry α)) (k : ℕ) : List (Entry α) := l.modify k fun e => ⟨e.item, true⟩

/-- A transfer: the numbers of the entries that it spends, and the items that it creates. -/
structure Transfer (α : Type*) where
  spends : List ℕ
  creates : List α

/-- What a block spends. -/
def spends (parts : List (Transfer α)) : List ℕ := parts.flatMap Transfer.spends

/-- What a block creates. -/
def creates (parts : List (Transfer α)) : List α := parts.flatMap Transfer.creates

/-- The ledger after a block: first everything is spent, then everything created. -/
def apply (l : List (Entry α)) (parts : List (Transfer α)) : List (Entry α) :=
  (spends parts).foldl spend l ++ (creates parts).map fun a => ⟨a, false⟩

/-- A block that spends unspent entries, none of them twice. -/
structure Valid (l : List (Entry α)) (parts : List (Transfer α)) : Prop where
  nodup : (spends parts).Nodup
  unspent : ∀ k ∈ spends parts, ∃ a, l[k]? = some ⟨a, false⟩

/-- Blocks one after the other, the last one at the end. -/
inductive Run (start : List (Entry α)) : List (List (Transfer α)) → List (Entry α) → Prop
  | start : Run start [] start
  | block {blocks : List (List (Transfer α))} {l : List (Entry α)} {parts : List (Transfer α)}
    (run : Run start blocks l) (valid : Valid l parts) : Run start (blocks ++ [parts]) (apply l parts)

/-! ## The entries after a block -/

theorem getElem?_spend (l : List (Entry α)) (k i : ℕ) :
    (spend l k)[i]? = l[i]?.map fun e => ⟨e.item, e.spent || decide (i = k)⟩ := by
  rw [spend, List.getElem?_modify]
  rcases l[i]? with _ | e
  · rfl
  · by_cases hik : i = k
    · simp [hik]
    · simp [hik, Ne.symm hik]

theorem getElem?_foldl_spend (ks : List ℕ) (l : List (Entry α)) (i : ℕ) :
    (ks.foldl spend l)[i]? = l[i]?.map fun e => ⟨e.item, e.spent || decide (i ∈ ks)⟩ := by
  induction ks generalizing l with
  | nil => simp
  | cons k ks ih =>
    rw [List.foldl_cons, ih, getElem?_spend, Option.map_map]
    congr 1
    funext e
    simp [Bool.or_assoc]

@[simp] theorem length_foldl_spend (ks : List ℕ) (l : List (Entry α)) :
    (ks.foldl spend l).length = l.length := by
  induction ks generalizing l with
  | nil => rfl
  | cons k ks ih => rw [List.foldl_cons, ih, spend, List.length_modify]

/-- An entry that was there: it is spent now when it was, or when the block spends it. -/
theorem getElem?_apply_of_lt {l : List (Entry α)} {i : ℕ} (hi : i < l.length) (parts : List (Transfer α)) :
    (apply l parts)[i]? = l[i]?.map fun e => ⟨e.item, e.spent || decide (i ∈ spends parts)⟩ := by
  rw [apply, List.getElem?_append_left (by simpa using hi), getElem?_foldl_spend]

/-- A new entry. -/
theorem getElem?_apply_add (l : List (Entry α)) (parts : List (Transfer α)) (i : ℕ) :
    (apply l parts)[l.length + i]? = (creates parts)[i]?.map fun a => ⟨a, false⟩ := by
  rw [apply, List.getElem?_append_right (by simp), List.getElem?_map]
  simp

/-- The items of the entries: those that were there, then those that the block creates. -/
theorem map_apply {β : Type*} (l : List (Entry α)) (parts : List (Transfer α)) (f : α → β) :
    ((apply l parts).map fun e => f e.item) = (l.map fun e => f e.item) ++ (creates parts).map f := by
  rw [apply, List.map_append, List.map_map]
  congr 1
  refine List.ext_getElem? fun i => ?_
  rw [List.getElem?_map, getElem?_foldl_spend, List.getElem?_map, Option.map_map]
  rfl

/-- **A spent entry stays as it is.** -/
theorem apply_of_spent {l : List (Entry α)} {i : ℕ} {a : α} (h : l[i]? = some ⟨a, true⟩)
    (parts : List (Transfer α)) : (apply l parts)[i]? = some ⟨a, true⟩ := by
  obtain ⟨hi, -⟩ := List.getElem?_eq_some_iff.mp h
  rw [getElem?_apply_of_lt hi, h]
  rfl

/-- What the block spends is spent afterwards. -/
theorem Valid.spent {l : List (Entry α)} {parts : List (Transfer α)} (h : Valid l parts) {k : ℕ}
    (hk : k ∈ spends parts) : ∃ a, (apply l parts)[k]? = some ⟨a, true⟩ := by
  obtain ⟨a, ha⟩ := h.unspent k hk
  obtain ⟨hi, -⟩ := List.getElem?_eq_some_iff.mp ha
  refine ⟨a, ?_⟩
  rw [getElem?_apply_of_lt hi, ha]
  simp [hk]

/-- A ledger only grows. -/
theorem Run.length_le {start l : List (Entry α)} {blocks : List (List (Transfer α))} (h : Run start blocks l) :
    start.length ≤ l.length := by
  induction h with
  | start => exact le_rfl
  | block _ _ ih =>
    refine ih.trans ?_
    rw [apply, List.length_append, length_foldl_spend]
    exact Nat.le_add_right _ _

/-- What was spent in a run is spent, **and nothing was spent twice**. -/
theorem Run.nodup {start l : List (Entry α)} {blocks : List (List (Transfer α))} (h : Run start blocks l) :
    (blocks.flatMap spends).Nodup ∧ ∀ k ∈ blocks.flatMap spends, ∃ a, l[k]? = some ⟨a, true⟩ := by
  induction h with
  | start => simp
  | @block blocks l parts _ valid ih =>
    obtain ⟨hnodup, hspent⟩ := ih
    rw [List.flatMap_append, List.flatMap_singleton]
    refine ⟨hnodup.append valid.nodup ?_, ?_⟩
    · intro k hk hk'
      obtain ⟨a, ha⟩ := hspent k hk
      obtain ⟨b, hb⟩ := valid.unspent k hk'
      rw [ha] at hb
      cases hb
    · intro k hk
      rcases List.mem_append.mp hk with hk | hk
      · obtain ⟨a, ha⟩ := hspent k hk
        exact ⟨a, apply_of_spent ha parts⟩
      · exact valid.spent hk

/-- **An entry after a run** is spent when it was at the start, or when some block has spent it. -/
theorem Run.entry {start l : List (Entry α)} {blocks : List (List (Transfer α))} (h : Run start blocks l)
    {k : ℕ} {e : Entry α} (he : l[k]? = some e) :
    e.spent = ((start[k]?.map Entry.spent).getD false || decide (k ∈ blocks.flatMap spends)) := by
  induction h generalizing e with
  | start => simp [he]
  | @block blocks l parts run valid ih =>
    rw [List.flatMap_append, List.flatMap_singleton]
    rcases lt_or_ge k l.length with hk | hk
    · rw [getElem?_apply_of_lt hk, List.getElem?_eq_getElem hk, Option.map_some, Option.some.injEq] at he
      rw [← he]
      simp only [ih (List.getElem?_eq_getElem hk), List.mem_append, Bool.decide_or, Bool.or_assoc]
    · -- a new entry has a number that was not there to spend
      obtain ⟨i, rfl⟩ := Nat.exists_eq_add_of_le hk
      rw [getElem?_apply_add, Option.map_eq_some_iff] at he
      obtain ⟨a, -, rfl⟩ := he
      have hstart : start[l.length + i]? = none := List.getElem?_eq_none (run.length_le.trans hk)
      have hnot : ∀ j ∈ blocks.flatMap spends ++ spends parts, j < l.length := by
        intro j hj
        rcases List.mem_append.mp hj with hj | hj
        · obtain ⟨b, hb⟩ := run.nodup.2 j hj
          exact (List.getElem?_eq_some_iff.mp hb).1
        · obtain ⟨b, hb⟩ := valid.unspent j hj
          exact (List.getElem?_eq_some_iff.mp hb).1
      have hmem : l.length + i ∉ blocks.flatMap spends ++ spends parts := fun hmem =>
        absurd (hnot _ hmem) (by omega)
      simp [hstart, hmem]

/-! ## Value -/

section Value

variable (v : α → ℚ)

/-- The value of the unspent entries. -/
def total (l : List (Entry α)) : ℚ := (l.map fun e => if e.spent then 0 else v e.item).sum

/-- The value of the entries with some numbers. -/
def valueAt (l : List (Entry α)) (ks : List ℕ) : ℚ :=
  (ks.map fun k => (l[k]?.map fun e => v e.item).getD 0).sum

theorem valueAt_append (l : List (Entry α)) (ks ks' : List ℕ) :
    valueAt v l (ks ++ ks') = valueAt v l ks + valueAt v l ks' := by simp [valueAt]

theorem total_spend {l : List (Entry α)} {k : ℕ} {a : α} (h : l[k]? = some ⟨a, false⟩) :
    total v (spend l k) = total v l - v a := by
  obtain ⟨hk, hget⟩ := List.getElem?_eq_some_iff.mp h
  rw [total, total, spend, List.modify_eq_take_cons_drop hk, hget]
  conv_rhs => rw [← List.take_append_drop k l, List.drop_eq_getElem_cons hk, hget]
  simp only [List.map_append, List.map_cons, List.sum_append, List.sum_cons]
  simp only [if_true, Bool.false_eq_true, if_false]
  ring

theorem total_foldl_spend {ks : List ℕ} : ∀ {l : List (Entry α)}, ks.Nodup →
    (∀ k ∈ ks, ∃ a, l[k]? = some ⟨a, false⟩) → total v (ks.foldl spend l) = total v l - valueAt v l ks := by
  induction ks with
  | nil => simp [valueAt]
  | cons k ks ih =>
    intro l hnodup hunspent
    obtain ⟨hk, hnodup⟩ := List.nodup_cons.mp hnodup
    obtain ⟨a, ha⟩ := hunspent k List.mem_cons_self
    -- the other entries are as before
    have hother : ∀ j ∈ ks, (spend l k)[j]? = l[j]? := by
      intro j hj
      have hne : j ≠ k := fun h => hk (h ▸ hj)
      rw [getElem?_spend]
      rcases l[j]? with _ | e
      · rfl
      · simp [hne]
    have hvalue : valueAt v (spend l k) ks = valueAt v l ks := by
      unfold valueAt
      congr 1
      exact List.map_congr_left fun j hj => by rw [hother j hj]
    rw [List.foldl_cons, ih hnodup fun j hj => by
      rw [hother j hj]
      exact hunspent j (List.mem_cons_of_mem k hj), hvalue, total_spend v ha]
    simp only [valueAt, List.map_cons, List.sum_cons, ha, Option.map_some, Option.getD_some]
    ring

/-- **A block takes the value of what it spends, and adds that of what it creates.** -/
theorem apply_total {l : List (Entry α)} {parts : List (Transfer α)} (h : Valid l parts) :
    total v (apply l parts) = total v l - valueAt v l (spends parts) + ((creates parts).map v).sum := by
  have hsplit : total v (apply l parts) =
      total v ((spends parts).foldl spend l) + ((creates parts).map v).sum := by
    rw [total, apply, List.map_append, List.sum_append, List.map_map]
    rfl
  rw [hsplit, total_foldl_spend v h.nodup h.unspent]

end Value

/-! ## Ids -/

section Ids

variable {ι : Type*} (id : α → ι) (derive : ι → ℕ → ι) (Good : ι → ℕ → Prop) (Root : ι → Prop)

/-- The items that a transfer creates have ids derived from that of an entry that it spends, one after the
other. -/
def Derived (l : List (Entry α)) (p : Transfer α) : Prop :=
  p.creates ≠ [] → ∃ k a, k ∈ p.spends ∧ (∃ b, l[k]? = some ⟨a, b⟩) ∧
    ∀ i c, p.creates[i]? = some c → Good (id a) i ∧ id c = derive (id a) i

/-- Good arguments that give one id are the same, and no root is derived from any. -/
structure Tells : Prop where
  injective : ∀ a i b j, Good a i → Good b j → derive a i = derive b j → a = b ∧ i = j
  notRoot : ∀ a i, Good a i → ¬ Root (derive a i)

/-- All ids differ, none is a root, and the base of a derived one is spent or a root. -/
structure Distinct (l : List (Entry α)) : Prop where
  nodup : (l.map fun e => id e.item).Nodup
  notRoot : ∀ e ∈ l, ¬ Root (id e.item)
  derived : ∀ e ∈ l, ∀ i j, Good i j → id e.item = derive i j → Root i ∨ ∃ a, ⟨a, true⟩ ∈ l ∧ id a = i

variable {id derive Good Root}

/-- Equal ids at two places are at one. -/
theorem Distinct.place {l : List (Entry α)} (h : Distinct id derive Good Root l) {i j : ℕ} {a b : Entry α}
    (ha : l[i]? = some a) (hb : l[j]? = some b) (heq : id a.item = id b.item) : i = j := by
  obtain ⟨hi, ha⟩ := List.getElem?_eq_some_iff.mp ha
  obtain ⟨hj, hb⟩ := List.getElem?_eq_some_iff.mp hb
  have hi' : i < (l.map fun e => id e.item).length := by simpa using hi
  have hj' : j < (l.map fun e => id e.item).length := by simpa using hj
  have hsame : (l.map fun e => id e.item)[i] = (l.map fun e => id e.item)[j] := by
    simp only [List.getElem_map, ha, hb, heq]
  exact h.nodup.getElem_inj_iff.mp hsame

/-- The items that one transfer creates have different ids. -/
theorem nodup_creates (htell : Tells derive Good Root) {l : List (Entry α)}
    {p : Transfer α} (hp : Derived id derive Good l p) : (p.creates.map id).Nodup := by
  rcases eq_or_ne p.creates [] with hnil | hne
  · simp [hnil]
  · obtain ⟨k, a, -, -, hids⟩ := hp hne
    rw [List.nodup_iff_injective_get]
    rintro ⟨i, hi⟩ ⟨j, hj⟩ heq
    rw [List.length_map] at hi hj
    simp only [List.get_eq_getElem, List.getElem_map] at heq
    obtain ⟨hgood, hid⟩ := hids i _ (List.getElem?_eq_getElem hi)
    obtain ⟨hgood', hid'⟩ := hids j _ (List.getElem?_eq_getElem hj)
    rw [hid, hid'] at heq
    exact Fin.ext (htell.injective _ _ _ _ hgood hgood' heq).2

/-- The base of the ids that a transfer creates. -/
theorem Derived.base {l : List (Entry α)} {p : Transfer α} (hp : Derived id derive Good l p) {c : α}
    (hc : c ∈ p.creates) : ∃ k a i, k ∈ p.spends ∧ (∃ b, l[k]? = some ⟨a, b⟩) ∧ Good (id a) i ∧
      id c = derive (id a) i := by
  obtain ⟨k, a, hk, hget, hids⟩ := hp (List.ne_nil_of_mem hc)
  obtain ⟨i, hi, rfl⟩ := List.getElem_of_mem hc
  exact ⟨k, a, i, hk, hget, hids i _ (List.getElem?_eq_getElem hi)⟩

/-- The items that a block creates have different ids: its transfers spend different entries. -/
theorem nodup_creates_of_parts (htell : Tells derive Good Root)
    {l : List (Entry α)} (hl : Distinct id derive Good Root l) : ∀ {parts : List (Transfer α)}, (spends parts).Nodup →
      (∀ p ∈ parts, Derived id derive Good l p) → ((creates parts).map id).Nodup := by
  intro parts
  induction parts with
  | nil => simp [creates]
  | cons p parts ih =>
    intro hnodup hparts
    rw [spends, List.flatMap_cons, List.nodup_append] at hnodup
    obtain ⟨-, hrest, hdisjoint⟩ := hnodup
    rw [creates, List.flatMap_cons, List.map_append]
    refine (nodup_creates htell (hparts p List.mem_cons_self)).append
      (ih hrest fun q hq => hparts q (List.mem_cons_of_mem p hq)) ?_
    intro x hx hx'
    obtain ⟨c, hc, rfl⟩ := List.mem_map.mp hx
    obtain ⟨c', hc', heq⟩ := List.mem_map.mp hx'
    obtain ⟨q, hq, hc'⟩ := List.mem_flatMap.mp hc'
    obtain ⟨k, a, i, hk, ⟨b, hget⟩, hgood, hid⟩ := (hparts p List.mem_cons_self).base hc
    obtain ⟨k', a', i', hk', ⟨b', hget'⟩, hgood', hid'⟩ :=
      (hparts q (List.mem_cons_of_mem p hq)).base hc'
    rw [hid, hid'] at heq
    have hplace := hl.place hget' hget (htell.injective _ _ _ _ hgood' hgood heq).1
    exact hdisjoint k hk k' (List.mem_flatMap.mpr ⟨q, hq, hk'⟩) hplace.symm

/-- **A block keeps all ids different.** -/
theorem Distinct.block (htell : Tells derive Good Root) {l : List (Entry α)}
    (hl : Distinct id derive Good Root l) {parts : List (Transfer α)} (hvalid : Valid l parts)
    (hparts : ∀ p ∈ parts, Derived id derive Good l p) : Distinct id derive Good Root (apply l parts) := by
  have hids := map_apply l parts id
  -- the base of a new id is spent by the block
  have hbase : ∀ c ∈ creates parts, ∃ k a i, k ∈ spends parts ∧ l[k]? = some ⟨a, false⟩ ∧
      (apply l parts)[k]? = some ⟨a, true⟩ ∧ Good (id a) i ∧ id c = derive (id a) i := by
    intro c hc
    obtain ⟨p, hp, hc⟩ := List.mem_flatMap.mp hc
    obtain ⟨k, a, i, hk, ⟨b, hget⟩, hgood, hid⟩ := (hparts p hp).base hc
    have hkmem : k ∈ spends parts := List.mem_flatMap.mpr ⟨p, hp, hk⟩
    obtain ⟨a', ha'⟩ := hvalid.unspent k hkmem
    obtain rfl : a = a' := by
      rw [hget] at ha'
      cases ha'
      rfl
    obtain ⟨hlt, -⟩ := List.getElem?_eq_some_iff.mp ha'
    refine ⟨k, a, i, hkmem, ha', ?_, hgood, hid⟩
    rw [getElem?_apply_of_lt hlt, ha']
    simp [hkmem]
  constructor
  · rw [hids]
    refine hl.nodup.append (nodup_creates_of_parts htell hl hvalid.nodup hparts) ?_
    intro x hx hx'
    obtain ⟨e, he, rfl⟩ := List.mem_map.mp hx
    obtain ⟨c, hc, heq⟩ := List.mem_map.mp hx'
    obtain ⟨k, a, i, -, hget, -, hgood, hid⟩ := hbase c hc
    -- were the id there already, its base would be spent
    obtain ⟨a', ha', hid'⟩ := (hl.derived e he (id a) i hgood (heq.symm.trans hid)).resolve_left
      (hl.notRoot _ (List.mem_of_getElem? hget))
    obtain ⟨j, hj, hgetj⟩ := List.getElem_of_mem ha'
    have hgetj' : l[j]? = some ⟨a', true⟩ := by rw [List.getElem?_eq_getElem hj, hgetj]
    obtain rfl := hl.place hgetj' hget hid'
    rw [hgetj'] at hget
    cases hget
  · intro e he hroot
    rcases List.mem_append.mp he with he | he
    · obtain ⟨m, hm, rfl⟩ := List.getElem_of_mem he
      have hget := getElem?_foldl_spend (spends parts) l m
      rw [List.getElem?_eq_getElem hm] at hget
      obtain ⟨e', he', heq⟩ := Option.map_eq_some_iff.mp hget.symm
      rw [← heq] at hroot
      exact hl.notRoot e' (List.mem_of_getElem? he') hroot
    · obtain ⟨c, hc, rfl⟩ := List.mem_map.mp he
      obtain ⟨k, a, n, -, -, -, hgood, hid⟩ := hbase c hc
      exact htell.notRoot _ _ hgood (hid ▸ hroot)
  · intro e he i j hgood hij
    rcases List.mem_append.mp he with he | he
    · obtain ⟨m, hm, rfl⟩ := List.getElem_of_mem he
      have hget := getElem?_foldl_spend (spends parts) l m
      rw [List.getElem?_eq_getElem hm] at hget
      obtain ⟨e', he', heq⟩ := Option.map_eq_some_iff.mp hget.symm
      rw [← heq] at hij
      refine (hl.derived e' (List.mem_of_getElem? he') i j hgood hij).imp_right fun ⟨a, ha, hid⟩ => ?_
      obtain ⟨n, hn, hgetn⟩ := List.getElem_of_mem ha
      refine ⟨a, List.mem_of_getElem? (apply_of_spent (i := n) ?_ parts), hid⟩
      rw [List.getElem?_eq_getElem hn, hgetn]
    · obtain ⟨c, hc, rfl⟩ := List.mem_map.mp he
      obtain ⟨k, a, n, -, -, hget, hgood', hid⟩ := hbase c hc
      have hbases := htell.injective _ _ _ _ hgood' hgood (hid.symm.trans hij)
      exact Or.inr ⟨a, List.mem_of_getElem? hget, hbases.1⟩

end Ids

end SpendLedger
