import Mathlib

/-! # Chains of numbered elements

A chain is a list whose elements go up in number. A range of numbers cuts a piece out of it, sorting
brings it back into order, and two chains that number their common elements alike have one newest
common element, whichever of the two is searched.

* **`NumberedChain.filter_between`** — the range from an element to beyond the end is what comes behind it.
* **`NumberedChain.insertionSort_ascending`**, **`NumberedChain.insertionSort_descending`** — sorting a
  chain that was shuffled.
* **`NumberedChain.latestCommon_comm`** — the newest common element does not depend on the side. -/

namespace Minima

namespace NumberedChain

variable {α β κ : Type*}

/-- Keys that stand for one number each. -/
def Agree (number : α → β) (key : α → κ) (ours theirs : List α) : Prop :=
  ∀ x ∈ ours ++ theirs, ∀ y ∈ ours ++ theirs, key x = key y → number x = number y

theorem Agree.symm {number : α → β} {key : α → κ} {ours theirs : List α}
    (h : Agree number key ours theirs) : Agree number key theirs ours :=
  fun x hx y hy => h x (List.mem_append.mpr (List.mem_append.mp hx).symm) y
    (List.mem_append.mpr (List.mem_append.mp hy).symm)

variable [LinearOrder β]

/-- **A chain**: the numbers go up, oldest first. -/
def Ascending (number : α → β) (chain : List α) : Prop := chain.Pairwise fun a b => number a < number b

variable {number : α → β} {chain before after : List α} {x : α}

theorem Ascending.nodup (h : Ascending number chain) : chain.Nodup :=
  List.Pairwise.imp (fun hlt heq => hlt.ne (congrArg number heq)) h

theorem Ascending.of_append (h : Ascending number (before ++ after)) :
    Ascending number before ∧ Ascending number after ∧
      ∀ a ∈ before, ∀ b ∈ after, number a < number b := List.pairwise_append.mp h

/-- A chain has one element of a number. -/
theorem Ascending.eq_of_number (h : Ascending number chain) {a b : α} (ha : a ∈ chain) (hb : b ∈ chain)
    (hnumber : number a = number b) : a = b := by
  by_contra hne
  have hdistinct : chain.Pairwise fun a b => number a ≠ number b := h.imp fun hlt => hlt.ne
  have hsymm : Std.Symm fun a b => number a ≠ number b := ⟨fun _ _ hab => hab.symm⟩
  exact hdistinct.forall ha hb hne hnumber

/-! ## Ranges and sorting -/

/-- **A range cuts out what comes behind an element**: above its number and below a number that is
beyond the end. -/
theorem filter_between (h : Ascending number (before ++ x :: after)) {stop : β}
    (hstop : ∀ a ∈ before ++ x :: after, number a < stop) :
    ((before ++ x :: after).filter fun a => number x < number a ∧ number a < stop) = after := by
  obtain ⟨-, hafter, hbefore⟩ := h.of_append
  have hx : ∀ a ∈ after, number x < number a := (List.pairwise_cons.mp hafter).1
  rw [List.filter_append, List.filter_eq_nil_iff.mpr, List.nil_append, List.filter_cons_of_neg,
    List.filter_eq_self]
  · intro a ha
    simpa using ⟨hx a ha, hstop a (by simp [ha])⟩
  · simp
  · intro a ha
    have hlt := hbefore a ha x List.mem_cons_self
    simp [hlt.le]

section Shuffled

variable {shuffled : List α}

theorem insertionSort_ascending (h : Ascending number chain) (hperm : shuffled.Perm chain) :
    shuffled.insertionSort (fun a b => number a ≤ number b) = chain := by
  have htotal : Std.Total (α := α) fun a b => number a ≤ number b := ⟨fun a b => le_total _ _⟩
  have htrans : IsTrans α fun a b => number a ≤ number b := ⟨fun _ _ _ => le_trans⟩
  refine List.Perm.eq_of_pairwise ?_ (List.pairwise_insertionSort _ _) (h.imp fun hlt => hlt.le)
    ((List.perm_insertionSort _ _).trans hperm)
  intro a b ha hb hab hba
  exact h.eq_of_number (hperm.subset ((List.mem_insertionSort _).mp ha)) hb (le_antisymm hab hba)

theorem insertionSort_descending (h : Ascending number chain) (hperm : shuffled.Perm chain) :
    shuffled.insertionSort (fun a b => number b ≤ number a) = chain.reverse := by
  have hdual : Ascending (fun a => OrderDual.toDual (number a)) chain.reverse :=
    List.pairwise_reverse.mpr h
  exact insertionSort_ascending hdual (hperm.trans (List.reverse_perm chain).symm)

end Shuffled

/-! ## The newest common element -/

section Common

variable [DecidableEq κ] (key : α → κ)

/-- The first element of one list with a key of the other. -/
def latestCommon (ours theirs : List α) : Option α := theirs.find? fun x => key x ∈ ours.map key

variable {key} {ours theirs recent old : List α}

theorem mem_of_latestCommon (h : latestCommon key ours theirs = some x) :
    x ∈ theirs ∧ ∃ y ∈ ours, key y = key x := by
  refine ⟨List.mem_of_find?_eq_some h, ?_⟩
  have hkey := List.find?_some h
  simpa using hkey

theorem latestCommon_eq_none_iff :
    latestCommon key ours theirs = none ↔ ∀ x ∈ theirs, ∀ y ∈ ours, key y ≠ key x := by
  simp [latestCommon, List.find?_eq_none]

/-- In a list from the newest element on, the first common element is the newest one. -/
theorem le_latestCommon (h : Ascending number theirs.reverse) (hx : latestCommon key ours theirs = some x)
    {z y : α} (hz : z ∈ theirs) (hy : y ∈ ours) (hkey : key y = key z) : number z ≤ number x := by
  obtain ⟨-, front, back, rfl, hfront⟩ := List.find?_eq_some_iff_append.mp hx
  have hcommon : key z ∈ ours.map key := hkey ▸ List.mem_map_of_mem hy
  rcases List.mem_append.mp hz with hmem | hmem
  · simpa [hcommon] using hfront z hmem
  · rcases List.mem_cons.mp hmem with rfl | hmem
    · exact le_rfl
    · have hdesc := List.pairwise_reverse.mp h
      exact ((List.pairwise_cons.mp (List.pairwise_append.mp hdesc).2.1).1 z hmem).le

/-- **The newest common element is the same from both sides.** -/
theorem latestCommon_comm (hours : Ascending number ours.reverse) (htheirs : Ascending number theirs.reverse)
    (hagree : Agree number key ours theirs) :
    (latestCommon key ours theirs).map key = (latestCommon key theirs ours).map key := by
  cases hx : latestCommon key ours theirs with
  | none =>
    rw [latestCommon_eq_none_iff] at hx
    rw [latestCommon_eq_none_iff.mpr fun y hy x hxmem => (hx x hxmem y hy).symm]
  | some x =>
    obtain ⟨hxmem, x', hx'mem, hx'⟩ := mem_of_latestCommon hx
    cases hy : latestCommon key theirs ours with
    | none => exact absurd hx'.symm (latestCommon_eq_none_iff.mp hy x' hx'mem x hxmem)
    | some y =>
      obtain ⟨hymem, y', hy'mem, hy'⟩ := mem_of_latestCommon hy
      -- neither is newer than the other, and a chain has one element of a number
      have hle := le_latestCommon htheirs hx hy'mem hymem hy'.symm
      have hge := le_latestCommon hours hy hx'mem hxmem hx'.symm
      have hnx := hagree x' (by simp [hx'mem]) x (by simp [hxmem]) hx'
      have hny := hagree y' (by simp [hy'mem]) y (by simp [hymem]) hy'
      have hnumber : number x' = number y := by
        apply le_antisymm hge
        rw [hnx, ← hny]
        exact hle
      have hsame : x' = y :=
        hours.eq_of_number (List.mem_reverse.mpr hx'mem) (List.mem_reverse.mpr hymem) hnumber
      rw [Option.map_some, Option.map_some, ← hx', hsame]

/-- Of two pieces the recent one is searched first. -/
theorem latestCommon_append (htheirs : Ascending number theirs.reverse)
    (hours : Ascending number (recent ++ old).reverse)
    (hagree : Agree number key (recent ++ old) theirs) :
    latestCommon key (recent ++ old) theirs =
      (latestCommon key recent theirs).or (latestCommon key old theirs) := by
  cases hx : latestCommon key recent theirs with
  | none =>
    rw [latestCommon_eq_none_iff] at hx
    refine List.find?_congr fun z hz => ?_
    have hnot : key z ∉ recent.map key := by
      rw [List.mem_map]
      rintro ⟨y, hy, hkey⟩
      exact hx z hz y hy hkey
    simp only [List.map_append, List.mem_append, hnot, false_or]
  | some x =>
    obtain ⟨hxmem, x', hx'mem, hx'⟩ := mem_of_latestCommon hx
    obtain ⟨hkey, front, back, hsplit, hfront⟩ := List.find?_eq_some_iff_append.mp hx
    refine List.find?_eq_some_iff_append.mpr ⟨?_, front, back, hsplit, fun z hz => ?_⟩
    · rw [decide_eq_true_eq] at hkey ⊢
      rw [List.map_append]
      exact List.mem_append_left _ hkey
    · have hrecent := hfront z hz
      rw [Bool.not_eq_true', decide_eq_false_iff_not] at hrecent ⊢
      rw [List.map_append, List.mem_append, not_or]
      refine ⟨hrecent, fun hold => ?_⟩
      -- what is in front of `x` is newer than `x`, but what is old is older
      obtain ⟨y, hy, hyz⟩ := List.mem_map.mp hold
      have hzmem : z ∈ theirs := by rw [hsplit]; simp [hz]
      have hzx : number x < number z := by
        rw [hsplit] at htheirs
        exact (List.pairwise_append.mp (List.pairwise_reverse.mp htheirs)).2.2 z hz x List.mem_cons_self
      have hyx : number y < number x' := (List.pairwise_append.mp (List.pairwise_reverse.mp hours)).2.2 x' hx'mem y hy
      rw [hagree y (by simp [hy]) z (by simp [hzmem]) hyz, hagree x' (by simp [hx'mem]) x (by simp [hxmem]) hx'] at hyx
      exact lt_asymm hzx hyx

/-- **Searching in pieces**: the recent and then the old part of one list, each in the recent and then
in the old part of the other one, finds the newest common element. -/
theorem latestCommon_pieces {recent' old' : List α} (htheirs : Ascending number (recent' ++ old').reverse)
    (hours : Ascending number (recent ++ old).reverse)
    (hagree : Agree number key (recent ++ old) (recent' ++ old')) :
    (latestCommon key recent recent').or ((latestCommon key old recent').or
      ((latestCommon key recent old').or (latestCommon key old old'))) =
      latestCommon key (recent ++ old) (recent' ++ old') := by
  have hpieces : ∀ piece, piece.Sublist (recent' ++ old') →
      latestCommon key (recent ++ old) piece = (latestCommon key recent piece).or (latestCommon key old piece) := by
    intro piece hpiece
    refine latestCommon_append (htheirs.sublist hpiece.reverse) hours fun x hx y hy => ?_
    have hsub := (List.Sublist.refl (recent ++ old)).append hpiece
    exact hagree x (hsub.subset hx) y (hsub.subset hy)
  have happend : latestCommon key (recent ++ old) (recent' ++ old') =
      (latestCommon key (recent ++ old) recent').or (latestCommon key (recent ++ old) old') := List.find?_append
  rw [happend, hpieces recent' (List.sublist_append_left _ _), hpieces old' (List.sublist_append_right _ _),
    Option.or_assoc]

end Common

end NumberedChain

end Minima
