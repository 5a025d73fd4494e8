import Mathlib.Algebra.BigOperators.Group.List.Basic
import Mathlib.Algebra.Order.BigOperators.Group.List
import Mathlib.Algebra.Order.Field.Rat
import Mathlib.Data.List.Nodup
import Mathlib.Data.List.Perm.Basic
import Mathlib.Tactic.Linarith

/-! # Trees with ordered children, addressed by paths

A node of a tree is addressed by the path that leads to it from the root: the positions, among the
children of each node on the way, of the next one. A path is what a pointer to a node is in a tree
that does not change.

* **`RoseTree.subtree?`** — the subtree a path leads to.
* **`RoseTree.refs`** — references to all nodes, each once (`mem_refs`, `nodup_refs`).
* **`RoseTree.total`** — the sum of a weight over all nodes.
* **`RoseTree.Heaviest`** — the walk that goes to a child of greatest total until it meets a leaf. -/

/-- A tree whose nodes carry values and have a list of children. -/
inductive RoseTree (α : Type*) where
  | node (value : α) (children : List (RoseTree α))

namespace RoseTree

variable {α : Type*}

def value : RoseTree α → α
  | node a _ => a

def children : RoseTree α → List (RoseTree α)
  | node _ cs => cs

@[simp] theorem value_node (a : α) (cs : List (RoseTree α)) : (node a cs).value = a := rfl

@[simp] theorem children_node (a : α) (cs : List (RoseTree α)) : (node a cs).children = cs := rfl

/-- **Induction over a tree**, with the hypothesis for every child. -/
theorem induct {P : RoseTree α → Prop} (h : ∀ a cs, (∀ c ∈ cs, P c) → P (node a cs)) (t : RoseTree α) :
    P t :=
  RoseTree.rec (motive_1 := P) (motive_2 := fun cs => ∀ c ∈ cs, P c) h
    (by simp) (fun c cs hc hcs => by simpa using ⟨hc, hcs⟩) t

/-! ## Subtrees -/

/-- The subtree that a path leads to. -/
def subtree? : RoseTree α → List ℕ → Option (RoseTree α)
  | t, [] => some t
  | t, i :: p => t.children[i]?.bind fun c => c.subtree? p

@[simp] theorem subtree?_nil (t : RoseTree α) : t.subtree? [] = some t := rfl

theorem subtree?_cons (t : RoseTree α) (i : ℕ) (p : List ℕ) :
    t.subtree? (i :: p) = t.children[i]?.bind fun c => c.subtree? p := rfl

theorem subtree?_append (t : RoseTree α) (p q : List ℕ) :
    t.subtree? (p ++ q) = (t.subtree? p).bind fun s => s.subtree? q := by
  induction p generalizing t with
  | nil => rfl
  | cons i p ih =>
    rw [List.cons_append, subtree?_cons, subtree?_cons, Option.bind_assoc]
    exact Option.bind_congr fun c _ => ih c

/-- One step down from a node. -/
theorem subtree?_concat {t s : RoseTree α} {p : List ℕ} (h : t.subtree? p = some s) (i : ℕ) :
    t.subtree? (p ++ [i]) = s.children[i]? := by
  rw [subtree?_append, h, Option.bind_some, subtree?_cons]
  cases s.children[i]? <;> rfl

theorem exists_parent {t c : RoseTree α} {p : List ℕ} {i : ℕ} (h : t.subtree? (p ++ [i]) = some c) :
    ∃ s, t.subtree? p = some s ∧ s.children[i]? = some c := by
  rw [subtree?_append] at h
  obtain ⟨s, hs, -⟩ := Option.bind_eq_some_iff.mp h
  refine ⟨s, hs, ?_⟩
  rw [← subtree?_concat hs, subtree?_append]
  exact h

/-! ## References to nodes -/

/-- **A reference to a node:** the path that leads to it, and the subtree found there. -/
structure Ref (α : Type*) where
  path : List ℕ
  tree : RoseTree α

/-- The reference to the root. -/
def rootRef (t : RoseTree α) : Ref α := ⟨[], t⟩

namespace Ref

/-- References to the children, in their order. -/
def children (r : Ref α) : List (Ref α) := r.tree.children.mapIdx fun i c => ⟨r.path ++ [i], c⟩

theorem mem_children {r c : Ref α} :
    c ∈ r.children ↔ ∃ i, c.path = r.path ++ [i] ∧ r.tree.children[i]? = some c.tree := by
  rw [children, List.mem_mapIdx]
  constructor
  · rintro ⟨i, hi, rfl⟩
    exact ⟨i, rfl, List.getElem?_eq_getElem hi⟩
  · rintro ⟨i, hp, hc⟩
    obtain ⟨hi, hci⟩ := List.getElem?_eq_some_iff.mp hc
    exact ⟨i, hi, by rw [hci, ← hp]⟩

theorem map_children {β : Type*} (r : Ref α) (f : RoseTree α → β) :
    (r.children.map fun c => f c.tree) = r.tree.children.map f :=
  List.ext_getElem (by simp [children]) (by simp [children])

theorem tree_mem_children {r c : Ref α} (h : c ∈ r.children) : c.tree ∈ r.tree.children := by
  obtain ⟨i, -, hi⟩ := mem_children.mp h
  exact List.mem_of_getElem? hi

theorem exists_child {r : Ref α} {t : RoseTree α} (h : t ∈ r.tree.children) :
    ∃ c ∈ r.children, c.tree = t := by
  obtain ⟨i, hi⟩ := List.getElem?_of_mem h
  exact ⟨⟨r.path ++ [i], t⟩, mem_children.mpr ⟨i, rfl, hi⟩, rfl⟩

theorem mem_children_ne {r c : Ref α} (h : c ∈ r.children) : c.path ≠ r.path := by
  obtain ⟨i, hp, -⟩ := mem_children.mp h
  intro heq
  simpa using congrArg List.length (hp.symm.trans heq)

/-- `r` refers to a node of `t`. -/
def Of (r : Ref α) (t : RoseTree α) : Prop := t.subtree? r.path = some r.tree

theorem of_rootRef (t : RoseTree α) : t.rootRef.Of t := rfl

/-- A reference is its path. -/
theorem Of.ext {t : RoseTree α} {r s : Ref α} (hr : r.Of t) (hs : s.Of t) (h : r.path = s.path) :
    r = s := by
  obtain ⟨p, a⟩ := r
  obtain ⟨q, b⟩ := s
  obtain rfl : p = q := h
  rw [Of] at hr hs
  simp only at hr hs
  rw [hr, Option.some.injEq] at hs
  rw [hs]

theorem Of.child {t : RoseTree α} {r c : Ref α} (hr : r.Of t) (hc : c ∈ r.children) : c.Of t := by
  obtain ⟨i, hp, hci⟩ := mem_children.mp hc
  rw [Of, hp, subtree?_concat hr, hci]

end Ref

/-- A new leaf under the node at a path, behind the children it has. -/
def addChild : RoseTree α → List ℕ → α → RoseTree α
  | t, [], a => node t.value (t.children ++ [node a []])
  | t, i :: p, a => node t.value (t.children.modify i fun c => c.addChild p a)

/-! ## Parents and lineages -/

/-- The parent of a node in a tree, if it is not the root. -/
def parent? (t : RoseTree α) (r : Ref α) : Option (Ref α) :=
  if r.path = [] then none else (t.subtree? r.path.dropLast).map fun s => ⟨r.path.dropLast, s⟩

/-- The walk from a node back to the root, as long as there is a parent and the fuel lasts. -/
def walkBack (t : RoseTree α) : ℕ → Ref α → List (Ref α)
  | 0, r => [r]
  | fuel + 1, r =>
    match t.parent? r with
    | none => [r]
    | some p => r :: walkBack t fuel p

/-- **The lineage of a node:** the node, its parent, and so on back to the root. -/
def lineage (t : RoseTree α) (r : Ref α) : List (Ref α) := walkBack t r.path.length r

theorem parent?_root (t : RoseTree α) : t.parent? t.rootRef = none := rfl

theorem parent?_child {t : RoseTree α} {r c : Ref α} (hr : r.Of t) (hc : c ∈ r.children) :
    t.parent? c = some r := by
  obtain ⟨i, hp, -⟩ := Ref.mem_children.mp hc
  rw [parent?, if_neg (by simp [hp]), hp, List.dropLast_concat, hr]
  rfl

theorem lineage_root (t : RoseTree α) : t.lineage t.rootRef = [t.rootRef] := rfl

theorem lineage_child {t : RoseTree α} {r c : Ref α} (hr : r.Of t) (hc : c ∈ r.children) :
    t.lineage c = c :: t.lineage r := by
  obtain ⟨i, hp, -⟩ := Ref.mem_children.mp hc
  rw [lineage, hp, List.length_append, List.length_singleton, walkBack, parent?_child hr hc]
  rfl

/-- **A node is the root or a child of a node.** -/
theorem Ref.Of.root_or_child {t : RoseTree α} {r : Ref α} (hr : r.Of t) :
    r = t.rootRef ∨ ∃ p : Ref α, p.Of t ∧ r ∈ p.children := by
  rcases List.eq_nil_or_concat r.path with hp | ⟨q, i, hp⟩
  · exact .inl (hr.ext (Ref.of_rootRef t) hp)
  · right
    rw [List.concat_eq_append] at hp
    have hsub : t.subtree? (q ++ [i]) = some r.tree := hp ▸ hr
    obtain ⟨s, hs, hi⟩ := exists_parent hsub
    exact ⟨⟨q, s⟩, hs, Ref.mem_children.mpr ⟨i, hp, hi⟩⟩

/-- **Induction from the root to the leaves.** -/
theorem Ref.Of.induct {t : RoseTree α} {P : Ref α → Prop} (root : P t.rootRef)
    (child : ∀ r c : Ref α, r.Of t → c ∈ r.children → P r → P c) {r : Ref α} (hr : r.Of t) : P r := by
  suffices h : ∀ n, ∀ r : Ref α, r.path.length = n → r.Of t → P r from h _ r rfl hr
  intro n
  induction n with
  | zero =>
    intro r hn hr
    rcases hr.root_or_child with rfl | ⟨p, -, hc⟩
    · exact root
    · obtain ⟨i, hp, -⟩ := Ref.mem_children.mp hc
      simp [hp] at hn
  | succ n ih =>
    intro r hn hr
    rcases hr.root_or_child with rfl | ⟨p, hp, hc⟩
    · exact root
    · obtain ⟨i, hpath, -⟩ := Ref.mem_children.mp hc
      refine child p r hp hc (ih p ?_ hp)
      simpa [hpath] using hn

/-- The lineage begins with the node. -/
theorem exists_lineage_eq_cons {t : RoseTree α} {r : Ref α} (hr : r.Of t) :
    ∃ ancestors, t.lineage r = r :: ancestors := by
  rcases hr.root_or_child with rfl | ⟨p, hp, hc⟩
  · exact ⟨[], lineage_root t⟩
  · exact ⟨_, lineage_child hp hc⟩

/-- The lineage ends with the root. -/
theorem exists_lineage_eq_concat {t : RoseTree α} {r : Ref α} (hr : r.Of t) :
    ∃ line, t.lineage r = line ++ [t.rootRef] := by
  refine Ref.Of.induct (P := fun r => ∃ line, t.lineage r = line ++ [t.rootRef]) ⟨[], lineage_root t⟩
    (fun r c hr hc ih => ?_) hr
  obtain ⟨line, hline⟩ := ih
  exact ⟨c :: line, by rw [lineage_child hr hc, hline, List.cons_append]⟩

/-- Everything in a lineage is a node of the tree. -/
theorem of_mem_lineage {t : RoseTree α} {r s : Ref α} (hr : r.Of t) (hs : s ∈ t.lineage r) : s.Of t := by
  revert hs
  refine Ref.Of.induct (P := fun r => s ∈ t.lineage r → s.Of t) (fun hs => ?_)
    (fun r c hr hc ih hs => ?_) hr
  · rw [lineage_root, List.mem_singleton] at hs
    exact hs ▸ Ref.of_rootRef t
  · rw [lineage_child hr hc, List.mem_cons] at hs
    rcases hs with rfl | hs
    · exact hr.child hc
    · exact ih hs

/-- A node of the subtree under a node, as a node of the whole tree. -/
def Ref.under (r s : Ref α) : Ref α := ⟨r.path ++ s.path, s.tree⟩

/-- **A lineage in a subtree goes on in the whole tree** behind the root of the subtree. -/
theorem map_lineage_under {β : Type*} (f : RoseTree α → β) {t : RoseTree α} {r s : Ref α} (hr : r.Of t)
    (hs : s.Of r.tree) :
    (t.lineage (r.under s)).map (fun a => f a.tree) =
      (r.tree.lineage s).map (fun a => f a.tree) ++ (t.lineage r).tail.map fun a => f a.tree := by
  refine Ref.Of.induct (P := fun s => (t.lineage (r.under s)).map (fun a => f a.tree) =
    (r.tree.lineage s).map (fun a => f a.tree) ++ (t.lineage r).tail.map fun a => f a.tree)
    ?_ (fun s c hs hc ih => ?_) hs
  · have hroot : r.under r.tree.rootRef = r := by
      rw [Ref.under, rootRef, List.append_nil]
    obtain ⟨ancestors, hline⟩ := exists_lineage_eq_cons hr
    rw [hroot, lineage_root, hline]
    rfl
  · have hunder : (r.under s).Of t := by
      rw [Ref.under, Ref.Of, subtree?_append, hr]
      exact hs
    have hchild : r.under c ∈ (r.under s).children := by
      obtain ⟨i, hp, hi⟩ := Ref.mem_children.mp hc
      refine Ref.mem_children.mpr ⟨i, ?_, hi⟩
      rw [Ref.under, Ref.under, hp, List.append_assoc]
    rw [lineage_child hunder hchild, lineage_child hs hc, List.map_cons, List.map_cons, ih]
    rfl

mutual

/-- All nodes of a tree that hangs at `p`. -/
def refsFrom : RoseTree α → List ℕ → List (Ref α)
  | node a cs, p => ⟨p, node a cs⟩ :: refsFromAll cs p 0

/-- All nodes of the children of `p`, from its child `i` on. -/
def refsFromAll : List (RoseTree α) → List ℕ → ℕ → List (Ref α)
  | [], _, _ => []
  | c :: cs, p, i => refsFrom c (p ++ [i]) ++ refsFromAll cs p (i + 1)

end

/-- All nodes of a tree. -/
def refs (t : RoseTree α) : List (Ref α) := t.refsFrom []

/-- The children one by one. -/
theorem refsFromAll_eq (cs : List (RoseTree α)) (p : List ℕ) (i : ℕ) :
    refsFromAll cs p i = (cs.mapIdx fun j c => refsFrom c (p ++ [i + j])).flatten := by
  induction cs generalizing i with
  | nil => simp [refsFromAll]
  | cons c cs ih =>
    rw [refsFromAll, ih, List.mapIdx_cons, List.flatten_cons]
    simp only [Nat.add_zero, Nat.add_assoc, Nat.add_comm 1]

theorem refsFrom_eq (t : RoseTree α) (p : List ℕ) :
    t.refsFrom p = ⟨p, t⟩ :: (Ref.mk p t).children.flatMap fun c => c.tree.refsFrom c.path := by
  cases t with
  | node a cs =>
    rw [refsFrom, refsFromAll_eq, Ref.children, List.flatMap_def]
    congr 2
    exact List.ext_getElem (by simp) (by simp)

/-- **The nodes below `p` are the ones that a path leads on to.** -/
theorem mem_refsFrom {t : RoseTree α} {p : List ℕ} {s : Ref α} :
    s ∈ t.refsFrom p ↔ ∃ q, s.path = p ++ q ∧ t.subtree? q = some s.tree := by
  induction t using induct generalizing p s with
  | h a cs ih =>
    rw [refsFrom_eq, List.mem_cons, List.mem_flatMap]
    constructor
    · rintro (rfl | ⟨c, hc, hs⟩)
      · exact ⟨[], by simp, rfl⟩
      · obtain ⟨i, hp, hci⟩ := Ref.mem_children.mp hc
        obtain ⟨q, hq, hsq⟩ := (ih c.tree (List.mem_of_getElem? hci)).mp hs
        refine ⟨i :: q, by simp [hq, hp], ?_⟩
        rw [subtree?_cons, hci]
        exact hsq
    · rintro ⟨q, hq, hs⟩
      cases q with
      | nil =>
        left
        obtain ⟨path, tree⟩ := s
        simp only [List.append_nil] at hq
        simp only [subtree?_nil, Option.some.injEq] at hs
        rw [hq, hs]
      | cons i q =>
        rw [subtree?_cons] at hs
        obtain ⟨c, hc, hs⟩ := Option.bind_eq_some_iff.mp hs
        refine .inr ⟨⟨p ++ [i], c⟩, Ref.mem_children.mpr ⟨i, rfl, hc⟩, ?_⟩
        exact (ih c (List.mem_of_getElem? hc)).mpr ⟨q, by simpa using hq, hs⟩

theorem mem_refs {t : RoseTree α} {s : Ref α} : s ∈ t.refs ↔ s.Of t := by
  rw [refs, mem_refsFrom]
  simp [Ref.Of]

theorem nodup_refsFrom (t : RoseTree α) (p : List ℕ) : (t.refsFrom p).Nodup := by
  induction t using induct generalizing p with
  | h a cs ih =>
    rw [refsFrom, List.nodup_cons, refsFromAll_eq]
    constructor
    · -- `p` itself is shorter than every path below one of its children
      rw [List.mem_flatten]
      rintro ⟨l, hl, hp⟩
      obtain ⟨i, hi, rfl⟩ := List.mem_mapIdx.mp hl
      obtain ⟨q, hq, -⟩ := mem_refsFrom.mp hp
      simpa using congrArg List.length hq
    · rw [List.nodup_flatten]
      constructor
      · intro l hl
        obtain ⟨i, hi, rfl⟩ := List.mem_mapIdx.mp hl
        exact ih _ (List.getElem_mem hi) _
      · -- two different children have no path in common
        rw [List.pairwise_iff_getElem]
        intro i j hi hj hij
        rw [List.getElem_mapIdx, List.getElem_mapIdx]
        intro s hs hs'
        obtain ⟨q, hq, -⟩ := mem_refsFrom.mp hs
        obtain ⟨q', hq', -⟩ := mem_refsFrom.mp hs'
        have happ : p ++ (i :: q) = p ++ (j :: q') := by simpa using hq.symm.trans hq'
        have heq := List.append_cancel_left happ
        have := (List.cons.inj heq).1
        omega

/-- The number of nodes does not depend on where the tree hangs. -/
theorem length_refsFrom (t : RoseTree α) (p : List ℕ) : (t.refsFrom p).length = t.refs.length := by
  suffices h : ∀ q, (t.refsFrom p).length = (t.refsFrom q).length from h []
  induction t using induct generalizing p with
  | h a cs ih =>
    intro q
    rw [refsFrom, refsFrom, List.length_cons, List.length_cons, refsFromAll_eq, refsFromAll_eq,
      List.length_flatten, List.length_flatten]
    congr 2
    refine List.ext_getElem (by simp) fun i h1 h2 => ?_
    simpa using ih _ (List.getElem_mem _) _ _

theorem length_refs_pos (t : RoseTree α) : 0 < t.refs.length := by
  rw [refs, refsFrom_eq]
  simp

/-- A child has fewer nodes below it. -/
theorem length_refs_child {r c : Ref α} (h : c ∈ r.children) :
    c.tree.refs.length < r.tree.refs.length := by
  rw [← length_refsFrom r.tree r.path, refsFrom_eq, List.length_cons, Nat.lt_succ_iff,
    ← length_refsFrom c.tree c.path, List.flatMap_def]
  exact (List.sublist_flatten_of_mem
    (List.mem_map_of_mem (f := fun c : Ref α => c.tree.refsFrom c.path) h)).length_le

theorem nodup_refs (t : RoseTree α) : t.refs.Nodup := nodup_refsFrom t []

/-! ## Weights -/

section Weight

variable (w : α → ℚ)

mutual

/-- The sum of the weights of all nodes. -/
def total : RoseTree α → ℚ
  | node a cs => w a + totalAll cs

def totalAll : List (RoseTree α) → ℚ
  | [] => 0
  | c :: cs => c.total + totalAll cs

end

theorem totalAll_eq (cs : List (RoseTree α)) : totalAll w cs = (cs.map (total w)).sum := by
  induction cs with
  | nil => rw [totalAll, List.map_nil, List.sum_nil]
  | cons c cs ih => rw [totalAll, List.map_cons, List.sum_cons, ih]

theorem total_eq (t : RoseTree α) : t.total w = w t.value + (t.children.map (total w)).sum := by
  cases t with
  | node a cs => rw [total, totalAll_eq, value_node, children_node]

variable {w} (hw : ∀ a, 0 ≤ w a)

include hw

theorem total_nonneg (t : RoseTree α) : 0 ≤ t.total w := by
  induction t using induct with
  | h a cs ih =>
    rw [total_eq]
    exact add_nonneg (hw a) (List.sum_nonneg (by simpa using ih))

theorem weight_le_total (t : RoseTree α) : w t.value ≤ t.total w := by
  rw [total_eq]
  exact le_add_of_nonneg_right (List.sum_nonneg (by simpa using fun c _ => total_nonneg hw c))

theorem sum_totals_eq_zero_iff (cs : List (RoseTree α)) :
    (cs.map (total w)).sum = 0 ↔ ∀ c ∈ cs, c.total w = 0 := by
  constructor
  · intro h c hc
    refine List.all_zero_of_le_zero_le_of_sum_eq_zero ?_ h (List.mem_map_of_mem hc)
    simpa using fun d _ => total_nonneg hw d
  · intro h
    exact List.sum_eq_zero (by simpa using h)

theorem two_levels_le_total (t : RoseTree α) :
    w t.value + (t.children.map fun c => w c.value).sum ≤ t.total w := by
  rw [total_eq]
  gcongr
  exact List.sum_le_sum fun c _ => weight_le_total hw c

/-- **The weights of a node and of its children make up the total iff nothing below them weighs.** -/
theorem total_eq_two_levels_iff (t : RoseTree α) :
    t.total w = w t.value + (t.children.map fun c => w c.value).sum ↔
      ∀ c ∈ t.children, ∀ d ∈ c.children, d.total w = 0 := by
  have key : ∀ cs : List (RoseTree α), (cs.map (total w)).sum = (cs.map fun c => w c.value).sum ↔
      ∀ c ∈ cs, c.total w = w c.value := by
    intro cs
    induction cs with
    | nil => simp
    | cons c cs ih =>
      have h1 := weight_le_total hw c
      have h2 : (cs.map fun c => w c.value).sum ≤ (cs.map (total w)).sum :=
        List.sum_le_sum fun d _ => weight_le_total hw d
      rw [List.map_cons, List.map_cons, List.sum_cons, List.sum_cons, List.forall_mem_cons, ← ih]
      constructor
      · intro h
        exact ⟨by linarith, by linarith⟩
      · rintro ⟨h, h'⟩
        rw [h, h']
  rw [total_eq, add_right_inj, key]
  refine forall₂_congr fun c _ => ?_
  rw [total_eq, add_eq_left, sum_totals_eq_zero_iff hw]

omit hw in
/-- If no grandchild of any node weighs anything, then neither does all that is below it. -/
theorem total_eq_zero_of_grandchildren {t : RoseTree α}
    (h : ∀ r : Ref α, r.Of t → ∀ c ∈ r.children, ∀ d ∈ c.children, w d.tree.value = 0)
    {r c d : Ref α} (hr : r.Of t) (hc : c ∈ r.children) (hd : d ∈ c.children) : d.tree.total w = 0 := by
  obtain ⟨p, s⟩ := d
  induction s using induct generalizing r c p with
  | h a cs ih =>
    rw [total_eq, h r hr c hc _ hd, zero_add]
    refine List.sum_eq_zero fun x hx => ?_
    obtain ⟨e, he, rfl⟩ := List.mem_map.mp hx
    obtain ⟨⟨q, e'⟩, hmem, rfl⟩ := Ref.exists_child (r := ⟨p, node a cs⟩) he
    exact ih e' he (hr.child hc) hd q hmem

end Weight

/-! ## The heaviest path -/

/-- **The path to the leaf that is reached by moving to a child of greatest total,** the first one
among equals. -/
inductive HeaviestPath (w : α → ℚ) : RoseTree α → List ℕ → Prop
  | leaf {t : RoseTree α} (h : t.children = []) : HeaviestPath w t []
  | step {t c : RoseTree α} {i : ℕ} {p : List ℕ} (hc : t.children[i]? = some c)
      (hmax : ∀ d ∈ t.children, d.total w ≤ c.total w)
      (hfirst : ∀ j < i, ∀ d, t.children[j]? = some d → d.total w < c.total w)
      (hp : HeaviestPath w c p) : HeaviestPath w t (i :: p)

end RoseTree
