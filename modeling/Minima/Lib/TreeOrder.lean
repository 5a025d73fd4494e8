import Mathlib.Data.List.Nodup
import Minima.Lib.RoseTree

/-! # Flattening a tree, and its mirror image

A tree is listed in preorder: a node, then its children's subtrees from the first to the last. A stack
that takes the children of a node one by one gives the last of them first, and so lists the mirror
image.

* **`RoseTree.preorder`**, **`RoseTree.mirror`** — the listing, and the tree with all orders of children
  turned round.
* **`RoseTree.graft`** — a tree that is hung under a node, behind the children it has.
* **`RoseTree.mirror_eq_self_iff`** — a tree without repetitions is its own mirror image exactly when no
  node has two children. -/

namespace RoseTree

variable {α β γ : Type*}

mutual

/-- The values of a tree, each node before its children. -/
def preorder : RoseTree α → List α
  | node a cs => a :: preorderAll cs

/-- The values of several trees. -/
def preorderAll : List (RoseTree α) → List α
  | [] => []
  | c :: cs => preorder c ++ preorderAll cs

end

mutual

/-- The same tree with other values. -/
def map (f : α → β) : RoseTree α → RoseTree β
  | node a cs => node (f a) (mapAll f cs)

/-- The same trees with other values. -/
def mapAll (f : α → β) : List (RoseTree α) → List (RoseTree β)
  | [] => []
  | c :: cs => map f c :: mapAll f cs

end

mutual

/-- **The mirror image**: the children of every node in the opposite order. -/
def mirror : RoseTree α → RoseTree α
  | node a cs => node a (mirrorAll cs)

/-- The mirror images of several trees, the last one first. -/
def mirrorAll : List (RoseTree α) → List (RoseTree α)
  | [] => []
  | c :: cs => mirrorAll cs ++ [mirror c]

end

theorem preorderAll_eq (cs : List (RoseTree α)) : preorderAll cs = cs.flatMap preorder := by
  induction cs with
  | nil => rfl
  | cons c cs ih => rw [preorderAll, ih, List.flatMap_cons]

theorem mapAll_eq (f : α → β) (cs : List (RoseTree α)) : mapAll f cs = cs.map (map f) := by
  induction cs with
  | nil => rfl
  | cons c cs ih => rw [mapAll, ih, List.map_cons]

theorem mirrorAll_eq (cs : List (RoseTree α)) : mirrorAll cs = (cs.map mirror).reverse := by
  induction cs with
  | nil => rfl
  | cons c cs ih => rw [mirrorAll, ih, List.map_cons, List.reverse_cons]

theorem preorder_node (a : α) (cs : List (RoseTree α)) :
    (node a cs).preorder = a :: cs.flatMap preorder := by rw [preorder, preorderAll_eq]

theorem sublist_preorder {c : RoseTree α} {cs : List (RoseTree α)} (hc : c ∈ cs) :
    c.preorder.Sublist (cs.flatMap preorder) := by
  rw [List.flatMap_def]
  exact List.sublist_flatten_of_mem (List.mem_map_of_mem hc)

theorem map_node (f : α → β) (a : α) (cs : List (RoseTree α)) :
    (node a cs).map f = node (f a) (cs.map (map f)) := by rw [map, mapAll_eq]

theorem mirror_node (a : α) (cs : List (RoseTree α)) :
    (node a cs).mirror = node a (cs.map mirror).reverse := by rw [mirror, mirrorAll_eq]

@[simp] theorem value_map (f : α → β) (t : RoseTree α) : (t.map f).value = f t.value := by
  cases t with
  | node a cs => rw [map_node, value_node, value_node]

@[simp] theorem children_map (f : α → β) (t : RoseTree α) :
    (t.map f).children = t.children.map (map f) := by
  cases t with
  | node a cs => rw [map_node, children_node, children_node]

@[simp] theorem value_mirror (t : RoseTree α) : t.mirror.value = t.value := by
  cases t with
  | node a cs => rw [mirror_node, value_node, value_node]

theorem map_map (g : β → γ) (f : α → β) (t : RoseTree α) : (t.map f).map g = t.map fun a => g (f a) := by
  induction t using induct with
  | h a cs ih =>
    rw [map_node, map_node, map_node, List.map_map]
    congr 1
    exact List.map_congr_left ih

theorem map_mirror (f : α → β) (t : RoseTree α) : t.mirror.map f = (t.map f).mirror := by
  induction t using induct with
  | h a cs ih =>
    rw [mirror_node, map_node, map_node, mirror_node, List.map_reverse, List.map_map, List.map_map]
    congr 2
    exact List.map_congr_left ih

theorem preorder_map (f : α → β) (t : RoseTree α) : (t.map f).preorder = t.preorder.map f := by
  induction t using induct with
  | h a cs ih =>
    rw [map_node, preorder_node, preorder_node, List.map_cons, List.flatMap_map, List.map_flatMap]
    congr 1
    exact List.flatMap_congr ih

theorem subtree?_map (f : α → β) (t : RoseTree α) (p : List ℕ) :
    (t.map f).subtree? p = (t.subtree? p).map (map f) := by
  induction p generalizing t with
  | nil => rfl
  | cons i p ih =>
    rw [subtree?_cons, subtree?_cons, children_map, List.getElem?_map]
    cases t.children[i]? with
    | none => rfl
    | some c => exact ih c

/-- The mirror image lists the same nodes. -/
theorem preorder_mirror_perm (t : RoseTree α) : t.mirror.preorder.Perm t.preorder := by
  induction t using induct with
  | h a cs ih =>
    rw [mirror_node, preorder_node, preorder_node, List.perm_cons]
    refine ((List.reverse_perm _).flatMap_right _).trans ?_
    rw [List.flatMap_map]
    exact List.Perm.flatMap_left cs ih

/-- The references to the nodes list their values. -/
theorem map_value_refsFrom (t : RoseTree α) (p : List ℕ) :
    (t.refsFrom p).map (fun r => r.tree.value) = t.preorder := by
  induction t using induct generalizing p with
  | h a cs ih =>
    rw [refsFrom_eq, List.map_cons, preorder_node, List.map_flatMap, value_node]
    congr 1
    have hsub : ∀ c ∈ (Ref.mk p (node a cs)).children,
        (c.tree.refsFrom c.path).map (fun r => r.tree.value) = c.tree.preorder := by
      intro c hc
      exact ih c.tree (Ref.tree_mem_children hc) c.path
    rw [List.flatMap_congr hsub, List.flatMap_def, List.flatMap_def, Ref.map_children]
    rfl

theorem map_value_refs (t : RoseTree α) : t.refs.map (fun r => r.tree.value) = t.preorder :=
  map_value_refsFrom t []

/-- Maps that agree on the values of a tree agree on the tree. -/
theorem map_congr {f g : α → β} {t : RoseTree α} (h : ∀ a ∈ t.preorder, f a = g a) :
    t.map f = t.map g := by
  induction t using induct with
  | h a cs ih =>
    rw [preorder_node] at h
    rw [map_node, map_node, h a List.mem_cons_self]
    congr 1
    refine List.map_congr_left fun c hc => ih c hc fun b hb => h b (List.mem_cons_of_mem _ ?_)
    exact List.mem_flatMap.mpr ⟨c, hc, hb⟩

/-! ## Grafting -/

/-- A tree hung under the node at a path, behind the children it has. -/
def graft : RoseTree α → List ℕ → RoseTree α → RoseTree α
  | t, [], c => node t.value (t.children ++ [c])
  | t, i :: p, c => node t.value (t.children.modify i fun s => s.graft p c)

theorem addChild_eq (t : RoseTree α) (p : List ℕ) (a : α) : t.addChild p a = t.graft p (node a []) := by
  induction p generalizing t with
  | nil => rfl
  | cons i p ih =>
    rw [addChild, graft]
    congr 2
    exact funext ih

/-- The node at the path has one more child. -/
theorem subtree?_graft {t s : RoseTree α} {p : List ℕ} (h : t.subtree? p = some s) (c : RoseTree α) :
    (t.graft p c).subtree? p = some (node s.value (s.children ++ [c])) := by
  induction p generalizing t with
  | nil =>
    obtain rfl := Option.some.inj h
    rfl
  | cons i p ih =>
    rw [subtree?_cons] at h ⊢
    obtain ⟨d, hd, h⟩ := Option.bind_eq_some_iff.mp h
    rw [graft, children_node, List.getElem?_modify_eq, hd]
    exact ih h

/-- The new child is the last one. -/
theorem subtree?_graft_concat {t s : RoseTree α} {p : List ℕ} (h : t.subtree? p = some s)
    (c : RoseTree α) : (t.graft p c).subtree? (p ++ [s.children.length]) = some c := by
  rw [subtree?_concat (subtree?_graft h c), children_node, List.getElem?_concat_length]

/-- **Grafting under the new child** is grafting a larger tree. -/
theorem graft_graft {t s : RoseTree α} {p : List ℕ} (h : t.subtree? p = some s) (c d : RoseTree α) :
    (t.graft p c).graft (p ++ [s.children.length]) d = t.graft p (c.graft [] d) := by
  induction p generalizing t with
  | nil =>
    obtain rfl := Option.some.inj h
    show node t.value ((t.children ++ [c]).modify t.children.length fun s => s.graft [] d) =
      node t.value (t.children ++ [c.graft [] d])
    congr 1
    refine List.ext_getElem? fun j => ?_
    rw [List.getElem?_modify]
    rcases lt_trichotomy j t.children.length with hj | rfl | hj
    · rw [List.getElem?_append_left hj, List.getElem?_append_left hj, Option.map_eq_map]
      simp only [hj.ne', if_false, Option.map_id_fun', id_eq]
    · simp
    · have hlen : (t.children ++ [c]).length ≤ j := by
        rw [List.length_append, List.length_singleton]
        omega
      rw [List.getElem?_eq_none hlen, List.getElem?_eq_none (by simpa using hlen)]
      rfl
  | cons i p ih =>
    rw [subtree?_cons] at h
    obtain ⟨e, he, h⟩ := Option.bind_eq_some_iff.mp h
    show node t.value ((t.children.modify i fun b => b.graft p c).modify i fun b =>
        b.graft (p ++ [s.children.length]) d) =
      node t.value (t.children.modify i fun b => b.graft p (c.graft [] d))
    rw [List.modify_modify_eq]
    congr 1
    refine List.ext_getElem? fun j => ?_
    rw [List.getElem?_modify, List.getElem?_modify]
    by_cases hij : i = j
    · subst hij
      rw [he]
      simpa using ih h
    · simp only [hij, if_false]

/-- **Trees that are grafted under the new child one after the other** become its children. -/
theorem foldl_graft_concat {t s : RoseTree α} {p : List ℕ} (hs : t.subtree? p = some s) (a : α)
    (done cs : List (RoseTree α)) :
    cs.foldl (fun t c => t.graft (p ++ [s.children.length]) c) (t.graft p (node a done)) =
      t.graft p (node a (done ++ cs)) := by
  induction cs generalizing done with
  | nil => rw [List.append_nil, List.foldl_nil]
  | cons c cs ih =>
    rw [List.foldl_cons, graft_graft hs, graft, value_node, children_node, ih, List.append_assoc,
      List.singleton_append]

theorem foldl_graft_nil (a : α) (done cs : List (RoseTree α)) :
    cs.foldl (fun t c => t.graft [] c) (node a done) = node a (done ++ cs) := by
  induction cs generalizing done with
  | nil => rw [List.append_nil, List.foldl_nil]
  | cons c cs ih =>
    rw [List.foldl_cons, graft, value_node, children_node, ih, List.append_assoc, List.singleton_append]

/-- Every parent stands in a relation to each of its children. -/
def Linked (R : α → α → Prop) (t : RoseTree α) : Prop :=
  ∀ p s, t.subtree? p = some s → ∀ c ∈ s.children, R s.value c.value

theorem linked_node {R : α → α → Prop} {a : α} {cs : List (RoseTree α)} :
    (node a cs).Linked R ↔ ∀ c ∈ cs, R a c.value ∧ c.Linked R := by
  constructor
  · intro h c hc
    obtain ⟨i, hi⟩ := List.getElem?_of_mem hc
    refine ⟨h [] _ rfl c hc, fun p s hs => h (i :: p) s ?_⟩
    rw [subtree?_cons, children_node, hi]
    exact hs
  · intro h p s hs
    cases p with
    | nil =>
      obtain rfl := Option.some.inj hs
      exact fun c hc => (h c hc).1
    | cons i p =>
      rw [subtree?_cons] at hs
      obtain ⟨c, hc, hs⟩ := Option.bind_eq_some_iff.mp hs
      exact (h c (List.mem_of_getElem? hc)).2 p s hs

theorem linked_map {R : β → β → Prop} {f : α → β} {t : RoseTree α} :
    (t.map f).Linked R ↔ t.Linked fun a b => R (f a) (f b) := by
  induction t using induct with
  | h a cs ih =>
    rw [map_node, linked_node, linked_node, List.forall_mem_map]
    refine forall₂_congr fun c hc => ?_
    rw [value_map, ih c hc]

/-- The mirror image is linked too. -/
theorem Linked.mirror {R : α → α → Prop} {t : RoseTree α} (h : t.Linked R) : t.mirror.Linked R := by
  induction t using induct with
  | h a cs ih =>
    rw [mirror_node, linked_node]
    rw [linked_node] at h
    intro c hc
    obtain ⟨d, hd, rfl⟩ := List.mem_map.mp (List.mem_reverse.mp hc)
    rw [value_mirror]
    exact ⟨(h d hd).1, ih d hd (h d hd).2⟩

/-! ## When a tree is its own mirror image -/

/-- No node has two children. -/
def Unbranched (t : RoseTree α) : Prop := ∀ p s, t.subtree? p = some s → s.children.length ≤ 1

theorem unbranched_node {a : α} {cs : List (RoseTree α)} :
    (node a cs).Unbranched ↔ cs.length ≤ 1 ∧ ∀ c ∈ cs, c.Unbranched := by
  constructor
  · intro h
    refine ⟨h [] _ rfl, fun c hc p s hs => ?_⟩
    obtain ⟨i, hi⟩ := List.getElem?_of_mem hc
    refine h (i :: p) s ?_
    rw [subtree?_cons, children_node, hi]
    exact hs
  · rintro ⟨hlen, h⟩ p s hs
    cases p with
    | nil =>
      obtain rfl := Option.some.inj hs
      exact hlen
    | cons i p =>
      rw [subtree?_cons] at hs
      obtain ⟨c, hc, hs⟩ := Option.bind_eq_some_iff.mp hs
      exact h c (List.mem_of_getElem? hc) p s hs

theorem unbranched_map {f : α → β} {t : RoseTree α} : (t.map f).Unbranched ↔ t.Unbranched := by
  induction t using induct with
  | h a cs ih =>
    rw [map_node, unbranched_node, unbranched_node, List.length_map, List.forall_mem_map]
    exact and_congr_right fun _ => forall₂_congr ih

theorem Unbranched.mirror_eq {t : RoseTree α} (h : t.Unbranched) : t.mirror = t := by
  induction t using induct with
  | h a cs ih =>
    rw [unbranched_node] at h
    obtain ⟨hlen, h⟩ := h
    rw [mirror_node]
    match cs, hlen with
    | [], _ => rfl
    | [c], _ => rw [List.map_singleton, List.reverse_singleton, ih c (by simp) (h c (by simp))]

/-- **A tree without repetitions is its own mirror image exactly when no node has two children.** -/
theorem mirror_eq_self_iff {t : RoseTree α} (h : t.preorder.Nodup) : t.mirror = t ↔ t.Unbranched := by
  refine ⟨fun heq => ?_, Unbranched.mirror_eq⟩
  induction t using induct with
  | h a cs ih =>
    rw [mirror_node, node.injEq] at heq
    rw [preorder_node, List.nodup_cons] at h
    have hcs := heq.2
    rw [unbranched_node]
    match cs, h, hcs with
    | [], _, _ => exact ⟨Nat.zero_le 1, by simp⟩
    | [c], h, hcs =>
      refine ⟨le_rfl, fun d hd => ?_⟩
      obtain rfl := List.mem_singleton.mp hd
      rw [List.map_singleton, List.reverse_singleton, List.singleton_inj] at hcs
      rw [List.flatMap_singleton] at h
      exact ih d hd h.2 hcs
    | c :: d :: cs, h, hcs =>
      -- the first child would be the mirror image of the last one
      exfalso
      obtain ⟨es, e, hlast⟩ : ∃ es e, d :: cs = es ++ [e] :=
        ⟨_, _, (List.dropLast_append_getLast (List.cons_ne_nil d cs)).symm⟩
      rw [hlast] at h hcs
      rw [List.map_cons, List.map_append, List.map_singleton, List.reverse_cons, List.reverse_append,
        List.reverse_singleton, List.singleton_append, List.cons_append, List.cons.injEq] at hcs
      have hvalue : c.value = e.value := by rw [← hcs.1, value_mirror]
      have hmem : ∀ s : RoseTree α, s.value ∈ s.preorder := by
        intro s
        cases s with
        | node b ds => exact preorder_node b ds ▸ List.mem_cons_self
      rw [List.flatMap_cons, List.flatMap_append, List.flatMap_singleton] at h
      refine List.disjoint_of_nodup_append h.2 (hmem c) ?_
      rw [hvalue]
      exact List.mem_append_right _ (hmem e)

end RoseTree
