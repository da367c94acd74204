import Mathlib.Data.Tree.Basic
import Mathlib.Data.List.Nodup
import Mathlib.Logic.Function.Basic

/-!
# Parent-linked binary trees in a heap

The links of a tree in a heap are three functions from nodes to pointers (`Links`), and
`LinkedTree L root par t` says that from `root` they spell the tree `t`, with `par` as the parent
link of its root. Surgery on such a tree is done at a hole: `TreeCtx` is a tree with one subtree
taken out, `plug` puts a subtree back, and `CtxLinked` says that the links spell the context around
the hole. The two operations that pointer code performs are `Links.replaceChild` (make the parent of
a node, or the root, lead to something else) and `Links.setParentOf`; `plug_relink` is the
combination of them that every unlinking and splicing consists of.
-/

namespace MatchingEngine.Lib

open BinaryTree (nil node)

variable {α : Type*}

/-- The nodes of a tree from left to right. -/
def inorder : BinaryTree α → List α
  | nil => []
  | node x l r => inorder l ++ x :: inorder r

/-- An empty tree has no nodes. -/
@[simp] theorem inorder_nil : inorder (nil : BinaryTree α) = [] := rfl

/-- The root is between its subtrees. -/
@[simp] theorem inorder_node (x : α) (l r : BinaryTree α) :
    inorder (node x l r) = inorder l ++ x :: inorder r := rfl

/-- The height of a tree is at most the number of its nodes. -/
theorem height_le_length (t : BinaryTree α) : t.height ≤ (inorder t).length := by
  induction t with
  | nil => simp [BinaryTree.height]
  | node x l r ihl ihr =>
    simp only [BinaryTree.height, inorder_node, List.length_append, List.length_cons]
    omega

/-- The link fields of a parent-linked binary tree. -/
@[ext] structure Links (α : Type*) where
  /-- The left child. -/
  left : α → Option α
  /-- The right child. -/
  right : α → Option α
  /-- The parent. -/
  parent : α → Option α

/-- From `root`, the links `L` spell the tree `t`, whose root has the parent link `par`. -/
def LinkedTree (L : Links α) : Option α → Option α → BinaryTree α → Prop
  | root, _, nil => root = none
  | root, par, node x l r =>
    root = some x ∧ L.parent x = par ∧ LinkedTree L (L.left x) (some x) l ∧
      LinkedTree L (L.right x) (some x) r

namespace LinkedTree

variable {L L' : Links α} {root par : Option α} {t : BinaryTree α} {x : α}

/-- The links spell the empty tree where there is no root. -/
@[simp] theorem nil_iff : LinkedTree L root par nil ↔ root = none := Iff.rfl

/-- The links spell a tree with a root where they spell both subtrees below it. -/
@[simp] theorem node_iff {l r : BinaryTree α} : LinkedTree L root par (node x l r) ↔
    root = some x ∧ L.parent x = par ∧ LinkedTree L (L.left x) (some x) l ∧
      LinkedTree L (L.right x) (some x) r := Iff.rfl

/-- The root of a linked tree is one of its nodes. -/
theorem root_mem (h : LinkedTree L (some x) par t) : x ∈ inorder t := by
  cases t with
  | nil => cases h
  | node y l r => cases h.1; simp

/-- A linked tree with no root is empty. -/
theorem eq_nil (h : LinkedTree L none par t) : t = nil := by
  cases t with
  | nil => rfl
  | node y l r => cases h.1

/-- A linked tree with a root is a node there. -/
theorem eq_node (h : LinkedTree L (some x) par t) : ∃ l r, t = node x l r := by
  cases t with
  | nil => cases h
  | node y l r => cases h.1; exact ⟨l, r, rfl⟩

/-- The frame rule: a linked tree depends only on the links of its own nodes. -/
theorem congr (h : LinkedTree L root par t) (hl : ∀ z ∈ inorder t, L'.left z = L.left z)
    (hr : ∀ z ∈ inorder t, L'.right z = L.right z)
    (hp : ∀ z ∈ inorder t, L'.parent z = L.parent z) : LinkedTree L' root par t := by
  induction t generalizing root par with
  | nil => exact h
  | node x l r ihl ihr =>
    simp only [inorder_node, List.mem_append, List.mem_cons] at hl hr hp
    -- The parent of the root, then each side with its own nodes.
    refine ⟨h.1, ?_, ?_, ?_⟩
    · rw [hp x (by simp)]; exact h.2.1
    · rw [hl x (by simp)]
      exact ihl h.2.2.1 (fun z hz => hl z (.inl hz)) (fun z hz => hr z (.inl hz))
        fun z hz => hp z (.inl hz)
    · rw [hr x (by simp)]
      exact ihr h.2.2.2 (fun z hz => hl z (.inr (.inr hz))) (fun z hz => hr z (.inr (.inr hz)))
        fun z hz => hp z (.inr (.inr hz))

end LinkedTree

/-! ## Link updates -/

namespace Links

variable [DecidableEq α]

/-- A left child set. -/
def setLeft (L : Links α) (x : α) (v : Option α) : Links α :=
  { L with left := Function.update L.left x v }

/-- A right child set. -/
def setRight (L : Links α) (x : α) (v : Option α) : Links α :=
  { L with right := Function.update L.right x v }

/-- A parent set. -/
def setParent (L : Links α) (x : α) (v : Option α) : Links α :=
  { L with parent := Function.update L.parent x v }

/-- The parent set of the node that `c` points to, if it points to one. -/
def setParentOf (L : Links α) (c v : Option α) : Links α :=
  match c with
  | none => L
  | some y => L.setParent y v

/-- What led to the child `old` of `par`, which is the root when there is no parent, leads to `new`:
the new root and the new links. -/
def replaceChild (L : Links α) (root par : Option α) (old : α) (new : Option α) :
    Option α × Links α :=
  match par with
  | none => (new, L)
  | some q => (root, if L.left q = some old then L.setLeft q new else L.setRight q new)

/-- A parent link is no left link. -/
@[simp] theorem setParentOf_left (L : Links α) (c v : Option α) :
    (L.setParentOf c v).left = L.left := by cases c <;> rfl

/-- A parent link is no right link. -/
@[simp] theorem setParentOf_right (L : Links α) (c v : Option α) :
    (L.setParentOf c v).right = L.right := by cases c <;> rfl

/-- Setting the parent of one node leaves the others' parents alone. -/
theorem setParentOf_parent_ne {L : Links α} {c v : Option α} {z : α} (hz : c ≠ some z) :
    (L.setParentOf c v).parent z = L.parent z := by
  cases c with
  | none => rfl
  | some y => exact Function.update_of_ne (fun h => hz (by rw [h])) _ _

/-- Only the links of the parent to its children are written. -/
@[simp] theorem replaceChild_parent (L : Links α) (root par : Option α) (old : α)
    (new : Option α) : (L.replaceChild root par old new).2.parent = L.parent := by
  cases par with
  | none => rfl
  | some q => simp only [replaceChild]; split <;> rfl

/-- Only the parent's child links change. -/
theorem replaceChild_left_ne {L : Links α} {root par new : Option α} {old z : α}
    (hz : par ≠ some z) : (L.replaceChild root par old new).2.left z = L.left z := by
  cases par with
  | none => rfl
  | some q =>
    have hq : z ≠ q := fun h => hz (by rw [h])
    simp only [replaceChild]
    split
    · exact Function.update_of_ne hq _ _
    · rfl

/-- Only the parent's child links change. -/
theorem replaceChild_right_ne {L : Links α} {root par new : Option α} {old z : α}
    (hz : par ≠ some z) : (L.replaceChild root par old new).2.right z = L.right z := by
  cases par with
  | none => rfl
  | some q =>
    have hq : z ≠ q := fun h => hz (by rw [h])
    simp only [replaceChild]
    split
    · rfl
    · exact Function.update_of_ne hq _ _

/-- The links of the nodes outside `xs` are the same. -/
def AgreeOff (L L' : Links α) (xs : List α) : Prop :=
  ∀ z ∉ xs, L'.left z = L.left z ∧ L'.right z = L.right z ∧ L'.parent z = L.parent z

namespace AgreeOff

variable {L L' L'' : Links α} {xs : List α} {x : α} {c v : Option α}

omit [DecidableEq α] in
/-- Two writes inside `xs` are one. -/
theorem trans (h : AgreeOff L L' xs) (h' : AgreeOff L' L'' xs) : AgreeOff L L'' xs := fun z hz =>
  ⟨(h' z hz).1.trans (h z hz).1, (h' z hz).2.1.trans (h z hz).2.1,
    (h' z hz).2.2.trans (h z hz).2.2⟩

/-- A left link of a node of `xs` is written. -/
theorem setLeft (hx : x ∈ xs) : AgreeOff L (L.setLeft x v) xs := fun _ hz =>
  ⟨Function.update_of_ne (ne_of_mem_of_not_mem hx hz).symm _ _, rfl, rfl⟩

/-- A right link of a node of `xs` is written. -/
theorem setRight (hx : x ∈ xs) : AgreeOff L (L.setRight x v) xs := fun _ hz =>
  ⟨rfl, Function.update_of_ne (ne_of_mem_of_not_mem hx hz).symm _ _, rfl⟩

/-- A parent link of a node of `xs` is written. -/
theorem setParent (hx : x ∈ xs) : AgreeOff L (L.setParent x v) xs := fun _ hz =>
  ⟨rfl, rfl, Function.update_of_ne (ne_of_mem_of_not_mem hx hz).symm _ _⟩

/-- The parent link of a child that is in `xs`, if there is one, is written. -/
theorem setParentOf (hc : ∀ y ∈ c, y ∈ xs) : AgreeOff L (L.setParentOf c v) xs := by
  cases c with
  | none => exact fun _ _ => ⟨rfl, rfl, rfl⟩
  | some y => exact setParent (hc y rfl)

/-- The link from a parent that is in `xs`, if there is one, is written. -/
theorem replaceChild {root par new : Option α} {old : α} (hp : ∀ y ∈ par, y ∈ xs) :
    AgreeOff L (L.replaceChild root par old new).2 xs := by
  cases par with
  | none => exact fun _ _ => ⟨rfl, rfl, rfl⟩
  | some q =>
    rw [Links.replaceChild]
    split
    · exact setLeft (hp q rfl)
    · exact setRight (hp q rfl)

end AgreeOff

end Links

/-! ## Contexts -/

/-- A tree with one subtree taken out. -/
inductive TreeCtx (α : Type*) where
  /-- The hole is the whole tree. -/
  | top
  /-- The hole is below `x` on the left, with the right subtree `r`. -/
  | left (c : TreeCtx α) (x : α) (r : BinaryTree α)
  /-- The hole is below `x` on the right, with the left subtree `l`. -/
  | right (c : TreeCtx α) (x : α) (l : BinaryTree α)

namespace TreeCtx

/-- A subtree put into the hole. -/
def plug : TreeCtx α → BinaryTree α → BinaryTree α
  | top, t => t
  | left c x r, t => plug c (node x t r)
  | right c x l, t => plug c (node x l t)

/-- The nodes to the left of the hole. -/
def before : TreeCtx α → List α
  | top => []
  | left c _ _ => before c
  | right c x l => before c ++ (inorder l ++ [x])

/-- The nodes to the right of the hole. -/
def after : TreeCtx α → List α
  | top => []
  | left c x r => x :: inorder r ++ after c
  | right c _ _ => after c

/-- The context of `c` with the context `d` in its hole. -/
def comp (c : TreeCtx α) : TreeCtx α → TreeCtx α
  | top => c
  | left d x r => left (comp c d) x r
  | right d x l => right (comp c d) x l

/-- A context in a context is a context. -/
theorem plug_comp (c d : TreeCtx α) (t : BinaryTree α) : (c.comp d).plug t = c.plug (d.plug t) := by
  induction d generalizing t with
  | top => rfl
  | left d x r ih => exact ih _
  | right d x l ih => exact ih _

/-- The nodes to the left of the hole of a context in a context. -/
theorem before_comp (c d : TreeCtx α) : (c.comp d).before = c.before ++ d.before := by
  induction d with
  | top => simp [comp, before]
  | left d x r ih => exact ih
  | right d x l ih => simp [comp, before, ih]

/-- The nodes to the right of the hole of a context in a context. -/
theorem after_comp (c d : TreeCtx α) : (c.comp d).after = d.after ++ c.after := by
  induction d with
  | top => simp [comp, after]
  | left d x r ih => simp [comp, after, ih]
  | right d x l ih => exact ih

/-- The nodes of a tree with a subtree put back: those to the left of the hole, those of the
subtree, and those to the right. -/
theorem inorder_plug (c : TreeCtx α) (t : BinaryTree α) :
    inorder (c.plug t) = c.before ++ inorder t ++ c.after := by
  induction c generalizing t with
  | top => simp [plug, before, after]
  | left c x r ih => simp [plug, before, after, ih]
  | right c x l ih => simp [plug, before, after, ih]

/-- Every node of a tree is the root of a subtree. -/
theorem exists_plug {t : BinaryTree α} {x : α} (hx : x ∈ inorder t) :
    ∃ (c : TreeCtx α) (l r : BinaryTree α), t = c.plug (node x l r) := by
  induction t with
  | nil => simp at hx
  | node y l r ihl ihr =>
    simp only [inorder_node, List.mem_append, List.mem_cons] at hx
    rcases hx with hx | rfl | hx
    · obtain ⟨c, l', r', rfl⟩ := ihl hx
      exact ⟨(left top y r).comp c, l', r', by rw [plug_comp]; rfl⟩
    · exact ⟨top, l, r, rfl⟩
    · obtain ⟨c, l', r', rfl⟩ := ihr hx
      exact ⟨(right top y l).comp c, l', r', by rw [plug_comp]; rfl⟩

end TreeCtx

open TreeCtx

/-- The links spell the context `c` from `root`, with `hole` where the subtree goes and `hpar` as
the parent link of the subtree's root. -/
def CtxLinked (L : Links α) (root par : Option α) : TreeCtx α → Option α → Option α → Prop
  | top, hole, hpar => root = hole ∧ par = hpar
  | left c x r, hole, hpar => hpar = some x ∧ L.left x = hole ∧
      LinkedTree L (L.right x) (some x) r ∧ CtxLinked L root par c (some x) (L.parent x)
  | right c x l, hole, hpar => hpar = some x ∧ L.right x = hole ∧
      LinkedTree L (L.left x) (some x) l ∧ CtxLinked L root par c (some x) (L.parent x)

namespace CtxLinked

variable {L L' : Links α} {root par hole hpar new : Option α} {c : TreeCtx α} {n x : α}

/-- A linked tree is a linked context around a linked subtree. -/
theorem plug_iff {t : BinaryTree α} : LinkedTree L root par (c.plug t) ↔
    ∃ hole hpar, CtxLinked L root par c hole hpar ∧ LinkedTree L hole hpar t := by
  induction c generalizing t with
  | top =>
    constructor
    · exact fun h => ⟨root, par, ⟨rfl, rfl⟩, h⟩
    · rintro ⟨_, _, ⟨rfl, rfl⟩, h⟩; exact h
  -- The innermost step of the context is split off, and the induction is on the rest.
  | left c x r ih =>
    rw [plug, ih]
    constructor
    · rintro ⟨_, _, hc, rfl, rfl, hl, hr⟩
      exact ⟨_, _, ⟨rfl, rfl, hr, hc⟩, hl⟩
    · rintro ⟨_, _, ⟨rfl, rfl, hr, hc⟩, hl⟩
      exact ⟨_, _, hc, rfl, rfl, hl, hr⟩
  | right c x l ih =>
    rw [plug, ih]
    constructor
    · rintro ⟨_, _, hc, rfl, rfl, hl, hr⟩
      exact ⟨_, _, ⟨rfl, rfl, hl, hc⟩, hr⟩
    · rintro ⟨_, _, ⟨rfl, rfl, hl, hc⟩, hr⟩
      exact ⟨_, _, hc, rfl, rfl, hl, hr⟩

/-- A context in the hole of a context. -/
theorem comp {d : TreeCtx α} {hole' hpar' : Option α} (h : CtxLinked L root par c hole hpar)
    (h' : CtxLinked L hole hpar d hole' hpar') : CtxLinked L root par (c.comp d) hole' hpar' := by
  induction d generalizing hole' hpar' with
  | top => obtain ⟨rfl, rfl⟩ := h'; exact h
  | left d x r ih => exact ⟨h'.1, h'.2.1, h'.2.2.1, ih h'.2.2.2⟩
  | right d x l ih => exact ⟨h'.1, h'.2.1, h'.2.2.1, ih h'.2.2.2⟩

/-- The parent of the hole is a node of the context. -/
theorem hpar_mem (h : CtxLinked L root none c hole (some x)) : x ∈ c.before ++ c.after := by
  cases c with
  | top => cases h.2
  | left c y r => cases h.1; simp [after]
  | right c y l => cases h.1; simp [TreeCtx.before]

/-- The frame rule for contexts. -/
theorem congr (h : CtxLinked L root par c hole hpar)
    (hl : ∀ z ∈ c.before ++ c.after, L'.left z = L.left z)
    (hr : ∀ z ∈ c.before ++ c.after, L'.right z = L.right z)
    (hp : ∀ z ∈ c.before ++ c.after, L'.parent z = L.parent z) :
    CtxLinked L' root par c hole hpar := by
  induction c generalizing hole hpar with
  | top => exact h
  | left c x r ih =>
    simp only [TreeCtx.before, TreeCtx.after, List.mem_append, List.mem_cons] at hl hr hp
    obtain ⟨h1, h2, h3, h4⟩ := h
    refine ⟨h1, by rw [hl x (by simp)]; exact h2, ?_, ?_⟩
    · rw [hr x (by simp)]
      exact h3.congr (fun z hz => hl z (by simp [hz])) (fun z hz => hr z (by simp [hz]))
        fun z hz => hp z (by simp [hz])
    · rw [hp x (by simp)]
      refine ih h4 (fun z hz => hl z ?_) (fun z hz => hr z ?_) (fun z hz => hp z ?_) <;>
        · rcases List.mem_append.mp hz with hz | hz <;> simp [hz]
  | right c x l ih =>
    simp only [TreeCtx.before, TreeCtx.after, List.mem_append, List.mem_cons] at hl hr hp
    obtain ⟨h1, h2, h3, h4⟩ := h
    refine ⟨h1, by rw [hr x (by simp)]; exact h2, ?_, ?_⟩
    · rw [hl x (by simp)]
      exact h3.congr (fun z hz => hl z (by simp [hz])) (fun z hz => hr z (by simp [hz]))
        fun z hz => hp z (by simp [hz])
    · rw [hp x (by simp)]
      refine ih h4 (fun z hz => hl z ?_) (fun z hz => hr z ?_) (fun z hz => hp z ?_) <;>
        · rcases List.mem_append.mp hz with hz | hz <;> simp [hz]

variable [DecidableEq α]

/-- Replacing the child at the hole: the context is spelled around the new child. -/
theorem replaceChild (h : CtxLinked L root none c (some n) hpar)
    (hnd : (c.before ++ c.after).Nodup) (hn : n ∉ c.before ++ c.after) :
    CtxLinked (L.replaceChild root hpar n new).2 (L.replaceChild root hpar n new).1 none c new
      hpar := by
  cases c with
  -- The hole is the root, and no node is written.
  | top =>
    obtain ⟨-, rfl⟩ := h
    exact ⟨rfl, rfl⟩
  | left c x r =>
    obtain ⟨rfl, hx, hr, hc⟩ := h
    simp only [TreeCtx.before, TreeCtx.after, List.mem_append, List.mem_cons, not_or, List.nodup_append,
      List.nodup_cons, List.cons_append] at hnd hn
    -- The left link of `x` is written, and `x` is at no other place of the tree.
    have hxr : ∀ z ∈ inorder r, z ≠ x := fun z hz hzx => hnd.2.1.1.1 (hzx ▸ hz)
    have hxc : ∀ z ∈ c.before ++ c.after, z ≠ x := by
      intro z hz hzx
      rcases List.mem_append.mp hz with hz | hz
      · exact hnd.2.2 z hz x (.inl rfl) hzx
      · exact hnd.2.1.1.2 (hzx ▸ hz)
    simp only [Links.replaceChild, hx, if_true]
    refine ⟨rfl, Function.update_self .., ?_, ?_⟩
    · exact hr.congr (fun z hz => Function.update_of_ne (hxr z hz) _ _) (fun _ _ => rfl)
        fun _ _ => rfl
    · exact hc.congr (fun z hz => Function.update_of_ne (hxc z hz) _ _) (fun _ _ => rfl)
        fun _ _ => rfl
  | right c x l =>
    obtain ⟨rfl, hx, hl, hc⟩ := h
    simp only [TreeCtx.before, TreeCtx.after, List.mem_append, List.mem_cons, not_or, List.nodup_append,
      List.nodup_cons] at hnd hn
    -- The right link of `x` is written, and `x` is at no other place of the tree.
    have hxl : ∀ z ∈ inorder l, z ≠ x := fun z hz => hnd.1.2.1.2.2 z hz x (by simp)
    have hxc : ∀ z ∈ c.before ++ c.after, z ≠ x := by
      intro z hz hzx
      rcases List.mem_append.mp hz with hz | hz
      · exact hnd.1.2.2 z hz x (by simp) hzx
      · exact hnd.2.2 x (by simp) z hz hzx.symm
    -- The left child of `x` is not `n`, so the right link is the one that is replaced.
    have hne : L.left x ≠ some n := fun hx' => by
      rw [hx'] at hl
      exact hn.1.2.1 hl.root_mem
    simp only [Links.replaceChild, if_neg hne]
    refine ⟨rfl, Function.update_self .., ?_, ?_⟩
    · exact hl.congr (fun _ _ => rfl) (fun z hz => Function.update_of_ne (hxl z hz) _ _)
        fun _ _ => rfl
    · exact hc.congr (fun _ _ => rfl) (fun z hz => Function.update_of_ne (hxc z hz) _ _)
        fun _ _ => rfl

end CtxLinked

/-! ## Surgery -/

section Surgery

variable [DecidableEq α] {L : Links α} {root par hpar : Option α} {c : TreeCtx α} {n x y : α}

/-- The root's parent link set. -/
theorem LinkedTree.setParentOf (par : Option α) {t : BinaryTree α} (h : LinkedTree L root par t)
    (hnd : (inorder t).Nodup) (v : Option α) : LinkedTree (L.setParentOf root v) root v t := by
  cases t with
  | nil => exact h
  | node x l r =>
    obtain ⟨rfl, -, hl, hr⟩ := h
    simp only [inorder_node, List.nodup_append, List.nodup_cons, List.mem_cons] at hnd
    have hxl : ∀ z ∈ inorder l, z ≠ x := fun z hz => hnd.2.2 z hz x (.inl rfl)
    have hxr : ∀ z ∈ inorder r, z ≠ x := fun z hz hzx => hnd.2.1.1 (hzx ▸ hz)
    refine ⟨rfl, Function.update_self .., ?_, ?_⟩
    · exact hl.congr (fun _ _ => rfl) (fun _ _ => rfl) fun z hz => Function.update_of_ne (hxl z hz) _ _
    · exact hr.congr (fun _ _ => rfl) (fun _ _ => rfl) fun z hz => Function.update_of_ne (hxr z hz) _ _

/-- A subtree spliced out of the tree: what led to the node `n` at the hole leads to the root of
`t`, whose parent link follows. It is the whole of deleting a node with at most one child, where
`t` is that child's subtree. -/
theorem CtxLinked.splice {t : BinaryTree α} {p q : Option α}
    (hc : CtxLinked L root none c (some n) hpar) (ht : LinkedTree L p q t)
    (hnd : (c.before ++ inorder t ++ c.after).Nodup) (hn : n ∉ c.before ++ c.after) :
    LinkedTree ((L.replaceChild root hpar n p).2.setParentOf p hpar)
      (L.replaceChild root hpar n p).1 none (c.plug t) := by
  have hdisj : ∀ z ∈ inorder t, z ∉ c.before ++ c.after := by
    intro z hz hz'
    simp only [List.nodup_append, List.mem_append] at hnd hz'
    rcases hz' with hz' | hz'
    · exact hnd.1.2.2 z hz' z hz rfl
    · exact hnd.2.2 z (.inr hz) z hz' rfl
  have hndc : (c.before ++ c.after).Nodup :=
    hnd.sublist ((List.sublist_append_left _ _).append (List.Sublist.refl _))
  have hndt : (inorder t).Nodup :=
    hnd.sublist ((List.sublist_append_right _ _).trans (List.sublist_append_left _ _))
  -- The node above the hole is not in `t`, so the write of its link leaves `t` alone.
  have hz : ∀ z ∈ inorder t, hpar ≠ some z := fun z hz h => by
    subst h; exact hdisj z hz hc.hpar_mem
  refine CtxLinked.plug_iff.mpr ⟨p, hpar, ?_, ?_⟩
  · refine (hc.replaceChild hndc hn).congr (fun _ _ => ?_) (fun _ _ => ?_) fun z hz => ?_
    · rw [Links.setParentOf_left]
    · rw [Links.setParentOf_right]
    · refine Links.setParentOf_parent_ne fun h => ?_
      subst h
      exact hdisj z ht.root_mem hz
  · refine LinkedTree.setParentOf q (ht.congr (fun z h => ?_) (fun z h => ?_)
      fun z h => ?_) hndt hpar
    · exact Links.replaceChild_left_ne (hz z h)
    · exact Links.replaceChild_right_ne (hz z h)
    · rw [Links.replaceChild_parent]

/-- A node `s` grafted in the place of `x`: what led to `x` leads to `s`, which takes over the
parent and the left subtree of `x` and keeps its own right subtree. It is the end of deleting a node
with two children, where `s` is its successor. -/
theorem CtxLinked.graft {l r : BinaryTree α} {s : α}
    (hc : CtxLinked L root none c (some x) hpar) (hl : LinkedTree L (L.left x) (some x) l)
    (hr : LinkedTree L (L.right s) (some s) r)
    (hnd : (c.before ++ (inorder l ++ x :: s :: inorder r) ++ c.after).Nodup) :
    LinkedTree ((((L.replaceChild root hpar x (some s)).2.setParent s hpar).setLeft s
        (L.left x)).setParentOf (L.left x) (some s))
      (L.replaceChild root hpar x (some s)).1 none (c.plug (node s l r)) := by
  have hndc : (c.before ++ c.after).Nodup :=
    hnd.sublist ((List.sublist_append_left _ _).append (List.Sublist.refl _))
  simp only [List.nodup_append, List.nodup_cons, List.mem_append, List.mem_cons, not_or] at hnd
  obtain ⟨⟨hb, ⟨hlnd, ⟨⟨hxs, hxr⟩, hsr, hrnd⟩, hlx⟩, hbm⟩, -, ha⟩ := hnd
  have hmid : ∀ z, z ∈ inorder l ∨ z = x ∨ z = s ∨ z ∈ inorder r → z ∉ c.before ++ c.after := by
    intro z hz hz'
    rcases List.mem_append.mp hz' with hz' | hz'
    · exact hbm z hz' z hz rfl
    · exact ha z (.inr hz) z hz' rfl
  have hzp : ∀ z, z ∈ inorder l ∨ z = x ∨ z = s ∨ z ∈ inorder r → hpar ≠ some z := fun z hz h => by
    subst h; exact hmid z hz hc.hpar_mem
  have hls : ∀ z ∈ inorder l, z ≠ s := fun z hz => hlx z hz s (.inr (.inl rfl))
  have hlr : ∀ z ∈ inorder l, z ∉ inorder r := fun z hz hz' => hlx z hz z (.inr (.inr hz')) rfl
  have hrs : ∀ z ∈ inorder r, z ≠ s := fun z hz h => hsr (h ▸ hz)
  -- The parent links that the last step touches are those of the left subtree's root.
  have hroot : ∀ z, z ∉ inorder l → L.left x ≠ some z := fun z hz h => by
    rw [h] at hl; exact hz hl.root_mem
  refine CtxLinked.plug_iff.mpr ⟨some s, hpar, ?_, rfl, ?_, ?_, ?_⟩
  · have hcs : ∀ z ∈ c.before ++ c.after, z ≠ s := fun z hz h => hmid s (by simp) (h ▸ hz)
    refine (hc.replaceChild hndc (hmid x (by simp))).congr (fun z hz => ?_) (fun z hz => ?_)
      fun z hz => ?_
    · rw [Links.setParentOf_left]; exact Function.update_of_ne (hcs z hz) _ _
    · rw [Links.setParentOf_right]; rfl
    · rw [Links.setParentOf_parent_ne (hroot z fun h => hmid z (.inl h) hz)]
      exact Function.update_of_ne (hcs z hz) _ _
  · rw [Links.setParentOf_parent_ne (hroot s fun h => hls s h rfl)]
    exact Function.update_self ..
  · rw [Links.setParentOf_left]
    simp only [Links.setLeft, Function.update_self]
    refine LinkedTree.setParentOf (some x) (hl.congr (fun z hz => ?_) (fun z hz => ?_)
      fun z hz => ?_) hlnd (some s)
    · exact (Function.update_of_ne (hls z hz) _ _).trans
        (Links.replaceChild_left_ne (hzp z (.inl hz)))
    · exact Links.replaceChild_right_ne (hzp z (.inl hz))
    · refine (Function.update_of_ne (hls z hz) _ _).trans ?_
      rw [Links.replaceChild_parent]
  · rw [Links.setParentOf_right]
    change LinkedTree _ ((L.replaceChild root hpar x (some s)).2.right s) (some s) r
    rw [Links.replaceChild_right_ne (hzp s (by simp))]
    refine hr.congr (fun z hz => ?_) (fun z hz => ?_) fun z hz => ?_
    · rw [Links.setParentOf_left]
      exact (Function.update_of_ne (hrs z hz) _ _).trans
        (Links.replaceChild_left_ne (hzp z (by simp [hz])))
    · rw [Links.setParentOf_right]
      exact Links.replaceChild_right_ne (hzp z (by simp [hz]))
    · rw [Links.setParentOf_parent_ne (hroot z fun h => hlr z h hz)]
      refine (Function.update_of_ne (hrs z hz) _ _).trans ?_
      rw [Links.replaceChild_parent]

/-- The successor `s` of a node `n` with two children, taken out of the right subtree of `n`, where
it is not the root: its parent `y` adopts its right subtree `v`, and then it adopts the rest of the
right subtree of `n`. Everything else is spelled as before. -/
theorem CtxLinked.detach {d : TreeCtx α} {l v : BinaryTree α} {s : α}
    (hc : CtxLinked L root none c (some n) (L.parent n)) (hl : LinkedTree L (L.left n) (some n) l)
    (hd : CtxLinked L (L.right n) (some n) d (some s) (some y)) (hb : d.before = [])
    (hv : LinkedTree L (L.right s) (some s) v)
    (hnd : (c.before ++ (inorder l ++ n :: s :: inorder (d.plug v)) ++ c.after).Nodup) :
    let L₁ := (L.replaceChild none (some y) s (L.right s)).2.setParentOf (L.right s) (some y)
    let L₂ := (L₁.setRight s (L₁.right n)).setParentOf (L₁.right n) (some s)
    CtxLinked L₂ root none c (some n) (L.parent n) ∧ L₂.parent n = L.parent n ∧
      LinkedTree L₂ (L₂.left n) (some n) l ∧ LinkedTree L₂ (L₂.right s) (some s) (d.plug v) := by
  intro L₁ L₂
  have hC := (show CtxLinked L root none (right c n l) (L.right n) (some n) from
    ⟨rfl, rfl, hl, hc⟩).comp hd
  have hbC : ((right c n l).comp d).before = c.before ++ (inorder l ++ [n]) := by
    rw [before_comp, hb, List.append_nil]; rfl
  have haC : ((right c n l).comp d).after = d.after ++ c.after := after_comp _ _
  have hplug : ((right c n l).comp d).plug v = c.plug (node n l (d.plug v)) := plug_comp _ _ _
  have hnd' : (s :: inorder (((right c n l).comp d).plug v)).Nodup := by
    refine (List.Perm.nodup_iff ?_).mp hnd
    rw [hplug, inorder_plug c, inorder_node]
    simp only [List.append_assoc, List.cons_append]
    have : List.Perm (c.before ++ (inorder l ++ [n]) ++ s :: (inorder (d.plug v) ++ c.after)) _ :=
      List.perm_middle
    simpa only [List.append_assoc, List.cons_append, List.nil_append] using this
  obtain ⟨hs, hndC⟩ := List.nodup_cons.mp hnd'
  have hsplice : LinkedTree L₁ root none (((right c n l).comp d).plug v) := by
    refine hC.splice hv (by rwa [inorder_plug] at hndC) fun hm => hs ?_
    rw [inorder_plug]
    simp only [List.mem_append] at hm ⊢
    tauto
  rw [hplug] at hsplice hs hndC
  have hsne : ∀ z, z ∈ inorder (c.plug (node n l (d.plug v))) → z ≠ s := fun z hz h => hs (h ▸ hz)
  rw [inorder_plug c, inorder_node] at hndC
  simp only [inorder_plug c, inorder_node] at hsne
  simp only [List.nodup_append, List.nodup_cons, List.mem_append, List.mem_cons] at hndC
  obtain ⟨⟨-, ⟨-, ⟨hnv, hvnd⟩, hlv⟩, hcl⟩, -, hca⟩ := hndC
  obtain ⟨hole, hp, hc₁, rfl, hp₁, hl₁, hr₁⟩ := CtxLinked.plug_iff.mp hsplice
  -- The parent of `n` is not touched: it would have to be the root of `v`.
  have hpn : L₁.parent n = L.parent n := by
    refine (Links.setParentOf_parent_ne fun h => hnv ?_).trans (by rw [Links.replaceChild_parent])
    rw [h] at hv
    rw [inorder_plug]
    simp [hv.root_mem]
  rw [← hp₁, hpn] at hc₁
  -- Neither are the parents outside the right subtree of `n`.
  have hroot : ∀ z, z ∉ inorder (d.plug v) → L₁.right n ≠ some z := fun z hz h => by
    rw [h] at hr₁; exact hz hr₁.root_mem
  have hpar : ∀ z, z ∉ inorder (d.plug v) → L₂.parent z = L₁.parent z := fun z hz =>
    Links.setParentOf_parent_ne (hroot z hz)
  have hleft : L₂.left = L₁.left := Links.setParentOf_left _ _ _
  have hright : L₂.right = Function.update L₁.right s (L₁.right n) := Links.setParentOf_right _ _ _
  refine ⟨hc₁.congr (fun z _ => by rw [hleft]) (fun z hz => ?_) fun z hz => hpar z ?_, ?_, ?_, ?_⟩
  · rw [hright]
    exact Function.update_of_ne (hsne z (by simp only [List.mem_append] at hz ⊢; tauto)) _ _
  · intro hzv
    rcases List.mem_append.mp hz with hz | hz
    · exact hcl z hz z (.inr (.inr hzv)) rfl
    · exact hca z (.inr (.inr (.inr hzv))) z hz rfl
  · rw [hpar n hnv, hpn]
  · rw [hleft]
    refine hl₁.congr (fun z _ => by rw [hleft]) (fun z hz => ?_) fun z hz => hpar z ?_
    · rw [hright]
      exact Function.update_of_ne (hsne z (by simp [hz])) _ _
    · exact fun hzv => hlv z hz z (.inr hzv) rfl
  · rw [hright, Function.update_self]
    have hr₂ : LinkedTree (L₁.setRight s (L₁.right n)) (L₁.right n) (some n) (d.plug v) :=
      hr₁.congr (fun _ _ => rfl)
        (fun z hz => Function.update_of_ne (hsne z (by simp [hz])) _ _) fun _ _ => rfl
    exact hr₂.setParentOf (some n) hvnd (some s)

/-- A leaf attached below `y` at an empty hole, on the side that the hole is on. -/
theorem CtxLinked.attach (hc : CtxLinked L root none c none (some y)) (hp : L.parent n = some y)
    (hl : L.left n = none) (hr : L.right n = none) (hnd : (c.before ++ n :: c.after).Nodup) :
    (y ∈ c.after → LinkedTree (L.setLeft y (some n)) root none (c.plug (node n nil nil))) ∧
      (y ∈ c.before → LinkedTree (L.setRight y (some n)) root none (c.plug (node n nil nil))) := by
  cases c with
  -- The hole has a node above it, so it is not at the top.
  | top => cases hc.2
  | left c z r =>
    obtain ⟨hzy, hx, hr', hc'⟩ := hc
    obtain rfl : y = z := Option.some.inj hzy
    simp only [TreeCtx.before, TreeCtx.after, List.nodup_append, List.nodup_cons, List.mem_append,
      List.mem_cons,
      not_or, List.cons_append] at hnd
    obtain ⟨-, ⟨⟨hny, hnr, -⟩, ⟨hyr, hya⟩, -⟩, hb⟩ := hnd
    -- A left hole: `y` comes after it, and not before.
    have hyb : y ∉ c.before := fun h => hb y h y (by simp) rfl
    refine ⟨fun _ => ?_, fun h => absurd h hyb⟩
    have hry : ∀ z ∈ inorder r, z ≠ y := fun z hz h => hyr (h ▸ hz)
    refine CtxLinked.plug_iff.mpr ⟨some n, some y, ⟨rfl, Function.update_self .., ?_, ?_⟩,
      rfl, hp, ?_, hr⟩
    · exact hr'.congr (fun z hz => Function.update_of_ne (hry z hz) _ _) (fun _ _ => rfl)
        fun _ _ => rfl
    · refine hc'.congr (fun z hz => Function.update_of_ne (fun h => ?_) _ _) (fun _ _ => rfl)
        fun _ _ => rfl
      subst h
      exact (List.mem_append.mp hz).elim hyb hya
    · exact (Function.update_of_ne hny _ _).trans hl
  | right c z l =>
    obtain ⟨hzy, hx, hl', hc'⟩ := hc
    obtain rfl : y = z := Option.some.inj hzy
    simp only [TreeCtx.before, TreeCtx.after, List.nodup_append, List.nodup_cons, List.mem_append,
      List.mem_cons]
      at hnd
    obtain ⟨⟨-, ⟨-, -, hly⟩, hby⟩, -, ha⟩ := hnd
    -- A right hole: `y` comes before it, and not after.
    have hya : y ∉ c.after := fun h => ha y (.inr (.inr (.inl rfl))) y (.inr h) rfl
    have hyb : y ∉ c.before := fun h => hby y h y (by simp) rfl
    have hny : n ≠ y := fun h => ha y (.inr (.inr (.inl rfl))) n (.inl rfl) h.symm
    refine ⟨fun h => absurd h hya, fun _ => ?_⟩
    have hly' : ∀ z ∈ inorder l, z ≠ y := fun z hz => hly z hz y (by simp)
    refine CtxLinked.plug_iff.mpr ⟨some n, some y, ⟨rfl, Function.update_self .., ?_, ?_⟩,
      rfl, hp, hl, ?_⟩
    · exact hl'.congr (fun _ _ => rfl) (fun z hz => Function.update_of_ne (hly' z hz) _ _)
        fun _ _ => rfl
    · refine hc'.congr (fun _ _ => rfl) (fun z hz => Function.update_of_ne (fun h => ?_) _ _)
        fun _ _ => rfl
      subst h
      exact (List.mem_append.mp hz).elim hyb hya
    · exact (Function.update_of_ne hny _ _).trans hr

end Surgery

/-- The first node of a tree in order has no left child, and nothing is to its left. -/
theorem exists_plug_head {t : BinaryTree α} {s : α} {rest : List α} (h : inorder t = s :: rest)
    (hnd : (inorder t).Nodup) :
    ∃ (c : TreeCtx α) (r : BinaryTree α), t = c.plug (node s nil r) ∧ c.before = [] := by
  obtain ⟨c, l, r, rfl⟩ := TreeCtx.exists_plug (t := t) (x := s) (by simp [h])
  rw [inorder_plug, inorder_node] at h hnd
  -- The node splits the listing, in which it is first, so nothing comes before it.
  have hnil : c.before ++ inorder l = [] := by
    rcases hb : c.before ++ inorder l with _ | ⟨z, zs⟩
    · rfl
    · rw [← List.append_assoc, hb] at h hnd
      obtain rfl : z = s := by simpa using congrArg List.head? h
      simp at hnd
  obtain ⟨hb, hl⟩ := List.append_eq_nil_iff.mp hnil
  refine ⟨c, r, ?_, hb⟩
  cases l with
  | nil => rfl
  | node y l r => simp at hl

end MatchingEngine.Lib
