import MatchingEngine.C.Frame

/-!
# The price trees

`tree_find`, `tree_insert`, `tree_remove`, and the walks to the two ends, on a heap in order. The
pointer operations are the link operations of `Lib/LinkedTree.lean`, whose surgery lemmas then give
the tree after them.

The searches go down the tree by the prices (`treeFind_eq`, `treeDescend_eq`), so they are
inductions on the tree that the links spell, with its height as the fuel that is needed. An
insertion attaches a leaf at the hole where the descent ends (`treeInsert_eq`). A removal splices
out a node with at most one child, or puts the successor in the place of one with two
(`treeUnlink_eq`). The last section is about the two trees of the engine, which share the level
rows: an operation on one of them leaves the other, because no level is in both.
-/

namespace MatchingEngine.C

open Lib Contract

open BinaryTree (nil node)

variable {db db' db'' : EngineDb} {g : Shape} {n l : LevelPtr} {root par : Option LevelPtr}
  {t : BinaryTree LevelPtr} {price : UInt64}

namespace EngineDb

/-- The levels of a list ascend strictly in price. -/
def Ascending (db : EngineDb) (xs : List LevelPtr) : Prop :=
  xs.Pairwise fun l m => (db.levels l).price < (db.levels m).price

/-! ## Walks -/

/-- Searching a tree whose prices ascend finds the node with the price. -/
theorem treeFind_eq : ∀ {root par : Option LevelPtr} {fuel : ℕ}, LinkedTree db.links root par t →
    db.Ascending (inorder t) → t.height < fuel → ∃ r, db.treeFind price fuel root = some r ∧
      match r with
      | none => ∀ l ∈ inorder t, (db.levels l).price ≠ price
      | some l => l ∈ inorder t ∧ (db.levels l).price = price := by
  induction t with
  | nil =>
    intro root par fuel h _ hf
    cases h
    cases fuel with
    | zero => simp at hf
    | succ fuel => exact ⟨none, rfl, by simp⟩
  | node x l r ihl ihr =>
    intro root par fuel h hs hf
    obtain ⟨rfl, -, hl, hr⟩ := h
    rw [Ascending, inorder_node, List.pairwise_append, List.pairwise_cons] at hs
    obtain ⟨hsl, ⟨hxr, hsr⟩, hlx⟩ := hs
    cases fuel with
    | zero => simp at hf
    | succ fuel =>
      simp only [BinaryTree.height] at hf
      rw [treeFind]
      -- Found at this node, or the search goes on to the one side that can have the price.
      by_cases heq : price = (db.levels x).price
      · rw [if_pos heq]
        exact ⟨some x, rfl, by simp, heq.symm⟩
      rw [if_neg heq]
      by_cases hlt : price < (db.levels x).price
      · rw [if_pos hlt]
        obtain ⟨res, hres, hspec⟩ := ihl hl hsl (show l.height < fuel by omega)
        refine ⟨res, hres, ?_⟩
        cases res with
        | none =>
          intro m hm hmp
          simp only [inorder_node, List.mem_append, List.mem_cons] at hm
          rcases hm with hm | rfl | hm
          -- On the left by the induction, on the right every price is larger.
          · exact hspec m hm hmp
          · exact heq hmp.symm
          · have := hxr m hm
            grind
        | some m => exact ⟨by simp [hspec.1], hspec.2⟩
      · rw [if_neg hlt]
        obtain ⟨res, hres, hspec⟩ := ihr hr hsr (show r.height < fuel by omega)
        refine ⟨res, hres, ?_⟩
        cases res with
        | none =>
          intro m hm hmp
          simp only [inorder_node, List.mem_append, List.mem_cons] at hm
          rcases hm with hm | rfl | hm
          -- On the left every price is smaller, on the right by the induction.
          · have := hlx m hm x List.mem_cons_self
            grind
          · exact heq hmp.symm
          · exact hspec m hm hmp
        | some m => exact ⟨by simp [hspec.1], hspec.2⟩

/-- The descent of an insertion ends at an empty hole between the smaller and the larger prices. -/
theorem treeDescend_eq : ∀ {root par : Option LevelPtr} {fuel : ℕ},
    LinkedTree db.links root par t → db.Ascending (inorder t) →
    (∀ l ∈ inorder t, (db.levels l).price ≠ price) → t.height < fuel →
    ∃ c hpar, db.treeDescend price fuel par root = some hpar ∧ t = c.plug nil ∧
      CtxLinked db.links root par c none hpar ∧ (∀ l ∈ c.before, (db.levels l).price < price) ∧
      ∀ l ∈ c.after, price < (db.levels l).price := by
  induction t with
  | nil =>
    intro root par fuel h _ _ hf
    cases h
    cases fuel with
    | zero => simp at hf
    | succ fuel => exact ⟨.top, par, rfl, rfl, ⟨rfl, rfl⟩, by simp [TreeCtx.before],
        by simp [TreeCtx.after]⟩
  | node x l r ihl ihr =>
    intro root par fuel h hs hne hf
    obtain ⟨rfl, hpar, hl, hr⟩ := h
    rw [Ascending, inorder_node, List.pairwise_append, List.pairwise_cons] at hs
    obtain ⟨hsl, ⟨hxr, hsr⟩, hlx⟩ := hs
    have hx := hne x (by simp)
    cases fuel with
    | zero => simp at hf
    | succ fuel =>
      simp only [BinaryTree.height] at hf
      rw [treeDescend]
      by_cases hlt : price < (db.levels x).price
      · rw [if_pos hlt]
        obtain ⟨c, hp, hres, hplug, hctx, hb, ha⟩ := ihl hl hsl
          (fun m hm => hne m (by simp [hm])) (show l.height < fuel by omega)
        -- To the left: this node and its right side come after the hole.
        refine ⟨(TreeCtx.left .top x r).comp c, hp, hres, ?_, ?_, ?_, ?_⟩
        · rw [TreeCtx.plug_comp, ← hplug]; rfl
        · exact CtxLinked.comp ⟨rfl, rfl, hr, rfl, hpar.symm⟩ hctx
        · rw [TreeCtx.before_comp]
          simpa [TreeCtx.before] using hb
        · rw [TreeCtx.after_comp]
          intro m hm
          simp only [TreeCtx.after, List.mem_append, List.mem_cons, List.append_nil] at hm
          rcases hm with hm | rfl | hm
          · exact ha m hm
          · exact hlt
          · have := hxr m hm
            grind
      · rw [if_neg hlt]
        have hgt : (db.levels x).price < price := by grind
        obtain ⟨c, hp, hres, hplug, hctx, hb, ha⟩ := ihr hr hsr
          (fun m hm => hne m (by simp [hm])) (show r.height < fuel by omega)
        -- To the right: this node and its left side come before the hole.
        refine ⟨(TreeCtx.right .top x l).comp c, hp, hres, ?_, ?_, ?_, ?_⟩
        · rw [TreeCtx.plug_comp, ← hplug]; rfl
        · exact CtxLinked.comp ⟨rfl, rfl, hl, rfl, hpar.symm⟩ hctx
        · rw [TreeCtx.before_comp]
          intro m hm
          simp only [TreeCtx.before, List.mem_append, List.nil_append, List.mem_singleton] at hm
          rcases hm with (hm | rfl) | hm
          · have := hlx m hm x List.mem_cons_self
            grind
          · exact hgt
          · exact hb m hm
        · rw [TreeCtx.after_comp]
          simpa [TreeCtx.after] using ha

/-- The walk to the left ends at the first node. -/
theorem treeLeftmost_eq : ∀ {x : LevelPtr} {par : Option LevelPtr} {fuel : ℕ},
    LinkedTree db.links (some x) par t → t.height ≤ fuel →
      db.treeLeftmost fuel x = (inorder t).head? := by
  induction t with
  | nil => intro x par fuel h; cases h
  | node y l r ihl _ =>
    intro x par fuel h hf
    obtain ⟨hxy, -, hl, -⟩ := h
    obtain rfl : x = y := Option.some.inj hxy
    simp only [BinaryTree.height] at hf
    cases fuel with
    | zero => omega
    | succ fuel =>
      cases hleft : db.links.left x with
      | none =>
        -- No left child: this is the first node.
        have hmatch : (db.levels x).tree_left = none := hleft
        rw [hleft] at hl
        rw [hl.eq_nil, treeLeftmost, hmatch]; rfl
      | some z =>
        have hmatch : (db.levels x).tree_left = some z := hleft
        rw [hleft] at hl
        rw [treeLeftmost, hmatch]
        -- The first node of a left side that is not empty is the first of the whole.
        refine (ihl hl (by omega)).trans ?_
        obtain ⟨l₁, l₂, rfl⟩ := hl.eq_node
        simp

/-- The walk to the right ends at the last node. -/
theorem treeRightmost_eq : ∀ {x : LevelPtr} {par : Option LevelPtr} {fuel : ℕ},
    LinkedTree db.links (some x) par t → t.height ≤ fuel →
      db.treeRightmost fuel x = (inorder t).getLast? := by
  induction t with
  | nil => intro x par fuel h; cases h
  | node y l r _ ihr =>
    intro x par fuel h hf
    obtain ⟨hxy, -, -, hr⟩ := h
    obtain rfl : x = y := Option.some.inj hxy
    simp only [BinaryTree.height] at hf
    cases fuel with
    | zero => omega
    | succ fuel =>
      cases hright : db.links.right x with
      | none =>
        -- No right child: this is the last node.
        have hmatch : (db.levels x).tree_right = none := hright
        rw [hright] at hr
        rw [hr.eq_nil, treeRightmost, hmatch]; simp
      | some z =>
        have hmatch : (db.levels x).tree_right = some z := hright
        rw [hright] at hr
        rw [treeRightmost, hmatch]
        -- The last node of a right side that is not empty is the last of the whole.
        refine (ihr hr (by omega)).trans ?_
        obtain ⟨l₁, l₂, rfl⟩ := hr.eq_node
        rw [inorder_node x, List.append_cons, List.getLast?_append_of_ne_nil _ (by simp)]

/-! ## Link updates -/

/-- From `db` to `db'`, only links of trees are written. -/
structure LinksOnly (db db' : EngineDb) : Prop where
  globals : db' = { db with levels := db'.levels }
  levels : ∀ l, db'.levels l = { db.levels l with
    tree_parent := db'.links.parent l
    tree_left := db'.links.left l
    tree_right := db'.links.right l }

namespace LinksOnly

/-- Two writes of links are one. -/
theorem trans (h : LinksOnly db db') (h' : LinksOnly db' db'') : LinksOnly db db'' where
  globals := h'.globals.trans (by rw [h.globals])
  levels l := (h'.levels l).trans (by rw [h.levels l])

/-- Nothing is written. -/
theorem refl : LinksOnly db db := ⟨rfl, fun _ => rfl⟩

/-- An update of the links of a level. -/
theorem setLevel {f : PriceLevel → PriceLevel} (hf : ∀ v, f v = { v with
    tree_parent := (f v).tree_parent, tree_left := (f v).tree_left
    tree_right := (f v).tree_right }) : LinksOnly db (db.setLevel l f) where
  globals := rfl
  levels m := by
    change (db.setLevel l f).levels m = { db.levels m with
      tree_parent := ((db.setLevel l f).levels m).tree_parent
      tree_left := ((db.setLevel l f).levels m).tree_left
      tree_right := ((db.setLevel l f).levels m).tree_right }
    rw [EngineDb.setLevel_levels_apply]
    split
    · subst_vars; exact hf _
    · rfl

/-- A level whose links stay is the same. -/
theorem levels_eq (h : LinksOnly db db') (hl : db'.links.left l = db.links.left l)
    (hr : db'.links.right l = db.links.right l) (hp : db'.links.parent l = db.links.parent l) :
    db'.levels l = db.levels l := by
  rw [h.levels l, hl, hr, hp]; rfl

/-- The flags stay. -/
theorem intree (h : LinksOnly db db') (l : LevelPtr) :
    (db'.levels l).tree_intree = (db.levels l).tree_intree := by rw [h.levels l]

/-- The links are a part of the trees. -/
theorem treeOnly (h : LinksOnly db db') : TreeOnly db db' where
  globals := h.globals.trans (by rw [h.globals])
  levels l := (h.levels l).trans (by rw [h.levels l])

end LinksOnly

/-- `tree_left` is written. -/
theorem links_setLeft (v : Option LevelPtr) :
    (db.setLevel l fun w => { w with tree_left := v }).links = db.links.setLeft l v := by
  refine Links.ext (funext fun m => ?_) (funext fun m => ?_) (funext fun m => ?_) <;>
    simp only [links, Links.setLeft, setLevel_levels_apply, Function.update_apply] <;> split <;>
    simp_all

/-- `tree_right` is written. -/
theorem links_setRight (v : Option LevelPtr) :
    (db.setLevel l fun w => { w with tree_right := v }).links = db.links.setRight l v := by
  refine Links.ext (funext fun m => ?_) (funext fun m => ?_) (funext fun m => ?_) <;>
    simp only [links, Links.setRight, setLevel_levels_apply, Function.update_apply] <;> split <;>
    simp_all

/-- `tree_parent` is written. -/
theorem links_setParent (v : Option LevelPtr) :
    (db.setLevel l fun w => { w with tree_parent := v }).links = db.links.setParent l v := by
  refine Links.ext (funext fun m => ?_) (funext fun m => ?_) (funext fun m => ?_) <;>
    simp only [links, Links.setParent, setLevel_levels_apply, Function.update_apply] <;> split <;>
    simp_all

/-- `setParentOf` is the link operation. -/
theorem links_setParentOf (c v : Option LevelPtr) :
    (db.setParentOf c v).links = db.links.setParentOf c v := by
  cases c with
  | none => rfl
  | some y => exact links_setParent v

/-- The parent link of a child is written, if there is a child. -/
theorem setParentOf_only (c v : Option LevelPtr) : LinksOnly db (db.setParentOf c v) := by
  cases c <;> rw [setParentOf]
  · exact .refl
  · exact .setLevel fun _ => rfl

/-- `replaceChild` is the link operation. -/
theorem links_replaceChild (db : EngineDb) (root par : Option LevelPtr) (old : LevelPtr)
    (new : Option LevelPtr) :
    (db.replaceChild root par old new).1 = (db.links.replaceChild root par old new).1 ∧
      (db.replaceChild root par old new).2.links = (db.links.replaceChild root par old new).2 := by
  cases par with
  | none => exact ⟨rfl, rfl⟩
  | some q =>
    rw [replaceChild, Links.replaceChild]
    by_cases hq : (db.levels q).tree_left = some old
    · rw [if_pos hq, if_pos (show db.links.left q = some old from hq)]
      exact ⟨rfl, links_setLeft _⟩
    · rw [if_neg hq, if_neg (show ¬ db.links.left q = some old from hq)]
      exact ⟨rfl, links_setRight _⟩

/-- The link to a child is written in its parent, or it becomes the root. -/
theorem replaceChild_only (db : EngineDb) (root par : Option LevelPtr) (old : LevelPtr)
    (new : Option LevelPtr) :
    LinksOnly db (db.replaceChild root par old new).2 := by
  cases par with
  | none => exact .refl
  | some q =>
    rw [replaceChild]
    split
    · exact .setLevel (f := fun v => { v with tree_left := new }) fun _ => rfl
    · exact .setLevel (f := fun v => { v with tree_right := new }) fun _ => rfl

/-! ## Unlinking -/

/-- Levels whose links agree off `xs` agree off `xs`. -/
theorem LinksOnly.levels_off {xs : List LevelPtr} (h : LinksOnly db db')
    (ha : db.links.AgreeOff db'.links xs) (hl : l ∉ xs) : db'.levels l = db.levels l :=
  h.levels_eq (ha l hl).1 (ha l hl).2.1 (ha l hl).2.2

/-- The part of `tree_remove` for a node with at most one child, whose subtree is `u`. -/
theorem spliceChild_eq {c : TreeCtx LevelPtr} {u : BinaryTree LevelPtr} {hpar child q : Option LevelPtr}
    (hc : CtxLinked db.links root none c (some n) hpar) (hu : LinkedTree db.links child q u)
    (hnd : (c.before ++ inorder u ++ c.after).Nodup) (hn : n ∉ c.before ++ c.after) :
    let r := db.replaceChild root hpar n child
    LinksOnly db (r.2.setParentOf child hpar) ∧
      LinkedTree (r.2.setParentOf child hpar).links r.1 none (c.plug u) ∧
      db.links.AgreeOff (r.2.setParentOf child hpar).links (inorder (c.plug u)) := by
  obtain ⟨hroot, hlinks⟩ := links_replaceChild db root hpar n child
  -- The nodes of the result are the nodes before the hole, those of the child, and those after.
  have hmem : ∀ {z}, z ∈ c.before ++ c.after ∨ z ∈ inorder u → z ∈ inorder (c.plug u) := by
    intro z hz
    rw [TreeCtx.inorder_plug]
    simp only [List.mem_append] at hz ⊢
    tauto
  refine ⟨(replaceChild_only db root hpar n child).trans (setParentOf_only _ _), ?_, ?_⟩
  · rw [links_setParentOf, hlinks, hroot]
    exact hc.splice hu hnd hn
  · rw [links_setParentOf, hlinks]
    refine (Links.AgreeOff.replaceChild fun y hy => hmem (.inl ?_)).trans
      (.setParentOf fun y hy => hmem (.inr ?_))
    · rw [Option.mem_def.mp hy] at hc
      exact hc.hpar_mem
    · rw [Option.mem_def.mp hy] at hu
      exact hu.root_mem

/-- `graftSucc` puts `s` in the place of `n`. -/
theorem graftSucc_eq {c : TreeCtx LevelPtr} {u v : BinaryTree LevelPtr} {hpar : Option LevelPtr}
    {s : LevelPtr} (hc : CtxLinked db.links root none c (some n) hpar)
    (hpar_n : db.links.parent n = hpar) (hu : LinkedTree db.links (db.links.left n) (some n) u)
    (hv : LinkedTree db.links (db.links.right s) (some s) v)
    (hnd : (c.before ++ (inorder u ++ n :: s :: inorder v) ++ c.after).Nodup) :
    LinksOnly db (db.graftSucc root n s).2 ∧
      LinkedTree (db.graftSucc root n s).2.links (db.graftSucc root n s).1 none
        (c.plug (node s u v)) ∧
      db.links.AgreeOff (db.graftSucc root n s).2.links (inorder (c.plug (node s u v))) := by
  obtain ⟨hroot, hlinks⟩ := links_replaceChild db root hpar n (some s)
  have honly := replaceChild_only db root hpar n (some s)
  have hne : hpar ≠ some n := fun h => by
    subst h
    have hmem := hc.hpar_mem
    simp only [List.nodup_append, List.mem_append, List.mem_cons] at hnd
    rcases List.mem_append.mp hmem with hm | hm
    · exact hnd.1.2.2 n hm n (by simp) rfl
    · exact hnd.2.2 n (by simp) n hm rfl
  set r := db.replaceChild root hpar n (some s) with hr
  -- The reads of `n` in the later steps see its old links.
  have hp : (r.2.levels n).tree_parent = hpar := by
    change r.2.links.parent n = hpar
    rw [hlinks, Links.replaceChild_parent, hpar_n]
  have hl : r.2.links.left n = db.links.left n := by
    rw [hlinks, Links.replaceChild_left_ne hne]
  have hgraft : db.graftSucc root n s = (r.1, ((r.2.setLevel s fun w =>
      { w with tree_parent := hpar }).setLevel s fun w =>
      { w with tree_left := db.links.left n }).setParentOf (db.links.left n) (some s)) := by
    have hlp : (db.levels n).tree_parent = hpar := hpar_n
    simp only [graftSucc, hlp, ← hr, hp]
    have hl' : ((r.2.setLevel s fun w => { w with tree_parent := hpar }).levels n).tree_left =
        db.links.left n := by
      rw [← hl]
      change ((r.2.setLevel s fun w => { w with tree_parent := hpar }).links).left n = _
      rw [links_setParent]; rfl
    rw [hl', setLevel_levels_self]
  have hmem : ∀ {z}, z ∈ c.before ++ c.after ∨ z ∈ inorder u ∨ z = s →
      z ∈ inorder (c.plug (node s u v)) := by
    intro z hz
    rw [TreeCtx.inorder_plug, inorder_node]
    simp only [List.mem_append, List.mem_cons] at hz ⊢
    tauto
  rw [hgraft]
  refine ⟨?_, ?_, ?_⟩
  · exact honly.trans <| (LinksOnly.setLevel fun _ => rfl).trans <|
      (LinksOnly.setLevel fun _ => rfl).trans (setParentOf_only _ _)
  · rw [links_setParentOf, links_setLeft, links_setParent, hlinks, hroot]
    exact hc.graft hu hv hnd
  · rw [links_setParentOf, links_setLeft, links_setParent, hlinks]
    refine (Links.AgreeOff.replaceChild fun y hy => hmem (.inl ?_)).trans <|
      (Links.AgreeOff.setParent (hmem (.inr (.inr rfl)))).trans <|
      (Links.AgreeOff.setLeft (hmem (.inr (.inr rfl)))).trans <|
      .setParentOf fun y hy => hmem (.inr (.inl ?_))
    · rw [Option.mem_def.mp hy] at hc
      exact hc.hpar_mem
    · rw [Option.mem_def.mp hy] at hu
      exact hu.root_mem

/-- `detachSucc` leaves the successor `s` of `n` out of the tree, with the rest of the right subtree
of `n` as its own right subtree. -/
theorem detachSucc_eq {c d : TreeCtx LevelPtr} {u v : BinaryTree LevelPtr} {hpar : Option LevelPtr}
    {s : LevelPtr} (hc : CtxLinked db.links root none c (some n) hpar)
    (hpar_n : db.links.parent n = hpar) (hu : LinkedTree db.links (db.links.left n) (some n) u)
    (hr : LinkedTree db.links (db.links.right n) (some n) (d.plug (node s nil v)))
    (hd : d.before = [])
    (hnd : (c.before ++ (inorder u ++ n :: s :: inorder (d.plug v)) ++ c.after).Nodup) :
    ∃ db', db.detachSucc n s = some db' ∧ LinksOnly db db' ∧
      CtxLinked db'.links root none c (some n) hpar ∧ db'.links.parent n = hpar ∧
      LinkedTree db'.links (db'.links.left n) (some n) u ∧
      LinkedTree db'.links (db'.links.right s) (some s) (d.plug v) ∧
      db.links.AgreeOff db'.links (s :: inorder (d.plug v)) := by
  obtain ⟨hole, hp, hdc, rfl, hsp, -, hv⟩ := CtxLinked.plug_iff.mp hr
  have hmem := hnd
  rw [TreeCtx.inorder_plug] at hmem
  simp only [List.nodup_append, List.nodup_cons, List.mem_append, List.mem_cons, not_or] at hmem
  obtain ⟨⟨-, ⟨-, ⟨⟨-, ⟨-, -⟩, hna⟩, ⟨⟨-, -⟩, hsa⟩, -⟩, -⟩, -⟩, -, -⟩ := hmem
  by_cases hpn : hp = some n
  · -- The successor is the right child: its parent would otherwise be in the right subtree.
    subst hpn
    obtain rfl : d = .top := by
      cases d with
      | top => rfl
      | left d y w => cases hdc.1; simp [TreeCtx.after] at hna
      | right d y w => simp [TreeCtx.before] at hd
    have hsp' : (db.levels s).tree_parent = some n := hsp
    exact ⟨db, by simp [detachSucc, hsp'], .refl, hc, hpar_n, hu, hv, fun _ _ => ⟨rfl, rfl, rfl⟩⟩
  obtain ⟨y, rfl⟩ : ∃ y, hp = some y := by
    cases d with
    | top => exact absurd hdc.2.symm hpn
    | left d y w => exact ⟨y, hdc.1⟩
    | right d y w => exact ⟨y, hdc.1⟩
  have hye : y ∈ d.after := by
    cases d with
    | top => exact absurd hdc.2.symm hpn
    | left d z w => cases hdc.1; simp [TreeCtx.after]
    | right d y w => simp [TreeCtx.before] at hd
  have hys : y ≠ s := fun h => hsa (h ▸ hye)
  obtain ⟨-, hlinks⟩ := links_replaceChild db none (some y) s (db.links.right s)
  have honly := replaceChild_only db none (some y) s (db.links.right s)
  subst hpar_n
  have hdetach := CtxLinked.detach hc hu hdc hd hv hnd
  set db₁ := (db.replaceChild none (some y) s (db.links.right s)).2 with hdb₁
  have hlinks₁ : (db₁.setParentOf (db.links.right s) (some y)).links =
      (db.links.replaceChild none (some y) s (db.links.right s)).2.setParentOf
        (db.links.right s) (some y) := by rw [links_setParentOf, hlinks]
  set db₂ := db₁.setParentOf (db.links.right s) (some y) with hdb₂
  set db₃ := db₂.setLevel s fun w => { w with tree_right := db₂.links.right n } with hdb₃
  -- The reads of `s` between the steps see its old links.
  have hright₁ : (db₁.levels s).tree_right = db.links.right s := by
    change db₁.links.right s = _
    rw [hlinks, Links.replaceChild_right_ne (by simpa using hys)]
  have hparent₁ : (db₁.levels s).tree_parent = some y := by
    change db₁.links.parent s = _
    rw [hlinks, Links.replaceChild_parent, hsp]
  have hcode : db.detachSucc n s = some (db₃.setParentOf (db₂.links.right n) (some s)) := by
    have hsp' : (db.levels s).tree_parent = some y := hsp
    have hright : (db.levels s).tree_right = db.links.right s := rfl
    have hright₃ : (db₃.levels s).tree_right = db₂.links.right n := by
      rw [hdb₃, setLevel_levels_self]
    simp only [detachSucc, hsp', if_neg hpn, hright, Option.bind_eq_bind, Option.bind_some,
      ← hdb₁, hright₁, hparent₁, ← hdb₂]
    exact congrArg (fun v => some (db₃.setParentOf v (some s))) hright₃
  have hlinks₃ : (db₃.setParentOf (db₂.links.right n) (some s)).links =
      (db₂.links.setRight s (db₂.links.right n)).setParentOf (db₂.links.right n) (some s) := by
    rw [links_setParentOf, hdb₃, links_setRight]
  refine ⟨_, hcode, ?_, ?_⟩
  · exact honly.trans <| (setParentOf_only _ _).trans <|
      (LinksOnly.setLevel (f := fun w => { w with tree_right := db₂.links.right n })
        fun _ => rfl).trans (setParentOf_only _ _)
  · rw [← hlinks₁] at hdetach
    obtain ⟨h₁, h₂, h₃, h₄⟩ := hdetach
    rw [hlinks₃]
    refine ⟨h₁, h₂, h₃, h₄, ?_⟩
    have hagree : db.links.AgreeOff db₂.links (s :: inorder (d.plug v)) := by
      rw [hlinks₁]
      refine (Links.AgreeOff.replaceChild fun z hz => ?_).trans (.setParentOf fun z hz => ?_)
      · obtain rfl : y = z := Option.some.inj hz
        rw [TreeCtx.inorder_plug]
        simp [hye]
      · rw [Option.mem_def.mp hz] at hv
        rw [TreeCtx.inorder_plug]
        simp [hv.root_mem]
    refine hagree.trans <| (Links.AgreeOff.setRight List.mem_cons_self).trans <|
      .setParentOf fun z hz => List.mem_cons_of_mem _ ?_
    rw [Links.setParentOf_right] at h₄
    simp only [Links.setRight, Function.update_self] at h₄
    rw [Option.mem_def.mp hz] at h₄
    exact h₄.root_mem

/-- `tree_remove`, up to the clearing of the node's links, takes the node out of the tree and keeps
the order of the others. -/
theorem treeUnlink_eq (h : LinkedTree db.links root none t) (hnd : (inorder t).Nodup)
    (hn : n ∈ inorder t) (hf : (inorder t).length ≤ db.levelFuel) :
    ∃ root' db' t', db.treeUnlink root n = some (root', db') ∧ LinksOnly db db' ∧
      LinkedTree db'.links root' none t' ∧ inorder t' = (inorder t).erase n ∧
      db.links.AgreeOff db'.links (inorder t) := by
  obtain ⟨c, u, w, rfl⟩ := TreeCtx.exists_plug hn
  obtain ⟨hole, hpar, hc, rfl, hpn, hu, hw⟩ := CtxLinked.plug_iff.mp h
  rw [TreeCtx.inorder_plug, inorder_node] at hnd hf ⊢
  have hmem := hnd
  simp only [List.nodup_append, List.nodup_cons, List.mem_append, List.mem_cons] at hmem
  obtain ⟨⟨-, ⟨-, ⟨hnw, hwnd⟩, hun⟩, hbn⟩, -, han⟩ := hmem
  have hnb : n ∉ c.before := fun hm => hbn n hm n (by simp) rfl
  have hna : n ∉ c.after := fun hm => han n (by simp) n hm rfl
  have hnu : n ∉ inorder u := fun hm => hun n hm n (by simp) rfl
  have hnc : n ∉ c.before ++ c.after := fun hm => (List.mem_append.mp hm).elim hnb hna
  have herase : (c.before ++ (inorder u ++ n :: inorder w) ++ c.after).erase n =
      c.before ++ (inorder u ++ inorder w) ++ c.after := by
    rw [List.append_assoc, List.erase_append_right _ hnb, List.append_assoc,
      List.erase_append_right _ hnu, List.cons_append, List.erase_cons_head]
    simp only [List.append_assoc]
  have hparent : (db.levels n).tree_parent = hpar := hpn
  -- What the one-child cases share: the child's subtree `v` goes up.
  have hsplice : ∀ {child q} {v : BinaryTree LevelPtr}, LinkedTree db.links child q v →
      inorder v = inorder u ++ inorder w → ∃ root' db' t',
        some ((db.replaceChild root hpar n child).1,
          (db.replaceChild root hpar n child).2.setParentOf child
            ((db.replaceChild root hpar n child).2.levels n).tree_parent) = some (root', db') ∧
        LinksOnly db db' ∧ LinkedTree db'.links root' none t' ∧
        inorder t' = (c.before ++ (inorder u ++ n :: inorder w) ++ c.after).erase n ∧
        db.links.AgreeOff db'.links (c.before ++ (inorder u ++ n :: inorder w) ++ c.after) := by
    intro child q v hv hvi
    have hkeep : ((db.replaceChild root hpar n child).2.levels n).tree_parent = hpar := by
      change (db.replaceChild root hpar n child).2.links.parent n = hpar
      rw [(links_replaceChild _ _ _ n child).2, Links.replaceChild_parent, hpn]
    have hnd' : (c.before ++ inorder v ++ c.after).Nodup := by
      rw [hvi, ← herase]; exact hnd.erase n
    obtain ⟨honly, hlink, hagree⟩ := spliceChild_eq hc hv hnd' hnc
    rw [hkeep]
    refine ⟨_, _, c.plug v, rfl, honly, hlink, ?_, fun z hz => hagree z fun hm => hz ?_⟩
    · rw [TreeCtx.inorder_plug, hvi, herase]
    · rw [TreeCtx.inorder_plug, hvi, ← herase] at hm
      exact List.mem_of_mem_erase hm
  cases hleft : db.links.left n with
  | none =>
    have hl : (db.levels n).tree_left = none := hleft
    rw [hleft] at hu
    rw [treeUnlink, hl]
    simp only [hparent]
    exact hsplice hw (by rw [hu.eq_nil]; rfl)
  | some x =>
    have hl : (db.levels n).tree_left = some x := hleft
    cases hright : db.links.right n with
    | none =>
      have hr : (db.levels n).tree_right = none := hright
      rw [hright] at hw
      rw [treeUnlink, hl, hr]
      simp only [hparent]
      exact hsplice (hleft ▸ hu) (by rw [hw.eq_nil]; simp)
    | some y =>
      have hr : (db.levels n).tree_right = some y := hright
      have hwy := hw
      rw [hright] at hwy
      obtain ⟨s, rest, hs⟩ : ∃ s rest, inorder w = s :: rest := by
        obtain ⟨w₁, w₂, rfl⟩ := hwy.eq_node
        exact List.exists_cons_of_ne_nil (by simp)
      obtain ⟨d, v, rfl, hd⟩ := exists_plug_head hs hwnd
      have hinw : inorder (d.plug (node s nil v)) = s :: inorder (d.plug v) := by
        rw [TreeCtx.inorder_plug, TreeCtx.inorder_plug, hd]; rfl
      rw [hinw] at hnd hf herase ⊢
      have hsucc : db.treeLeftmost db.levelFuel y = some s := by
        rw [treeLeftmost_eq hwy ((height_le_length _).trans ?_), hinw, List.head?_cons]
        rw [hinw]
        simp only [List.length_append, List.length_cons] at hf ⊢
        omega
      obtain ⟨db', hdet, honly, hc', hpn', hu', hv', hagree⟩ :=
        detachSucc_eq hc hpn hu hw hd hnd
      obtain ⟨honly', hlink, hagree'⟩ := graftSucc_eq hc' hpn' hu' hv' hnd
      refine ⟨_, _, _, ?_, honly.trans honly', hlink, ?_, ?_⟩
      · rw [treeUnlink, hl, hr]
        simp only [hsucc, hdet, Option.bind_eq_bind, Option.bind_some]
        rfl
      · rw [TreeCtx.inorder_plug, inorder_node, herase]
      · intro z hz
        have hz₁ := hagree z fun hm => hz (by simp only [List.mem_append, List.mem_cons] at hm ⊢; tauto)
        have hz₂ := hagree' z fun hm => hz (by
          rw [TreeCtx.inorder_plug, inorder_node] at hm
          simp only [List.mem_append, List.mem_cons] at hm ⊢; tauto)
        exact ⟨hz₂.1.trans hz₁.1, hz₂.2.1.trans hz₁.2.1, hz₂.2.2.trans hz₁.2.2⟩

/-! ## Insertion -/

/-- `tree_insert` puts a level whose price is new into its place in the order. -/
theorem treeInsert_eq (h : LinkedTree db.links root none t) (hs : db.Ascending (inorder t))
    (hnew : ∀ l ∈ inorder t, (db.levels l).price ≠ (db.levels n).price) (hn : n ∉ inorder t)
    (hf : (inorder t).length < db.levelFuel) (hnd : (inorder t).Nodup) :
    ∃ root' db' t' as bs, db.treeInsert root n = some (root', db') ∧ TreeOnly db db' ∧
      LinkedTree db'.links root' none t' ∧ inorder t = as ++ bs ∧ inorder t' = as ++ n :: bs ∧
      (∀ l ∈ as, (db.levels l).price < (db.levels n).price) ∧
      (∀ l ∈ bs, (db.levels n).price < (db.levels l).price) ∧
      (∀ z ∉ n :: inorder t, db'.levels z = db.levels z) ∧
      (∀ z, (db'.levels z).tree_intree = if z = n then true else (db.levels z).tree_intree) ∧
      db'.root = db.root ∧ db'.treeN = db.treeN := by
  set db₁ := db.setLevel n fun v =>
    { v with tree_left := none, tree_right := none, tree_parent := none, tree_intree := true }
    with hdb₁
  have honly₁ : TreeOnly db db₁ := TreeOnly.setLevel fun _ => rfl
  have hsame : ∀ z, z ≠ n → db₁.levels z = db.levels z := fun z hz => by
    rw [hdb₁, setLevel_levels_apply, if_neg hz]
  have hself : db₁.levels n = { db.levels n with
      tree_left := none, tree_right := none, tree_parent := none, tree_intree := true } := by
    rw [hdb₁, setLevel_levels_self]
  have hprice : ∀ z, (db₁.levels z).price = (db.levels z).price := honly₁.price
  have hne : ∀ z ∈ inorder t, z ≠ n := fun z hz hzn => hn (hzn ▸ hz)
  have h₁ : LinkedTree db₁.links root none t :=
    h.congr (fun z hz => congrArg PriceLevel.tree_left (hsame z (hne z hz)))
      (fun z hz => congrArg PriceLevel.tree_right (hsame z (hne z hz)))
      fun z hz => congrArg PriceLevel.tree_parent (hsame z (hne z hz))
  have hflag₁ : ∀ z, (db₁.levels z).tree_intree =
      if z = n then true else (db.levels z).tree_intree := by
    intro z
    split
    · subst_vars; rw [hself]
    · rw [hsame z ‹_›]
  cases root with
  | none =>
    obtain rfl := h.eq_nil
    refine ⟨some n, db₁, node n nil nil, [], [], by simp [treeInsert, ← hdb₁], honly₁, ?_, rfl, rfl,
      by simp, by simp, fun z hz => hsame z (by simpa using hz), hflag₁, rfl, rfl⟩
    exact ⟨rfl, congrArg PriceLevel.tree_parent hself, congrArg PriceLevel.tree_left hself,
      congrArg PriceLevel.tree_right hself⟩
  | some x =>
    have hs₁ : db₁.Ascending (inorder t) := by
      refine hs.imp fun {a b} hab => ?_
      rw [hprice, hprice]; exact hab
    obtain ⟨c, hp, hdesc, rfl, hctx, hb, ha⟩ := treeDescend_eq h₁ hs₁
      (show ∀ l ∈ inorder t, (db₁.levels l).price ≠ (db₁.levels n).price from
        fun l hl => by rw [hprice, hprice]; exact hnew l hl)
      (show t.height < db₁.levelFuel from lt_of_le_of_lt (height_le_length _) hf)
    obtain ⟨y, rfl⟩ : ∃ y, hp = some y := by
      cases c with
      | top => cases hctx.1
      | left c y r => exact ⟨y, hctx.1⟩
      | right c y r => exact ⟨y, hctx.1⟩
    rw [TreeCtx.inorder_plug, inorder_nil, List.append_nil] at hn hne hnd ⊢
    have hy := hctx.hpar_mem
    have hyn : y ≠ n := hne y hy
    set db₂ := db₁.setLevel n fun v => { v with tree_parent := some y } with hdb₂
    have hlinks₂ : db₂.links = db₁.links.setParent n (some y) := links_setParent _
    have hprice₂ : ∀ z, (db₂.levels z).price = (db.levels z).price := fun z => by
      rw [← hprice z, hdb₂, setLevel_levels_apply]; split
      · subst_vars; rfl
      · rfl
    have hnd' : (c.before ++ n :: c.after).Nodup := by
      rw [List.nodup_middle]
      exact List.nodup_cons.mpr ⟨hn, hnd⟩
    have hctx₂ : CtxLinked db₂.links (some x) none c none (some y) := by
      rw [hlinks₂]
      refine hctx.congr (fun _ _ => rfl) (fun _ _ => rfl) fun z hz => ?_
      exact Function.update_of_ne (hne z hz) _ _
    have hattach := hctx₂.attach (n := n) (by rw [hlinks₂]; exact Function.update_self ..)
      (by rw [hlinks₂]; exact congrArg PriceLevel.tree_left hself)
      (by rw [hlinks₂]; exact congrArg PriceLevel.tree_right hself) hnd'
    have honly₂ : LinksOnly db₁ db₂ := LinksOnly.setLevel fun _ => rfl
    have hbefore : ∀ l ∈ c.before, (db.levels l).price < (db.levels n).price := fun l hl => by
      rw [← hprice l, ← hprice n]; exact hb l hl
    have hafter : ∀ l ∈ c.after, (db.levels n).price < (db.levels l).price := fun l hl => by
      rw [← hprice l, ← hprice n]; exact ha l hl
    -- Both sides end with one link of the parent written.
    have hfinish : ∀ db₃, LinksOnly db₂ db₃ → LinkedTree db₃.links (some x) none
        (c.plug (node n nil nil)) → db₂.links.AgreeOff db₃.links [y] →
        db.treeInsert (some x) n = some (some x, db₃) →
        ∃ root' db' t' as bs, db.treeInsert (some x) n = some (root', db') ∧ TreeOnly db db' ∧
          LinkedTree db'.links root' none t' ∧ c.before ++ c.after = as ++ bs ∧
          inorder t' = as ++ n :: bs ∧ (∀ l ∈ as, (db.levels l).price < (db.levels n).price) ∧
          (∀ l ∈ bs, (db.levels n).price < (db.levels l).price) ∧
          (∀ z ∉ n :: (c.before ++ c.after), db'.levels z = db.levels z) ∧
          (∀ z, (db'.levels z).tree_intree = if z = n then true else (db.levels z).tree_intree) ∧
          db'.root = db.root ∧ db'.treeN = db.treeN := by
      intro db₃ honly₃ hlink hagree hcode
      refine ⟨_, _, _, c.before, c.after, hcode,
        honly₁.trans (honly₂.treeOnly.trans honly₃.treeOnly), hlink, rfl, ?_, hbefore, hafter,
        fun z hz => ?_, fun z => ?_, ?_, ?_⟩
      · rw [TreeCtx.inorder_plug]; simp
      · rw [List.mem_cons, not_or] at hz
        have hzy : z ∉ [y] := by
          rw [List.mem_singleton]; exact fun hzy => hz.2 (hzy ▸ hy)
        rw [honly₃.levels_off hagree hzy, hdb₂, setLevel_levels_apply, if_neg hz.1, hsame z hz.1]
      · rw [honly₃.intree, honly₂.intree, hflag₁]
      · rw [honly₃.globals]; rfl
      · rw [honly₃.globals]; rfl
    have hlt : (db₂.levels n).price < (db₂.levels y).price ↔ y ∈ c.after := by
      rw [hprice₂, hprice₂]
      refine ⟨fun hlt => ?_, hafter y⟩
      rcases List.mem_append.mp hy with hy | hy
      · have := hbefore y hy
        grind
      · exact hy
    have hcode : db.treeInsert (some x) n =
        if (db₂.levels n).price < (db₂.levels y).price then
          some (some x, db₂.setLevel y fun v => { v with tree_left := some n })
        else some (some x, db₂.setLevel y fun v => { v with tree_right := some n }) := by
      simp only [treeInsert, ← hdb₁, hdesc, Option.bind_eq_bind, Option.bind_some, ← hdb₂]
      rfl
    by_cases hside : (db₂.levels n).price < (db₂.levels y).price
    · rw [if_pos hside] at hcode
      refine hfinish _ (LinksOnly.setLevel fun _ => rfl) ?_ ?_ hcode
      · rw [links_setLeft]; exact hattach.1 (hlt.mp hside)
      · rw [links_setLeft]; exact Links.AgreeOff.setLeft (by simp)
    · rw [if_neg hside] at hcode
      refine hfinish _ (LinksOnly.setLevel fun _ => rfl) ?_ ?_ hcode
      · rw [links_setRight]
        exact hattach.2 ((List.mem_append.mp hy).resolve_right fun hm => hside (hlt.mpr hm))
      · rw [links_setRight]; exact Links.AgreeOff.setRight (by simp)

/-! ## The two trees -/

/-- `EngineDb_bids_Find` or `EngineDb_asks_Find`. -/
def findIn (db : EngineDb) : Tree → UInt64 → Option (Option LevelPtr)
  | .bids => db.bidsFind
  | .asks => db.asksFind

/-- `EngineDb_bids_Insert` or `EngineDb_asks_Insert`. -/
def insertIn (db : EngineDb) : Tree → LevelPtr → Option EngineDb
  | .bids => db.bidsInsert
  | .asks => db.asksInsert

/-- `EngineDb_bids_Remove` or `EngineDb_asks_Remove`. -/
def removeFrom (db : EngineDb) : Tree → LevelPtr → Option EngineDb
  | .bids => db.bidsRemove
  | .asks => db.asksRemove

/-- `EngineDb_bids_Best` or `EngineDb_asks_Best`. -/
def bestOf (db : EngineDb) : Tree → Option (Option LevelPtr)
  | .bids => db.bidsBest
  | .asks => db.asksBest

/-- The root and the counter of a tree set. -/
def setRoot (db : EngineDb) (root : Option LevelPtr) (n : UInt32) : Tree → EngineDb
  | .bids => { db with bids_root := root, bids_n := n }
  | .asks => { db with asks_root := root, asks_n := n }

/-- `EngineDb_*_Best` on a tree whose links are in order. -/
theorem bestOf_linked (t : Tree) (u : BinaryTree LevelPtr) :
    LinkedTree db.links (db.root t) none u → u.height ≤ db.levelFuel →
    db.bestOf t = some (match t with
      | .bids => (inorder u).getLast?
      | .asks => (inorder u).head?) := by
  intro hlink hf
  cases t with
  -- The best bid is the rightmost node.
  | bids =>
    rw [bestOf, bidsBest]
    change LinkedTree _ db.bids_root _ _ at hlink
    cases hr : db.bids_root with
    | none => rw [hr] at hlink; rw [hlink.eq_nil]; rfl
    | some x =>
      rw [hr] at hlink
      have hbest := treeRightmost_eq hlink hf
      obtain ⟨l₁, l₂, heq⟩ := hlink.eq_node
      simp only [hbest]
      rw [heq, inorder_node]
      cases hlast : (inorder l₁ ++ x :: inorder l₂).getLast? with
      | none => simp at hlast
      | some z => rfl
  -- The best ask is the leftmost node.
  | asks =>
    rw [bestOf, asksBest]
    change LinkedTree _ db.asks_root _ _ at hlink
    cases hr : db.asks_root with
    | none => rw [hr] at hlink; rw [hlink.eq_nil]; rfl
    | some x =>
      rw [hr] at hlink
      have hbest := treeLeftmost_eq hlink hf
      obtain ⟨l₁, l₂, heq⟩ := hlink.eq_node
      simp only [hbest]
      rw [heq, inorder_node]
      cases hfirst : (inorder l₁ ++ x :: inorder l₂).head? with
      | none => simp at hfirst
      | some z => rfl

/-- The search of one side is that of a tree. -/
theorem findIn_eq (t : Tree) (price : UInt64) :
    db.findIn t price = db.treeFind price db.levelFuel (db.root t) := by cases t <;> rfl

/-- The insertion on one side is that into a tree, which becomes one level larger. -/
theorem insertIn_eq (t : Tree) : db.insertIn t l = (db.treeInsert (db.root t) l).bind fun r =>
    some (r.2.setRoot r.1 (r.2.treeN t + 1) t) := by cases t <;> rfl

/-- The removal on one side is that from a tree, which becomes one level smaller. -/
theorem removeFrom_eq (t : Tree) : db.removeFrom t l =
    (db.treeRemove (db.root t) l).bind fun r =>
      some (r.2.setRoot r.1 (if r.2.treeN t > 0 then r.2.treeN t - 1 else r.2.treeN t) t) := by
  cases t <;> rfl

/-- A root and its counter are a part of the trees. -/
theorem setRoot_only (root : Option LevelPtr) (m : UInt32) (t : Tree) :
    TreeOnly db (db.setRoot root m t) := by
  cases t <;> exact ⟨rfl, fun _ => rfl⟩

/-- A root is no level. -/
@[simp] theorem setRoot_levels (root : Option LevelPtr) (m : UInt32) (t : Tree) :
    (db.setRoot root m t).levels = db.levels := by cases t <;> rfl

/-- The root of a side is written. -/
theorem setRoot_root (root : Option LevelPtr) (m : UInt32) (s t : Tree) :
    (db.setRoot root m t).root s = if s = t then root else db.root s := by
  cases s <;> cases t <;> rfl

/-- The counter of a side is written. -/
theorem setRoot_treeN (root : Option LevelPtr) (m : UInt32) (s t : Tree) :
    (db.setRoot root m t).treeN s = if s = t then m else db.treeN s := by
  cases s <;> cases t <;> rfl

/-- A root is no link. -/
theorem setRoot_links (root : Option LevelPtr) (m : UInt32) (t : Tree) :
    (db.setRoot root m t).links = db.links := by cases t <;> rfl

end EngineDb

/-- There are two sides. -/
theorem eq_other {s t : Tree} (h : s ≠ t) : s = t.other := by
  cases s <;> cases t <;> first | rfl | exact absurd rfl h

namespace Rep

/-- The trees share no node. -/
theorem tree_disjoint (h : Rep db g) {s t : Tree} (hst : s ≠ t) (hs : l ∈ inorder (g.tree s)) :
    l ∉ inorder (g.tree t) := by
  cases s <;> cases t
  · exact absurd rfl hst
  · exact h.trees.disjoint l hs
  · exact fun ht => h.trees.disjoint l ht hs
  · exact absurd rfl hst

/-- A tree has fewer levels than the walks have fuel. -/
theorem tree_length_lt (h : Rep db g) (t : Tree) : (inorder (g.tree t)).length < db.levelFuel :=
  Nat.lt_succ_of_le (h.tree_length_le t)

/-- One tree changes: the links from its new root spell `u`, whose nodes are live and in order, and
the levels outside are as they were. -/
theorem of_tree {t : Tree} {u : BinaryTree LevelPtr} {root : Option LevelPtr} {m : UInt32}
    {xs : List LevelPtr} (h : Rep db g) (ho : TreeOnly db db')
    (hlink : LinkedTree db'.links root none u)
    (hs : db.Ascending (inorder u)) (hm : m.toNat = (inorder u).length)
    (hroot : db'.root = db.root) (hn : db'.treeN = db.treeN)
    (hoff : ∀ z ∉ xs, db'.levels z = db.levels z)
    (hxs : ∀ z ∈ xs, z ∉ inorder (g.tree t.other))
    (hu : ∀ z ∈ inorder u, z ∉ inorder (g.tree t.other))
    (hflag : ∀ z, (db'.levels z).tree_intree ↔ z ∈ inorder u ∨ z ∈ inorder (g.tree t.other))
    (hlive : ∀ z ∈ inorder u, z ∈ db.liveLevels) :
    Rep (db'.setRoot root m t) { g with tree := Function.update g.tree t u } := by
  have hprice : ∀ z, ((db'.setRoot root m t).levels z).price = (db.levels z).price := fun z => by
    rw [EngineDb.setRoot_levels]; exact ho.price z
  refine h.of_trees ⟨fun s => ?_, fun s => ?_, fun s => ?_, fun z => ?_, fun z => ?_⟩ (fun s => ?_)
    (ho.trans (EngineDb.setRoot_only root m t))
  · rw [EngineDb.setRoot_root, EngineDb.setRoot_links, Function.update_apply]
    -- The other tree is spelled by the same links, since no node of it was written.
    by_cases hst : s = t
    · rw [if_pos hst, if_pos hst]; exact hlink
    · rw [if_neg hst, if_neg hst, hroot]
      have hsame : ∀ z ∈ inorder (g.tree s), db'.levels z = db.levels z := fun z hz =>
        hoff z fun hzx => hxs z hzx (eq_other hst ▸ hz)
      exact (h.trees.linked s).congr (fun z hz => congrArg PriceLevel.tree_left (hsame z hz))
        (fun z hz => congrArg PriceLevel.tree_right (hsame z hz))
        fun z hz => congrArg PriceLevel.tree_parent (hsame z hz)
  · simp only [hprice]
    rw [Function.update_apply]
    split
    · exact hs
    · exact h.trees.sorted s
  · rw [EngineDb.setRoot_treeN, Function.update_apply]
    -- Only the counter of the tree itself is set.
    by_cases hst : s = t
    · rw [if_pos hst, if_pos hst, hm]
    · rw [if_neg hst, if_neg hst, hn]; exact h.trees.count s
  · rw [EngineDb.setRoot_levels, hflag]
    -- The flag is set on the nodes of the two trees, and on no others.
    constructor
    · rintro (hz | hz)
      · exact ⟨t, by rwa [Function.update_self]⟩
      · refine ⟨t.other, ?_⟩
        rwa [Function.update_of_ne (by cases t <;> simp [Tree.other])]
    · rintro ⟨s, hz⟩
      rw [Function.update_apply] at hz
      split at hz
      · exact .inl hz
      · exact .inr (eq_other ‹_› ▸ hz)
  · intro hb ha
    -- No level is in both trees.
    cases t
    · rw [Function.update_self] at hb
      rw [Function.update_of_ne (by simp)] at ha
      exact hu z hb ha
    · rw [Function.update_of_ne (by simp)] at hb
      rw [Function.update_self] at ha
      exact hu z ha hb
  · rw [Function.update_apply]
    split
    · exact hlive
    · exact h.tree_live s

/-- `EngineDb_*_Find` returns the level of the tree with the price. -/
theorem findIn (h : Rep db g) (t : Tree) (price : UInt64) : ∃ r, db.findIn t price = some r ∧
    match r with
    | none => ∀ l ∈ inorder (g.tree t), (db.levels l).price ≠ price
    | some l => l ∈ inorder (g.tree t) ∧ (db.levels l).price = price := by
  rw [EngineDb.findIn_eq]
  exact EngineDb.treeFind_eq (h.trees.linked t) (h.trees.sorted t)
    (lt_of_le_of_lt (height_le_length _) (h.tree_length_lt t))

/-- `EngineDb_*_Best` returns the last level of the bids in order, or the first of the asks. -/
theorem bestOf_eq (h : Rep db g) (t : Tree) : db.bestOf t = some (match t with
    | .bids => (inorder (g.tree t)).getLast?
    | .asks => (inorder (g.tree t)).head?) :=
  EngineDb.bestOf_linked t _ (h.trees.linked t)
    ((height_le_length (g.tree t)).trans (h.tree_length_lt t).le)

/-- `EngineDb_*_Insert` of a live level in no tree, with a price new to this one. -/
theorem insertIn (h : Rep db g) (t : Tree) (hl : l ∈ db.liveLevels)
    (hin : (db.levels l).tree_intree = false)
    (hnew : ∀ m ∈ inorder (g.tree t), (db.levels m).price ≠ (db.levels l).price) :
    ∃ db' u as bs, db.insertIn t l = some db' ∧ TreeOnly db db' ∧
      Rep db' { g with tree := Function.update g.tree t u } ∧ inorder (g.tree t) = as ++ bs ∧
      inorder u = as ++ l :: bs := by
  have hnot : ∀ s, l ∉ inorder (g.tree s) := fun s hm => by
    have := (h.trees.flag l).mpr ⟨s, hm⟩
    rw [hin] at this; cases this
  obtain ⟨root, db', u, as, bs, hcode, ho, hlink, hsplit, hu, has, hbs, hoff, hflag, hroot, hn⟩ :=
    EngineDb.treeInsert_eq (h.trees.linked t) (h.trees.sorted t) hnew (hnot t) (h.tree_length_lt t)
      (h.tree_nodup t)
  have hmem : ∀ z, z ∈ inorder u ↔ z = l ∨ z ∈ inorder (g.tree t) := fun z => by
    rw [hu, hsplit, List.mem_append, List.mem_cons, List.mem_append]; tauto
  have hlive : ∀ z ∈ inorder u, z ∈ db.liveLevels := fun z hz => by
    rcases (hmem z).mp hz with rfl | hz
    · exact hl
    · exact h.tree_live t z hz
  have hother : ∀ z ∈ l :: inorder (g.tree t), z ∉ inorder (g.tree t.other) := fun z hz => by
    rcases List.mem_cons.mp hz with rfl | hz
    · exact hnot _
    · exact h.tree_disjoint (by cases t <;> simp [Tree.other]) hz
  -- The level stands between the smaller and the larger prices.
  have hs : db.Ascending (inorder u) := by
    have hst := h.trees.sorted t
    rw [hsplit, List.pairwise_append] at hst
    rw [hu]
    refine List.pairwise_append.mpr ⟨hst.1, List.pairwise_cons.mpr ⟨hbs, hst.2.1⟩, ?_⟩
    intro a ha b hb
    rcases List.mem_cons.mp hb with rfl | hb
    · exact has a ha
    · exact hst.2.2 a ha b hb
  have hlen : (inorder u).length = (inorder (g.tree t)).length + 1 := by
    rw [hu, hsplit, List.length_append, List.length_append, List.length_cons]; omega
  -- The counter does not wrap, since the tree holds different live levels.
  have hle : (inorder u).length ≤ db.levelRows := by
    refine h.length_le_levelRows ?_ hlive
    rw [hu, List.nodup_middle, List.nodup_cons, ← hsplit]
    exact ⟨hnot t, h.tree_nodup t⟩
  have hm : (db'.treeN t + 1).toNat = (inorder u).length := by
    have hcount := h.trees.count t
    have hbound := h.lPool.bound
    have h1 : (1 : UInt32).toNat = 1 := rfl
    change _ ≤ db.level_pool_total_allocated.toNat at hle
    rw [hn, UInt32.toNat_add, h1]
    omega
  refine ⟨_, u, as, bs, ?_, ho.trans (EngineDb.setRoot_only _ _ _), h.of_tree ho hlink hs hm hroot hn
    hoff hother (fun z hz => hother z ?_) (fun z => ?_) hlive, hsplit, hu⟩
  · rw [EngineDb.insertIn_eq, hcode]; rfl
  · rw [List.mem_cons]; exact (hmem z).mp hz
  · rw [hflag, hmem]
    -- The flag of the level is set, and those of the others are as they were.
    by_cases hz : z = l
    · simp [hz]
    · rw [if_neg hz, h.trees.flag]
      constructor
      · rintro ⟨s, hzs⟩
        by_cases hst : s = t
        · exact .inl (.inr (hst ▸ hzs))
        · exact .inr (eq_other hst ▸ hzs)
      · rintro ((rfl | hz') | hz')
        · exact absurd rfl hz
        · exact ⟨t, hz'⟩
        · exact ⟨_, hz'⟩

/-- `EngineDb_*_Remove` of a level of the tree. -/
theorem removeFrom (h : Rep db g) (t : Tree) (hl : l ∈ inorder (g.tree t)) :
    ∃ db' u, db.removeFrom t l = some db' ∧ TreeOnly db db' ∧
      Rep db' { g with tree := Function.update g.tree t u } ∧
      inorder u = (inorder (g.tree t)).erase l := by
  have hin : (db.levels l).tree_intree := (h.trees.flag l).mpr ⟨t, hl⟩
  obtain ⟨root, db', u, hcode, ho, hlink, hu, hagree⟩ := EngineDb.treeUnlink_eq (h.trees.linked t)
    (h.tree_nodup t) hl (h.tree_length_lt t).le
  set db'' := db'.setLevel l fun v =>
    { v with tree_left := none, tree_right := none, tree_parent := none, tree_intree := false }
    with hdb''
  have ho' : TreeOnly db db'' := ho.treeOnly.trans (TreeOnly.setLevel fun _ => rfl)
  have hlu : l ∉ inorder u := by
    rw [hu]; exact (h.tree_nodup t).not_mem_erase
  -- Clearing the links of the removed level leaves the others alone.
  have hsame : ∀ z, z ≠ l → db''.levels z = db'.levels z := fun z hz => by
    rw [hdb'', EngineDb.setLevel_levels_apply, if_neg hz]
  have hlink' : LinkedTree db''.links root none u := by
    have hne : ∀ z ∈ inorder u, z ≠ l := fun z hz hzl => hlu (hzl ▸ hz)
    exact hlink.congr (fun z hz => congrArg PriceLevel.tree_left (hsame z (hne z hz)))
      (fun z hz => congrArg PriceLevel.tree_right (hsame z (hne z hz)))
      fun z hz => congrArg PriceLevel.tree_parent (hsame z (hne z hz))
  have hmem : ∀ z, z ∈ inorder u ↔ z ≠ l ∧ z ∈ inorder (g.tree t) := fun z => by
    rw [hu, (h.tree_nodup t).mem_erase_iff]
  have hn : db''.treeN = db.treeN := by rw [hdb'', ho.globals]; rfl
  have hroot : db''.root = db.root := by rw [hdb'', ho.globals]; rfl
  -- The counter of a tree with a level is not zero, so it goes down by one.
  have hm : (if db''.treeN t > 0 then db''.treeN t - 1 else db''.treeN t).toNat =
      (inorder u).length := by
    have hcount := h.trees.count t
    have hpos : 0 < (inorder (g.tree t)).length := List.length_pos_of_mem hl
    have h1 : (1 : UInt32).toNat = 1 := rfl
    have hle : (1 : UInt32) ≤ db.treeN t := by rw [UInt32.le_iff_toNat_le]; omega
    have hgt : db.treeN t > 0 := by rw [gt_iff_lt, UInt32.lt_iff_toNat_lt, hcount]; exact hpos
    rw [hn, if_pos hgt, UInt32.toNat_sub_of_le _ _ hle, hcount, h1, hu, List.length_erase_of_mem hl]
  refine ⟨_, u, ?_, ho'.trans (EngineDb.setRoot_only _ _ _), h.of_tree ho' hlink'
    ((h.trees.sorted t).sublist (hu ▸ List.erase_sublist)) hm hroot hn
    (show ∀ z ∉ inorder (g.tree t), _ from fun z hz => ?_)
      (fun z hz => h.tree_disjoint (by cases t <;> simp [Tree.other]) hz)
    (fun z hz => h.tree_disjoint (by cases t <;> simp [Tree.other]) ((hmem z).mp hz).2) (fun z => ?_)
    (fun z hz => h.tree_live t z ((hmem z).mp hz).2), hu⟩
  · rw [EngineDb.removeFrom_eq, EngineDb.treeRemove, hin]
    simp only [Bool.not_true, Bool.false_eq_true, if_false, hcode, Option.bind_eq_bind,
      Option.bind_some]
    rfl
  · rw [hsame z fun hzl => hz (hzl ▸ hl)]
    exact ho.levels_off hagree hz
  -- The flag of the level is cleared, and those of the others are as they were.
  · by_cases hz : z = l
    · subst hz
      rw [hdb'', EngineDb.setLevel_levels_self]
      simp only [Bool.false_eq_true, false_iff, not_or]
      exact ⟨hlu, h.tree_disjoint (by cases t <;> simp [Tree.other]) hl⟩
    · rw [hsame z hz, ho.intree, h.trees.flag, hmem]
      constructor
      · rintro ⟨s, hzs⟩
        by_cases hst : s = t
        · exact .inl ⟨hz, hst ▸ hzs⟩
        · exact .inr (eq_other hst ▸ hzs)
      · rintro (⟨-, hz'⟩ | hz')
        · exact ⟨t, hz'⟩
        · exact ⟨_, hz'⟩

end Rep

end MatchingEngine.C
