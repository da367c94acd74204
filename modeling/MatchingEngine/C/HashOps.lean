import MatchingEngine.C.Frame

/-!
# The hash index

`EngineDb_ind_order_Find`, `EngineDb_ind_order_InsertMaybe`, and `EngineDb_ind_order_Remove` on a
heap in order. Each works in the bucket of the row's id, which is a chain, and the flags make the
union of the buckets the set of hashed rows.

The walk of a bucket finds the row with the id if there is one (`indOrderFind_eq`). Linking puts a
row in front of its bucket, and unlinking takes it out of the place where the walk finds it; both
leave every other bucket alone. The counter of the index counts the flagged rows, of which there are
no more than the pool has, so it does not wrap.
-/

namespace MatchingEngine.C

open Lib Contract

variable {db : EngineDb} {g : Shape} {p : OrderPtr} {id : UInt64}

namespace EngineDb

/-- Searching a chain finds the first row with the id. -/
theorem indOrderFindFrom_eq {xs : List OrderPtr} : ∀ {start : Option OrderPtr} {fuel : ℕ},
    Chain db.hashLink start xs → xs.length < fuel →
      db.indOrderFindFrom id fuel start = some (xs.find? fun p => (db.orders p).id = id) := by
  induction xs with
  | nil =>
    intro start fuel hc hf
    cases fuel with
    | zero => simp at hf
    | succ fuel => cases hc; rfl
  | cons x xs ih =>
    intro start fuel hc hf
    cases fuel with
    | zero => simp at hf
    | succ fuel =>
      obtain ⟨rfl, hc⟩ := hc
      rw [indOrderFindFrom, List.find?_cons]
      -- The loop stops at the first row with the id.
      by_cases hx : (db.orders x).id = id
      · simp [hx]
      · simp only [hx, if_false, decide_false]
        exact ih hc (by simpa using hf)

/-- The loop of the removal stops at the row, with the row before it as `prev`. -/
theorem indOrderRemoveFrom_eq {b : ℕ} {as bs : List OrderPtr} :
    ∀ {prev start : Option OrderPtr} {fuel : ℕ}, Chain db.hashLink start (as ++ p :: bs) →
      p ∉ as → as.length < fuel → db.indOrderRemoveFrom p b fuel prev start =
        some (db.indOrderUnlink b (as.getLast?.or prev) p) := by
  induction as with
  | nil =>
    intro prev start fuel hc _ hf
    cases fuel with
    | zero => simp at hf
    | succ fuel =>
      obtain ⟨rfl, -⟩ := hc
      rw [indOrderRemoveFrom, if_pos rfl]; rfl
  | cons x xs ih =>
    intro prev start fuel hc hp hf
    cases fuel with
    | zero => simp at hf
    | succ fuel =>
      obtain ⟨rfl, hc⟩ := hc
      rw [List.mem_cons, not_or] at hp
      -- Another row: it becomes `prev` for the rest of the chain.
      rw [indOrderRemoveFrom, if_neg (Ne.symm hp.1)]
      refine (ih hc hp.2 (by simpa using hf)).trans ?_
      rw [List.getLast?_cons]
      cases xs.getLast? <;> rfl

/-- Linking a row writes the index only. -/
theorem indOrderLink_only (b : ℕ) : HashOnly db (db.indOrderLink p b) :=
  (HashOnly.setOrder (f := fun o => { o with ind_order_next := db.ind_order_buckets b })
    fun _ => rfl).trans <|
    (HashOnly.setOrder (f := fun o => { o with ind_order_inhash := true }) fun _ => rfl).trans
      ⟨rfl, fun _ => rfl⟩

/-- Unlinking a row writes the index only. -/
theorem indOrderUnlink_only (b : ℕ) (prev : Option OrderPtr) :
    HashOnly db (db.indOrderUnlink b prev p) := by
  have hclear (db : EngineDb) : HashOnly db (db.setOrder p fun o =>
    { o with ind_order_next := none, ind_order_inhash := false }) := .setOrder fun _ => rfl
  cases prev with
  -- The first row of the chain: the bucket is set.
  | none =>
    have hbucket : HashOnly db { db with
        ind_order_buckets := Function.update db.ind_order_buckets b (db.hashLink p) } :=
      ⟨rfl, fun _ => rfl⟩
    exact hbucket.trans ((hclear _).trans ⟨rfl, fun _ => rfl⟩)
  -- A later row: the link of the row before it is set.
  | some q =>
    have hlink : HashOnly db (db.setOrder q fun o => { o with ind_order_next := db.hashLink p }) :=
      .setOrder fun _ => rfl
    exact hlink.trans ((hclear _).trans ⟨rfl, fun _ => rfl⟩)

/-- The flags after an order is put in front of its bucket. -/
theorem indOrderLink_flag (b : ℕ) (q : OrderPtr) :
    ((db.indOrderLink p b).orders q).ind_order_inhash =
      if q = p then true else (db.orders q).ind_order_inhash := by
  simp only [indOrderLink, setOrder_orders_apply]
  split <;> simp_all

/-- The links after an order is put in front of its bucket. -/
theorem indOrderLink_hashLink (b : ℕ) (q : OrderPtr) :
    (db.indOrderLink p b).hashLink q =
      if q = p then db.ind_order_buckets b else db.hashLink q := by
  simp only [hashLink, indOrderLink, setOrder_orders_apply]
  split <;> simp_all

/-- The flags after an order is taken out of its bucket. -/
theorem indOrderUnlink_flag (b : ℕ) (prev : Option OrderPtr) (q : OrderPtr) :
    ((db.indOrderUnlink b prev p).orders q).ind_order_inhash =
      if q = p then false else (db.orders q).ind_order_inhash := by
  cases prev with
  | none => simp only [indOrderUnlink, setOrder_orders_apply]; split <;> rfl
  | some z =>
    simp only [indOrderUnlink, setOrder_orders_apply]
    split
    · rfl
    · split
      · subst_vars; rfl
      · rfl

/-- The links after an order is taken out of its bucket. -/
theorem indOrderUnlink_hashLink (b : ℕ) (prev : Option OrderPtr) (q : OrderPtr) (hq : q ≠ p) :
    (db.indOrderUnlink b prev p).hashLink q =
      if prev = some q then db.hashLink p else db.hashLink q := by
  cases prev with
  | none => simp [hashLink, indOrderUnlink, setOrder_orders_apply, hq]
  | some z =>
    simp only [hashLink, indOrderUnlink, setOrder_orders_apply, hq, if_false, Option.some.injEq,
      eq_comm]
    split <;> rfl

/-- The buckets after an order is taken out of one. -/
theorem indOrderUnlink_buckets (b : ℕ) (prev : Option OrderPtr) :
    (db.indOrderUnlink b prev p).ind_order_buckets =
      if prev = none then Function.update db.ind_order_buckets b (db.hashLink p)
      else db.ind_order_buckets := by
  cases prev <;> rfl

end EngineDb

namespace Rep

/-- `EngineDb_ind_order_Find` returns. -/
theorem indOrderFind_eq (h : Rep db g) (id : UInt64) : db.indOrderFind id =
    some ((g.bucket (EngineDb.hashOrderId id)).find? fun p => (db.orders p).id = id) :=
  EngineDb.indOrderFindFrom_eq (h.hash.chain _) (Nat.lt_succ_of_le (h.bucket_length_le _))

/-- `EngineDb_ind_order_Find` returns the hashed row with the id. -/
theorem indOrderFind_some (h : Rep db g) (hp : db.indOrderFind id = some (some p)) :
    (db.orders p).ind_order_inhash ∧ (db.orders p).id = id := by
  rw [h.indOrderFind_eq, Option.some.injEq] at hp
  have hid := List.find?_some hp
  exact ⟨((h.hash.mem _ p).mp (List.mem_of_find?_eq_some hp)).1, by simpa using hid⟩

/-- `EngineDb_ind_order_Find` returns `NULL` when no hashed row has the id. -/
theorem indOrderFind_none (h : Rep db g) (hn : db.indOrderFind id = some none) (p : OrderPtr)
    (hp : (db.orders p).ind_order_inhash) : (db.orders p).id ≠ id := by
  rw [h.indOrderFind_eq, Option.some.injEq, List.find?_eq_none] at hn
  intro hid
  exact hn p ((h.hash.mem _ p).mpr ⟨hp, by rw [hid]⟩) (by simpa using hid)

/-- The hashed row with an id is the one that is found. -/
theorem indOrderFind_of_mem (h : Rep db g) (hp : (db.orders p).ind_order_inhash) :
    db.indOrderFind (db.orders p).id = some (some p) := by
  rcases hf : db.indOrderFind (db.orders p).id with _ | _ | q
  · rw [h.indOrderFind_eq] at hf; cases hf
  · exact absurd rfl (h.indOrderFind_none hf p hp)
  · obtain ⟨hq, hid⟩ := h.indOrderFind_some hf
    rw [h.hash.ids q p hq hp hid]

/-- A hashed row is found in the bucket of its id, and it splits the bucket. -/
theorem exists_bucket_split (h : Rep db g) (hp : (db.orders p).ind_order_inhash) :
    ∃ as bs, g.bucket (EngineDb.hashOrderId (db.orders p).id) = as ++ p :: bs ∧ p ∉ as := by
  have hmem := (h.hash.mem _ p).mpr ⟨hp, rfl⟩
  obtain ⟨as, bs, heq⟩ := List.append_of_mem hmem
  have hnd := (h.hash.chain (EngineDb.hashOrderId (db.orders p).id)).nodup
  rw [heq, List.nodup_append] at hnd
  exact ⟨as, bs, heq, fun hpa => hnd.2.2 p hpa p List.mem_cons_self rfl⟩

/-- The hashed rows fit into the counter. -/
theorem flagged_card_lt (h : Rep db g) : db.flagged.card < 2^32 := by
  have hle := Finset.card_le_card (Finset.filter_subset
    (fun p => (db.orders p).ind_order_inhash = true) (Finset.range db.orderRows))
  rw [Finset.card_range] at hle
  exact lt_of_le_of_lt hle h.oPool.bound

/-- A row is in the bucket of its id only. -/
theorem not_mem_bucket (h : Rep db g) (hp : (db.orders p).ind_order_inhash = false) (b : ℕ) :
    p ∉ g.bucket b := fun hm => by
  rw [h.hash.mem, hp] at hm; simp at hm

/-- The buckets after a row is linked. -/
theorem indOrderLink_hash (h : Rep db g) (hflag : (db.orders p).ind_order_inhash = false)
    (hid : ∀ q, (db.orders q).ind_order_inhash → (db.orders q).id ≠ (db.orders p).id) {b : ℕ}
    (hb : EngineDb.hashOrderId (db.orders p).id = b) :
    HashRep (db.indOrderLink p b) (Function.update g.bucket b (p :: g.bucket b)) := by
  have hids : ∀ q, ((db.indOrderLink p b).orders q).id = (db.orders q).id := fun q => by
    rw [(EngineDb.indOrderLink_only b).orders]
  refine ⟨fun c => ?_, fun c q => ?_, fun q r hq hr hqr => ?_⟩
  · have hc : ∀ z ∈ g.bucket c, (db.indOrderLink p b).hashLink z = db.hashLink z := fun z hz => by
      rw [EngineDb.indOrderLink_hashLink, if_neg fun hzp => h.not_mem_bucket hflag c (by rwa [← hzp])]
    change Chain _ (Function.update db.ind_order_buckets b (some p) c) _
    -- Bucket `b` has the row in front, and the others are as they were.
    by_cases hcb : c = b
    · rw [hcb] at hc ⊢
      rw [Function.update_self, Function.update_self]
      refine (h.hash.chain b).cons ?_ hc
      rw [EngineDb.indOrderLink_hashLink, if_pos rfl]
    · rw [Function.update_of_ne hcb, Function.update_of_ne hcb]
      exact (h.hash.chain c).congr hc
  · rw [EngineDb.indOrderLink_flag, hids, Function.update_apply]
    -- The flagged rows of a bucket are those whose ids hash to it.
    by_cases hqp : q = p
    · rw [hqp]
      by_cases hcb : c = b
      · simp [hcb, hb]
      · simp [hcb, hb, h.not_mem_bucket hflag, Ne.symm hcb]
    · by_cases hcb : c = b <;> simp [hcb, hqp, h.hash.mem]
  · rw [EngineDb.indOrderLink_flag] at hq hr
    rw [hids, hids] at hqr
    -- No two flagged rows have one id, since no other row has the new one.
    by_cases hqp : q = p <;> by_cases hrp : r = p
    · rw [hqp, hrp]
    · rw [if_neg hrp] at hr
      exact absurd (hqr.symm.trans (by rw [hqp])) (hid r hr)
    · rw [if_neg hqp] at hq
      exact absurd (hqr.trans (by rw [hrp])) (hid q hq)
    · rw [if_neg hqp] at hq
      rw [if_neg hrp] at hr
      exact h.hash.ids q r hq hr hqr

/-- The hashed rows after a row is linked. -/
theorem indOrderLink_flagged (h : Rep db g) (hp : p ∈ db.liveOrders) (b : ℕ) :
    (db.indOrderLink p b).flagged = insert p db.flagged := by
  ext q
  rw [Finset.mem_insert, EngineDb.flagged, EngineDb.flagged, Finset.mem_filter, Finset.mem_filter,
    EngineDb.indOrderLink_flag]
  change _ ∈ Finset.range db.orderRows ∧ _ ↔ _
  by_cases hq : q = p
  · rw [hq]
    simpa using (h.mem_liveOrders.mp hp).1
  · simp only [hq, if_false, false_or]

/-- Linking a live row whose id no hashed row has. -/
theorem indOrderLink (h : Rep db g) (hp : p ∈ db.liveOrders)
    (hflag : (db.orders p).ind_order_inhash = false)
    (hid : ∀ q, (db.orders q).ind_order_inhash → (db.orders q).id ≠ (db.orders p).id) {b : ℕ}
    (hb : EngineDb.hashOrderId (db.orders p).id = b) :
    Rep (db.indOrderLink p b) { g with bucket := Function.update g.bucket b (p :: g.bucket b) } := by
  refine h.of_hash (h.indOrderLink_hash hflag hid hb) (fun q hq => ?_) ?_
    (EngineDb.indOrderLink_only b)
  · rw [EngineDb.indOrderLink_flag] at hq
    split at hq
    · subst_vars; exact hp
    · exact h.hash_live q hq
  -- The counter does not wrap, since the flagged rows are below the total.
  · have hcount := h.hash_count
    have hlt := h.flagged_card_lt
    have hfresh : p ∉ db.flagged := fun hm => by
      rw [EngineDb.flagged, Finset.mem_filter, hflag] at hm; simp at hm
    have hrep := h.indOrderLink_flagged hp b
    rw [hrep, Finset.card_insert_of_notMem hfresh]
    have hle : (insert p db.flagged).card ≤ db.orderRows := by
      rw [← hrep]
      refine (Finset.card_le_card (Finset.filter_subset _ _)).trans ?_
      rw [Finset.card_range]; exact le_refl _
    rw [Finset.card_insert_of_notMem hfresh] at hle
    have hbound := h.oPool.bound
    have h1 : (1 : UInt32).toNat = 1 := rfl
    change (db.ind_order_n + 1).toNat = _
    rw [UInt32.toNat_add, h1, hcount]
    change db.order_pool_total_allocated.toNat < 2^32 at hbound
    change _ ≤ db.order_pool_total_allocated.toNat at hle
    omega

/-- The hashed rows after a row is unlinked. -/
theorem indOrderUnlink_flagged (b : ℕ) (prev : Option OrderPtr) :
    (db.indOrderUnlink b prev p).flagged = db.flagged.erase p := by
  ext q
  rw [Finset.mem_erase, EngineDb.flagged, EngineDb.flagged, Finset.mem_filter, Finset.mem_filter,
    EngineDb.indOrderUnlink_flag, EngineDb.orderRows, EngineDb.orderRows,
    (EngineDb.indOrderUnlink_only b prev).total]
  by_cases hq : q = p <;> simp [hq]

/-- The buckets after a row is unlinked. -/
theorem indOrderUnlink_hash (h : Rep db g) {as bs : List OrderPtr}
    (hsplit : g.bucket (EngineDb.hashOrderId (db.orders p).id) = as ++ p :: bs) {b : ℕ}
    (hb : EngineDb.hashOrderId (db.orders p).id = b) :
    HashRep (db.indOrderUnlink b as.getLast? p) (Function.update g.bucket b (as ++ bs)) := by
  rw [hb] at hsplit
  have hflag : (db.orders p).ind_order_inhash := ((h.hash.mem b p).mp (by simp [hsplit])).1
  have hids : ∀ q, ((db.indOrderUnlink b as.getLast? p).orders q).id = (db.orders q).id :=
    fun q => by rw [(EngineDb.indOrderUnlink_only b as.getLast?).orders]
  have hchain := h.hash.chain b
  rw [hsplit] at hchain
  have hnd := hchain.nodup
  rw [List.nodup_append, List.nodup_cons] at hnd
  -- A row stands in its bucket once, so the others are different from it.
  have hne : ∀ z ∈ as ++ bs, z ≠ p := by
    intro z hz hzp
    subst hzp
    rcases List.mem_append.mp hz with hz | hz
    · exact hnd.2.2 z hz z List.mem_cons_self rfl
    · exact hnd.2.1.1 hz
  refine ⟨fun c => ?_, fun c q => ?_, fun q r hq hr hqr => ?_⟩
  · rw [EngineDb.indOrderUnlink_buckets]
    by_cases hcb : c = b
    · rw [hcb, Function.update_self]
      refine hchain.unlink ?_ (fun z hz => ?_) fun z hz hz' => ?_
      · simp only [List.getLast?_eq_none_iff]
        split <;> simp_all
      · rw [EngineDb.indOrderUnlink_hashLink _ _ _
          (hne z (List.mem_append_left _ (List.mem_of_getLast? hz)))]
        exact if_pos hz
      · rw [EngineDb.indOrderUnlink_hashLink _ _ _ (hne z hz)]
        exact if_neg hz'
    · -- The rows of another bucket are not the row before this one.
      have hother : ∀ z ∈ g.bucket c, z ∉ as ∧ z ≠ p := by
        intro z hz
        have hzc := ((h.hash.mem c z).mp hz).2
        have hzb : z ∉ g.bucket b := fun hm => hcb (hzc.symm.trans ((h.hash.mem b z).mp hm).2)
        rw [hsplit, List.mem_append, List.mem_cons, not_or, not_or] at hzb
        exact ⟨hzb.1, hzb.2.1⟩
      rw [Function.update_of_ne hcb]
      have hstart : (if as.getLast? = none then Function.update db.ind_order_buckets b (db.hashLink p)
          else db.ind_order_buckets) c = db.ind_order_buckets c := by
        split
        · exact Function.update_of_ne hcb _ _
        · rfl
      rw [hstart]
      refine (h.hash.chain c).congr fun z hz => ?_
      rw [EngineDb.indOrderUnlink_hashLink _ _ _ (hother z hz).2, if_neg]
      exact fun hlast => (hother z hz).1 (List.mem_of_getLast? hlast)
  · rw [EngineDb.indOrderUnlink_flag, hids, Function.update_apply]
    -- The row is in no bucket any more, and the others are where they were.
    by_cases hqp : q = p
    · rw [hqp]
      by_cases hcb : c = b
      · simp only [hcb, if_true]
        simpa using ⟨fun hm => hne p (by simp [hm]) rfl, fun hm => hne p (by simp [hm]) rfl⟩
      · simp only [hcb, if_true, if_false, h.hash.mem, hb, Ne.symm hcb]
        simp
    · by_cases hcb : c = b
      · have hmem := h.hash.mem b q
        rw [hsplit, List.mem_append, List.mem_cons] at hmem
        simp only [hcb, hqp, if_true, if_false, List.mem_append, false_or] at hmem ⊢
        exact hmem
      · simp [hcb, hqp, h.hash.mem]
  · rw [EngineDb.indOrderUnlink_flag] at hq hr
    rw [hids, hids] at hqr
    split at hq
    · cases hq
    · split at hr
      · cases hr
      · exact h.hash.ids q r hq hr hqr

/-- `EngineDb_ind_order_Remove` unlinks a hashed row. -/
theorem indOrderRemove (h : Rep db g) (hp : (db.orders p).ind_order_inhash) :
    ∃ db' b xs, db.indOrderRemove p = some db' ∧
      Rep db' { g with bucket := Function.update g.bucket b xs } ∧ HashOnly db db' ∧
      db'.flagged = db.flagged.erase p := by
  obtain ⟨as, bs, hsplit, hpa⟩ := h.exists_bucket_split hp
  set b := EngineDb.hashOrderId (db.orders p).id with hb
  have hchain := h.hash.chain b
  rw [hsplit] at hchain
  have hlen := h.bucket_length_le b
  rw [hsplit, List.length_append, List.length_cons] at hlen
  have honly : HashOnly db (db.indOrderUnlink b _ p) := EngineDb.indOrderUnlink_only b as.getLast?
  refine ⟨db.indOrderUnlink b as.getLast? p, b, as ++ bs, ?_, ?_, honly,
    indOrderUnlink_flagged b as.getLast?⟩
  · rw [EngineDb.indOrderRemove, hp]
    -- A chain is no longer than the pool, so the loop comes to the row.
    have hfuel : as.length < db.orderFuel := Nat.lt_succ_of_le (by
      rw [EngineDb.orderRows] at hlen; omega)
    refine (EngineDb.indOrderRemoveFrom_eq hchain hpa hfuel).trans ?_
    rw [Option.or_none]
  · refine h.of_hash (h.indOrderUnlink_hash (hb ▸ hsplit) hb.symm) (fun q hq => ?_) ?_ honly
    · rw [EngineDb.indOrderUnlink_flag] at hq
      split at hq
      · cases hq
      · exact h.hash_live q hq
    · have hcount := h.hash_count
      have hmem : p ∈ db.flagged := by
        rw [EngineDb.flagged, Finset.mem_filter, Finset.mem_range]
        exact ⟨(h.mem_liveOrders.mp (h.hash_live p hp)).1, hp⟩
      -- The counter is positive, so the decrement does not wrap.
      have hpos := Finset.card_pos.mpr ⟨p, hmem⟩
      have hle : (1 : UInt32) ≤ db.ind_order_n := by
        rw [UInt32.le_iff_toNat_le, hcount]; exact hpos
      have h1 : (1 : UInt32).toNat = 1 := rfl
      have hn : (db.indOrderUnlink b as.getLast? p).ind_order_n = db.ind_order_n - 1 := by
        cases as.getLast? <;> rfl
      rw [indOrderUnlink_flagged, Finset.card_erase_of_mem hmem, hn, UInt32.toNat_sub_of_le _ _ hle,
        hcount, h1]

/-- `EngineDb_ind_order_InsertMaybe` on a row that is not hashed, when a hashed row has its id. -/
theorem indOrderInsertMaybe_dup (h : Rep db g) (hflag : (db.orders p).ind_order_inhash = false)
    {q : OrderPtr} (hq : (db.orders q).ind_order_inhash) (hid : (db.orders q).id = (db.orders p).id) :
    db.indOrderInsertMaybe p = some (false, db) := by
  have hf := h.indOrderFind_of_mem hq
  rw [hid] at hf
  simp [EngineDb.indOrderInsertMaybe, hflag, hf]

/-- `EngineDb_ind_order_InsertMaybe` on a row that is not hashed, when no hashed row has its id. -/
theorem indOrderInsertMaybe_new (h : Rep db g) (hflag : (db.orders p).ind_order_inhash = false)
    (hid : ∀ q, (db.orders q).ind_order_inhash → (db.orders q).id ≠ (db.orders p).id) :
    db.indOrderInsertMaybe p =
      some (true, db.indOrderLink p (EngineDb.hashOrderId (db.orders p).id)) := by
  have hf : db.indOrderFind (db.orders p).id = some none := by
    rcases hf : db.indOrderFind (db.orders p).id with _ | _ | q
    · rw [h.indOrderFind_eq] at hf; cases hf
    · rfl
    · obtain ⟨hq, hid'⟩ := h.indOrderFind_some hf
      exact absurd hid' (hid q hq)
  simp [EngineDb.indOrderInsertMaybe, hflag, hf]

end Rep

end MatchingEngine.C
