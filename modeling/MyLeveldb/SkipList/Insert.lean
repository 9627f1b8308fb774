import MyLeveldb.SkipList.Search

/-!
# SkipList — Insert

`insert` links the new node from its highest level down to level 0.  `Linking l as e bs i` says
that, of the levels of the list `as ++ e :: bs`, those from `i` up have the new entry `e` and those
below do not yet.  The two stores of the loop's body take `Linking (i + 1)` to `Linking i`:
`store_node` leaves every chain as it was, `store_prev` splices the node in at level `i`.

`insertAt_at_cut` puts the search and the loop together: the new entry goes where the search ends.
A comparator that answers always gets there (`insertAt_cut`).  Of one that need not answer,
`Shape.inserted` says what it leaves where the insertion returns.
-/

namespace Leveldb.SkipList

open Levels (level Descent)

variable {Key : Type} {l l' : SkipList Key} {es as bs : List (Entry Key)} {e : Entry Key}
  {i n : Nat} {p : Option NodePtr}

/-- The entries on level `j` of a list whose levels from `i` up have `e`. -/
def woven (as : List (Entry Key)) (e : Entry Key) (bs : List (Entry Key)) (i j : Nat) :
    List (Entry Key) :=
  if j < i then as ++ bs else as ++ e :: bs

/-- The nodes of `as ++ e :: bs` are in `l`, and the levels from `i` up have `e`. -/
structure Linking (l : SkipList Key) (as : List (Entry Key)) (e : Entry Key)
    (bs : List (Entry Key)) (i : Nat) : Prop extends Holds l (as ++ e :: bs) where
  chain : ∀ j, j < kMaxHeight →
    Linked.Chain (l.link j) l.head_ (levelPtrs j (woven as e bs i j))

theorem levelPtrs_cons_of_lt (h : i < e.height) :
    levelPtrs i (e :: bs) = e.ptr :: levelPtrs i bs := by
  rw [levelPtrs, Levels.level_cons_of_lt h, List.map_cons, levelPtrs]

theorem levelPtrs_cons_of_le (h : e.height ≤ i) : levelPtrs i (e :: bs) = levelPtrs i bs := by
  rw [levelPtrs, Levels.level_cons_of_le h, levelPtrs]

theorem mem_insert {x : Entry Key} : x ∈ as ++ e :: bs ↔ x = e ∨ x ∈ as ++ bs := by
  simp only [List.mem_append, List.mem_cons]
  tauto

theorem mem_ptrs_insert {x : NodePtr} :
    x ∈ (as ++ e :: bs).map Entry.ptr ↔ x = e.ptr ∨ x ∈ (as ++ bs).map Entry.ptr := by
  simp only [List.map_append, List.map_cons, List.mem_append, List.mem_cons]
  tauto

theorem woven_sublist {j : Nat} : (woven as e bs i j).Sublist (as ++ e :: bs) := by
  rw [woven]
  split_ifs
  · exact List.Sublist.append_left (List.sublist_cons_self e bs) as
  · exact List.Sublist.refl _

theorem ptrs_perm (l : SkipList Key) :
    (l.head_ :: (as ++ e :: bs).map Entry.ptr).Perm
      (e.ptr :: l.head_ :: (as ++ bs).map Entry.ptr) := by
  simp only [List.map_append, List.map_cons]
  exact (List.Perm.cons _ List.perm_middle).trans (List.Perm.swap _ _ _)

/-- Before the first level is linked, the chains are those of the list without `e`. -/
theorem levelPtrs_woven_height (j : Nat) :
    levelPtrs j (woven as e bs e.height j) = levelPtrs j (as ++ bs) := by
  rw [woven]
  split_ifs with h
  · rfl
  · rw [levelPtrs_append, levelPtrs_append, levelPtrs_cons_of_le (by omega)]

/-- Once every level is linked, the chains are those of the list with `e`. -/
theorem woven_zero (j : Nat) : woven as e bs 0 j = as ++ e :: bs :=
  if_neg (by omega)

namespace Linking

/-- The new node is not on the chains of the levels it is not linked on. -/
theorem ptr_ne (h : Linking l as e bs i) :
    ∀ x ∈ l.head_ :: (as ++ bs).map Entry.ptr, x ≠ e.ptr := by
  have hnd := (ptrs_perm l).nodup_iff.mp h.nodup
  intro x hx heq
  exact (List.nodup_cons.mp hnd).1 (heq ▸ hx)

/-- The link at the cut, on a level that does not have `e` yet. -/
theorem next_prev (h : Linking l as e bs (i + 1)) (hi : i < kMaxHeight) :
    l.next (l.prevPtr i as) i = .ok ((level Entry.height i bs).head?.map Entry.ptr) := by
  have hc := h.chain i hi
  rw [woven, if_pos (by omega), levelPtrs_append] at hc
  rw [← List.head?_map]
  exact next_of_link hc.link_at

/-- `node->noBarrier_SetNext(i, p)`: no chain passes through the slot yet. -/
theorem store_node (h : Linking l as e bs (i + 1)) (hs : Stored l e.ptr i p l') :
    Linking l' as e bs (i + 1) := by
  refine ⟨h.toHolds.stored hs, fun j hj => ?_⟩
  rw [hs.head]
  refine (h.chain j hj).congr fun x hx q hq => ?_
  rw [link, hs.slot_other x j ?_]
  · exact hq
  · by_cases e' : j = i
    · subst e'
      rw [woven, if_pos (by omega)] at hx
      exact .inl (h.ptr_ne x (List.cons_subset_cons _ levelPtrs_sublist.subset hx))
    · exact .inr e'

/-- `prev[i]->setNext(i, node)`: the node is spliced in at level `i`. -/
theorem store_prev (h : Linking l as e bs (i + 1)) (hi : i < e.height)
    (hn : l.link i e.ptr ((level Entry.height i bs).head?.map Entry.ptr))
    (hs : Stored l (l.prevPtr i as) i (some e.ptr) l') : Linking l' as e bs i := by
  have hsub : ∀ x ∈ l.head_ :: levelPtrs i (as ++ bs), x ∈ l.head_ :: (as ++ bs).map Entry.ptr :=
    fun x hx => List.cons_subset_cons _ levelPtrs_sublist.subset hx
  have hne : e.ptr ≠ l.prevPtr i as := fun heq => by
    refine h.ptr_ne (l.prevPtr i as) (hsub _ ?_) heq.symm
    exact List.cons_subset_cons _ (by simp) prevPtr_mem
  refine ⟨h.toHolds.stored hs, fun j hj => ?_⟩
  rw [hs.head]
  by_cases e' : j = i
  · subst e'
    have hc := h.chain j hj
    rw [woven, if_pos (by omega), levelPtrs_append] at hc
    rw [woven, if_neg (by omega), levelPtrs_append, levelPtrs_cons_of_lt hi]
    refine hc.splice ?_ hs.slot_same ?_ fun x _ hx q hq => ?_
    · have hnd : (l.head_ :: (as ++ e :: bs).map Entry.ptr).Nodup := h.nodup
      refine hnd.sublist (List.Sublist.cons_cons _ ?_)
      rw [← levelPtrs_append]
      refine levelPtrs_sublist.trans (List.Sublist.map _ ?_)
      exact List.Sublist.append_left (List.sublist_cons_self e bs) as
    · rw [link, hs.slot_other e.ptr j (.inl hne), hn, levelPtrs, List.head?_map]
    · rw [link, hs.slot_other x j (.inl hx)]
      exact hq
  · have hw : woven as e bs i j = woven as e bs (i + 1) j := by
      unfold woven
      by_cases hlt : j < i
      · rw [if_pos hlt, if_pos (by omega)]
      · rw [if_neg hlt, if_neg (by omega)]
    rw [hw]
    refine (h.chain j hj).congr fun x _ q hq => ?_
    rw [link, hs.slot_other x j (.inr e')]
    exact hq

/-- With every level linked, the list has the entry. -/
theorem shape (h : Linking l as e bs 0) (hcur : l.curMaxHeight_ = maxHeight (as ++ e :: bs)) :
    Shape l (as ++ e :: bs) :=
  ⟨h.toHolds, fun i hi => by have := h.chain i hi; rwa [woven_zero] at this, hcur⟩

end Linking

/-! ### The loop -/

theorem linkLoop_spec {as bs : List (Entry Key)} {e : Entry Key} (prev : Prev) :
    ∀ (i : Nat) (l : SkipList Key), Linking l as e bs i → i ≤ e.height →
      (∀ j, j < i → prev j = some (l.prevPtr j as)) →
      ∃ l', linkLoop e.ptr prev i l = .ok l' ∧ Linking l' as e bs 0 ∧ l'.head_ = l.head_ ∧
        l'.curMaxHeight_ = l.curMaxHeight_ ∧ l'.rnd_ = l.rnd_ ∧
        l'.nodes.length = l.nodes.length := by
  intro i
  induction i with
  | zero => exact fun l h _ _ => ⟨l, rfl, h, rfl, rfl, rfl, rfl⟩
  | succ i ih =>
      intro l h hi hprev
      have hik : i < kMaxHeight := by
        have := h.height_le e (by simp)
        have := h.cur_le
        omega
      have hnode : i < l.height e.ptr := by
        rw [h.height_eq e (by simp)]
        omega
      obtain ⟨l₁, hrun₁, hs₁⟩ := setNext_spec ((level Entry.height i bs).head?.map Entry.ptr) hnode
      have h₁ := h.store_node hs₁
      have hp : l₁.prevPtr i as = l.prevPtr i as := by rw [prevPtr, prevPtr, hs₁.head]
      have hprevh : i < l₁.height (l.prevPtr i as) := by
        rw [← hp]
        refine h₁.lt_height_of_mem hik ?_
        exact List.cons_subset_cons _ (by simp) prevPtr_mem
      obtain ⟨l₂, hrun₂, hs₂⟩ := setNext_spec (some e.ptr) hprevh
      have h₂ := h₁.store_prev (by omega) hs₁.slot_same (hp ▸ hs₂)
      obtain ⟨l', hrun, h', hhead, hcur, hrnd, hlen⟩ := ih l₂ h₂ (by omega) fun j hj => by
        rw [hprev j (by omega), prevPtr, prevPtr, hs₂.head, hs₁.head]
      refine ⟨l', ?_, h', hhead.trans (hs₂.head.trans hs₁.head),
        hcur.trans (hs₂.cur.trans hs₁.cur), hrnd.trans (hs₂.rnd.trans hs₁.rnd),
        hlen.trans (hs₂.size.trans hs₁.size)⟩
      simp only [linkLoop, prevAt, hprev i (by omega), ok_bind, h.next_prev hik, hrun₁, hrun₂]
      exact hrun

/-! ### Insertion -/

theorem raiseHeight_cur (l : SkipList Key) (h : Nat) :
    (l.raiseHeight h).curMaxHeight_ = max l.curMaxHeight_ h := by
  rw [raiseHeight]
  split_ifs with hlt
  · exact (Nat.max_eq_right hlt.le).symm
  · exact (Nat.max_eq_left (Nat.not_lt.mp hlt)).symm

theorem raiseHeight_same (l : SkipList Key) (h : Nat) :
    (l.raiseHeight h).nodes = l.nodes ∧ (l.raiseHeight h).head_ = l.head_ ∧
      (l.raiseHeight h).rnd_ = l.rnd_ := by
  rw [raiseHeight]
  split_ifs <;> exact ⟨rfl, rfl, rfl⟩

/-- Slots, keys and heights are read off the node table. -/
theorem reads_eq (h : l'.nodes = l.nodes) :
    l'.slot = l.slot ∧ l'.key = l.key ∧ l'.height = l.height := by
  refine ⟨?_, ?_, ?_⟩
  · funext x n; rw [slot, slot, h]
  · funext x; rw [SkipList.key, SkipList.key, h]
  · funext x; rw [SkipList.height, SkipList.height, h]

theorem maxHeight_insert (as bs : List (Entry Key)) (e : Entry Key) :
    maxHeight (as ++ e :: bs) = max (maxHeight (as ++ bs)) e.height := by
  induction as with
  | nil => simp [maxHeight, max_comm]
  | cons a as ih =>
      simp only [maxHeight, List.cons_append, List.map_cons, List.foldr_cons] at ih ⊢
      rw [ih, max_assoc]

theorem Holds.raised (hl : Holds l es) (hh : n ≤ kMaxHeight) : Holds (l.raiseHeight n) es := by
  obtain ⟨hnodes, hhead, -⟩ := raiseHeight_same l n
  obtain ⟨-, hkey, hheight⟩ := reads_eq hnodes
  have hcur := raiseHeight_cur l n
  constructor
  · rw [hheight, hhead, hl.head_height]
  · rw [hkey]; exact hl.key_eq
  · rw [hheight]; exact hl.height_eq
  · exact hl.height_pos
  · rw [hcur]; exact fun e he => le_max_of_le_left (hl.height_le e he)
  · rw [hcur]; exact lt_max_of_lt_left hl.cur_pos
  · rw [hcur]; exact max_le hl.cur_le hh
  · rw [hhead]; exact hl.nodup

/-- A new node joins the others anywhere in their order. -/
theorem Holds.created {k : Key} {x : NodePtr} (hl : Holds l (as ++ bs))
    (hc : Created l (some k) n x l') (hpos : 0 < n) (hle : n ≤ l.curMaxHeight_) :
    Holds l' (as ++ ⟨x, k, n⟩ :: bs) := by
  have hfresh := hl.ne_of_fresh hc.fresh
  have hne : ∀ e ∈ as ++ bs, e.ptr ≠ x := fun e he =>
    hfresh e.ptr (List.mem_cons_of_mem _ (List.mem_map_of_mem he))
  constructor
  · rw [hc.head, hc.height_old _ (hfresh _ (by simp)), hl.head_height]
  · intro e he
    rcases mem_insert.mp he with rfl | he
    · exact hc.key_new k rfl
    · rw [hc.key_old _ (hne e he), hl.key_eq e he]
  · intro e he
    rcases mem_insert.mp he with rfl | he
    · exact hc.height_new
    · rw [hc.height_old _ (hne e he), hl.height_eq e he]
  · intro e he
    rcases mem_insert.mp he with rfl | he
    · exact hpos
    · exact hl.height_pos e he
  · rw [hc.cur]
    intro e he
    rcases mem_insert.mp he with rfl | he
    · exact hle
    · exact hl.height_le e he
  · rw [hc.cur]; exact hl.cur_pos
  · rw [hc.cur]; exact hl.cur_le
  · refine (ptrs_perm l').nodup_iff.mpr ?_
    rw [hc.head]
    exact List.nodup_cons.mpr ⟨fun hm => hfresh x hm rfl, hl.nodup⟩

/-- The links are the levels of `es`, and there is room for a node of height `n`. -/
structure Roomy (l : SkipList Key) (es : List (Entry Key)) (n : Nat) : Prop
    extends Holds l es where
  chain : ∀ i, i < kMaxHeight → Linked.Chain (l.link i) l.head_ (levelPtrs i es)
  room : n ≤ l.curMaxHeight_

theorem Shape.raised (hl : Shape l es) (hn : n ≤ kMaxHeight) : Roomy (l.raiseHeight n) es n := by
  obtain ⟨hnodes, hhead, -⟩ := raiseHeight_same l n
  refine ⟨hl.toHolds.raised hn, fun i hi => ?_, ?_⟩
  · rw [hhead]
    refine (hl.chain i hi).congr fun y _ q hq => ?_
    rw [link, (reads_eq hnodes).1]
    exact hq
  · rw [raiseHeight_cur]
    exact le_max_right _ _

/-- Before the loop: the new node is there, on no level. -/
theorem Roomy.created {k : Key} {x : NodePtr} (hl : Roomy l (as ++ bs) n) (hpos : 0 < n)
    (hc : Created l (some k) n x l') : Linking l' as ⟨x, k, n⟩ bs n := by
  refine ⟨hl.toHolds.created hc hpos hl.room, fun j hj => ?_⟩
  rw [@levelPtrs_woven_height _ as bs ⟨x, k, n⟩, hc.head]
  refine (hl.chain j hj).congr fun y hy q hq => ?_
  have hy' : y ≠ x := hl.ne_of_fresh hc.fresh y
    (List.cons_subset_cons _ levelPtrs_sublist.subset hy)
  rw [link, hc.slot_old y j hy']
  exact hq

/-- The levels above the old maximum start at `head_`. -/
theorem raisePrev_eq {below : Entry Key → Prop} {pre : Prev} (hl : Holds l (as ++ bs))
    (hcut : Cut l below as bs pre) {j : Nat} (hj : j < n) :
    l.raisePrev n pre j = some (l.prevPtr j as) := by
  rw [raisePrev]
  split_ifs with h
  · have hnil : levelPtrs j as = [] := by
      rw [levelPtrs, Levels.level_eq_nil fun e he => ?_, List.map_nil]
      exact (hl.height_le e (List.mem_append_left _ he)).trans h.1
    rw [prevPtr, hnil, List.getLastD_nil]
  · exact hcut.pre_eq j (by omega)

/-- The assertion holds where no entry ties with the key. -/
theorem assertAbsent_ok {compare_ : Compare Key} {k : Key} {below : Entry Key → Prop}
    (hl : Holds l (as ++ bs)) (hd : Decides compare_ k (as ++ bs) below)
    (hab : ∀ e ∈ as ++ bs, compare_ e.key k ≠ .ok 0) :
    l.assertAbsent compare_ k (bs.head?.map Entry.ptr) = .ok () := by
  cases hb : bs.head? with
  | none => rfl
  | some e =>
      have he : e ∈ as ++ bs := List.mem_append_right _ (List.mem_of_head? hb)
      obtain ⟨c, hc, -⟩ := hd e he
      have hc0 : c ≠ 0 := fun h0 => hab e he (h0 ▸ hc)
      simp only [Option.map_some, assertAbsent, hl.key_eq e he, ok_bind, hc]
      exact assertion_of hc0

/-- Once the search has ended at a cut and the assertion holds, nothing else fails. -/
theorem insertAt_at_cut {compare_ : Compare Key} {k : Key} {below : Entry Key → Prop} {h : Nat}
    {pre : Prev} (hl : Shape l (as ++ bs)) (hcut : Cut l below as bs pre)
    (hfind : l.findEqualOrGreater compare_ k = .ok (bs.head?.map Entry.ptr, pre))
    (hassert : l.assertAbsent compare_ k (bs.head?.map Entry.ptr) = .ok ())
    (hpos : 0 < h) (hle : h ≤ kMaxHeight) :
    ∃ l', insertAt compare_ h k l = .ok l' ∧ Shape l' (as ++ ⟨l.nodes.length, k, h⟩ :: bs) ∧
      l'.head_ = l.head_ ∧ l'.rnd_ = l.rnd_ ∧ l'.nodes.length = l.nodes.length + 1 := by
  -- the new node, on no level, and the loop that links it
  obtain ⟨hnodes, hhead, hrnd⟩ := raiseHeight_same l h
  have hnew := newNode_spec (l.raiseHeight h) (some k) hpos
  have hstart := (hl.raised hle).created hpos hnew
  have hx : ((l.raiseHeight h).newNode (some k) h).1 = l.nodes.length := by rw [newNode, hnodes]
  obtain ⟨l', hrun, hend, hhead', hcur', hrnd', hlen'⟩ := linkLoop_spec
    (l.raisePrev h pre) h _ hstart (Nat.le_refl h) fun j hj => by
      rw [raisePrev_eq hl.toHolds hcut hj, prevPtr, prevPtr, hnew.head, hhead]
  have hcur : l'.curMaxHeight_ = maxHeight (as ++ ⟨l.nodes.length, k, h⟩ :: bs) := by
    rw [hcur', hnew.cur, raiseHeight_cur, hl.cur_eq, maxHeight_insert]
  refine ⟨l', ?_, ?_, hhead'.trans (hnew.head.trans hhead),
    hrnd'.trans (hnew.rnd.trans hrnd), hlen'.trans (hnew.size.trans (by rw [hnodes]))⟩
  · simp only [insertAt, hfind, ok_bind, hassert]
    exact hrun
  · rw [hx] at hend
    exact hend.shape hcur

/-- `insertAt` puts the new entry where the search for its key ends. -/
theorem insertAt_cut {compare_ : Compare Key} {k : Key} {below : Entry Key → Prop} {h : Nat}
    (hl : Shape l es) (hd : Decides compare_ k es below)
    (hab : ∀ e ∈ es, compare_ e.key k ≠ .ok 0) (hpos : 0 < h) (hle : h ≤ kMaxHeight) :
    ∃ as bs l', es = as ++ bs ∧ Descent Entry.height below l.curMaxHeight_ 0 as bs ∧
      insertAt compare_ h k l = .ok l' ∧ Shape l' (as ++ ⟨l.nodes.length, k, h⟩ :: bs) ∧
      l'.head_ = l.head_ ∧ l'.rnd_ = l.rnd_ ∧ l'.nodes.length = l.nodes.length + 1 := by
  obtain ⟨as, bs, pre, rfl, hcut, hfind⟩ := findEqualOrGreater_cut hl hd
  have hassert := assertAbsent_ok hl.toHolds hd hab
  obtain ⟨l', hl'⟩ := insertAt_at_cut hl hcut hfind hassert hpos hle
  exact ⟨as, bs, l', rfl, hcut.descent, hl'⟩

/-- An insertion that returns has put the new entry somewhere, whatever its comparator. -/
theorem Shape.inserted {compare_ : Compare Key} {k : Key} {h : Nat} (hl : Shape l es)
    (hrun : insertAt compare_ h k l = .ok l') (hpos : 0 < h) (hle : h ≤ kMaxHeight) :
    ∃ as bs, es = as ++ bs ∧ Shape l' (as ++ ⟨l.nodes.length, k, h⟩ :: bs) := by
  obtain ⟨⟨node, pre⟩, hfind, hrest⟩ := bind_eq_ok.mp hrun
  obtain ⟨_, hassert, -⟩ := bind_eq_ok.mp hrest
  obtain ⟨below, as, bs, rfl, hcut, rfl⟩ := findEqualOrGreater_found hl hfind
  obtain ⟨l'', hrun', hshape, -⟩ := insertAt_at_cut hl hcut hfind hassert hpos hle
  obtain rfl := Except.ok.inj (hrun.symm.trans hrun')
  exact ⟨as, bs, rfl, hshape⟩

end Leveldb.SkipList
