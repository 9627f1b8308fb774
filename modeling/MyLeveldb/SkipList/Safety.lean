import MyLeveldb.SkipList.Invariant

/-!
# SkipList — Safety

What the traversals touch.  A load of a slot a node does not have, of a slot nothing has been
stored to, of `head_`'s key, or of an unset `prev[i]`, is a fault, and so is a loop that does not
end: an operation that returns has done none of these.

The arena's memory is anything before it is stored to.  `insertOver` and `newOver` are `insert` and
the constructor over given contents of the new node's slots; they leave the same list whatever
these are (`insertOver_eq`, `newOver_eq`), since a slot is only ever loaded after it is stored to.

`traversals_safe`: on every list that is reached, all operations return.  Nothing is asked of the
comparator but that it puts no two of the keys inserted at a tie.
-/

namespace Leveldb.SkipList

open Levels (level Descent)

variable {Key : Type} {l l' : SkipList Key} {es as bs : List (Entry Key)} {cmp : Key → Key → Int}
  {x y : NodePtr} {i n : Nat}

/-! ### Fresh memory -/

/-- `newNode(key, height)` where the arena's memory holds `fresh` in place of the slots. -/
def newNodeOver (l : SkipList Key) (key : Option Key) (fresh : List Slot) :
    NodePtr × SkipList Key :=
  (l.nodes.length, { l with nodes := l.nodes ++ [{ key := key, next_ := fresh }] })

/-- `SkipList(cmp, arena)`, with `fresh` in the slots of `head_` before they are stored to. -/
def newOver (Key : Type) (fresh : List Slot) : Except Fault (SkipList Key) :=
  let l : SkipList Key :=
    { nodes := [], head_ := 0, rnd_ := Random.mk' 0xdeadbeef, curMaxHeight_ := 1 }
  let (head, l) := l.newNodeOver none fresh
  clearHead kMaxHeight { l with head_ := head }

/-- `insert(key)` at height `fresh.length`, with `fresh` in the slots of the new node. -/
def insertOver (compare_ : Compare Key) (fresh : List Slot) (key : Key) (l : SkipList Key) :
    Except Fault (SkipList Key) := do
  let (node, prev) ← l.findEqualOrGreater compare_ key
  l.assertAbsent compare_ key node
  let prev := l.raisePrev fresh.length prev
  let (node, l) := (l.raiseHeight fresh.length).newNodeOver (some key) fresh
  linkLoop node prev fresh.length l

/-- The list the constructor and the insertions of `kfs` leave, each key with the memory its node
is made in. -/
def insertAllOver (compare_ : Compare Key) :
    List (Key × List Slot) → SkipList Key → Except Fault (SkipList Key)
  | [], l => .ok l
  | (k, fresh) :: kfs, l => do
      let l ← insertOver compare_ fresh k l
      insertAllOver compare_ kfs l

def buildOver (compare_ : Compare Key) (head : List Slot) (kfs : List (Key × List Slot)) :
    Except Fault (SkipList Key) := do
  let l ← newOver Key head
  insertAllOver compare_ kfs l

/-- `AtomicPointer`'s constructor on `next_[0]` is one such memory. -/
theorem newNode_eq_over (l : SkipList Key) (key : Option Key) (h : Nat) :
    l.newNode key h = l.newNodeOver key (.constructed :: List.replicate (h - 1) .garbage) := rfl

/-- The constructor stores to every slot of `head_`. -/
theorem newOver_eq {fresh : List Slot} (h : fresh.length = kMaxHeight) :
    newOver Key fresh = SkipList.new Key := by
  have hclear : newOver Key fresh = _ := clearHead_eq rfl rfl kMaxHeight h.ge
  rw [hclear, new_eq, List.drop_of_length_le h.le, List.append_nil]
  rfl

/-! ### The loop of `insert` -/

/-- A list is its loads. -/
theorem ext_of_reads (hhead : l'.head_ = l.head_) (hcur : l'.curMaxHeight_ = l.curMaxHeight_)
    (hrnd : l'.rnd_ = l.rnd_) (hsize : l'.nodes.length = l.nodes.length)
    (hkey : ∀ y, l'.key y = l.key y) (hslot : ∀ y m, l'.slot y m = l.slot y m) : l' = l := by
  have hnodes : l'.nodes = l.nodes := by
    refine List.ext_getElem hsize fun y h' h => ?_
    have hk := hkey y
    have hs := hslot y
    simp only [SkipList.key, slot, List.getElem?_eq_getElem h', List.getElem?_eq_getElem h,
      Option.bind_some] at hk hs
    generalize l.nodes[y] = nd at hk hs ⊢
    generalize l'.nodes[y] = nd' at hk hs ⊢
    obtain ⟨k, ss⟩ := nd
    obtain ⟨k', ss'⟩ := nd'
    obtain rfl : ss' = ss := List.ext_getElem? hs
    cases k with
    | none =>
        cases k' with
        | none => rfl
        | some k' => cases hk
    | some k =>
        cases k' with
        | none => cases hk
        | some k' =>
            obtain rfl : k' = k := Except.ok.inj hk
            rfl
  obtain ⟨nodes, head, rnd, cur⟩ := l
  obtain ⟨nodes', head', rnd', cur'⟩ := l'
  obtain rfl : nodes' = nodes := hnodes
  obtain rfl : head' = head := hhead
  obtain rfl : rnd' = rnd := hrnd
  obtain rfl : cur' = cur := hcur
  rfl

/-- `l` and `l'` differ at most in the slots of `x` below `i`. -/
structure AgreeFrom (x : NodePtr) (i : Nat) (l l' : SkipList Key) : Prop where
  head : l'.head_ = l.head_
  cur : l'.curMaxHeight_ = l.curMaxHeight_
  rnd : l'.rnd_ = l.rnd_
  size : l'.nodes.length = l.nodes.length
  key : ∀ y, l'.key y = l.key y
  height : ∀ y, l'.height y = l.height y
  slot : ∀ y m, y ≠ x ∨ i ≤ m → l'.slot y m = l.slot y m

theorem setNext_wild {p : Option NodePtr} (h : ¬ n < l.height x) :
    l.setNext x n p = .error .wild := by
  unfold SkipList.height at h
  cases hx : l.nodes[x]? with
  | none => simp only [setNext, hx]
  | some nd =>
      rw [hx] at h
      simp only [setNext, hx, if_neg h]

namespace AgreeFrom

/-- With no slot left to differ in, they are one. -/
theorem eq (h : AgreeFrom x 0 l l') : l' = l :=
  ext_of_reads h.head h.cur h.rnd h.size h.key fun y m => h.slot y m (.inr (Nat.zero_le m))

theorem next_eq (h : AgreeFrom x i l l') (hy : y ≠ x) (n : Nat) : l'.next y n = l.next y n := by
  rw [SkipList.next, SkipList.next, h.slot y n (.inl hy)]

/-- One store to both; they agree on the slot after it. -/
theorem store {l₁ l₁' : SkipList Key} {p : Option NodePtr} {j : Nat} (h : AgreeFrom x j l l')
    (hs : Stored l y n p l₁) (hs' : Stored l' y n p l₁') (hj : ∀ m, i ≤ m → m < j → y = x ∧ m = n) :
    AgreeFrom x i l₁ l₁' := by
  refine ⟨?_, ?_, ?_, ?_, fun z => ?_, fun z => ?_, fun z m hz => ?_⟩
  · rw [hs.head, hs'.head, h.head]
  · rw [hs.cur, hs'.cur, h.cur]
  · rw [hs.rnd, hs'.rnd, h.rnd]
  · rw [hs.size, hs'.size, h.size]
  · rw [hs.key, hs'.key, h.key]
  · rw [hs.height, hs'.height, h.height]
  · by_cases hsame : z = y ∧ m = n
    · obtain ⟨rfl, rfl⟩ := hsame
      rw [hs.slot_same, hs'.slot_same]
    · have hother : z ≠ y ∨ m ≠ n := by tauto
      rw [hs.slot_other z m hother, hs'.slot_other z m hother]
      refine h.slot z m ?_
      by_contra hnot
      obtain ⟨hzx, hmj⟩ : z = x ∧ m < j := by simpa [not_or] using hnot
      obtain ⟨hyx, hmn⟩ := hj m (hz.resolve_left fun hne => hne hzx) hmj
      exact hsame ⟨hzx.trans hyx.symm, hmn⟩

/-- The store is in bounds in both, or in neither. -/
theorem setNext (h : AgreeFrom x i l l') (y : NodePtr) (n : Nat) (p : Option NodePtr) :
    (l.setNext y n p = .error .wild ∧ l'.setNext y n p = .error .wild) ∨
      ∃ l₁ l₁', l.setNext y n p = .ok l₁ ∧ l'.setNext y n p = .ok l₁' ∧ Stored l y n p l₁ ∧
        Stored l' y n p l₁' := by
  by_cases hn : n < l.height y
  · obtain ⟨l₁, hrun, hs⟩ := setNext_spec p hn
    obtain ⟨l₁', hrun', hs'⟩ := setNext_spec p (h.height y ▸ hn)
    exact .inr ⟨l₁, l₁', hrun, hrun', hs, hs'⟩
  · exact .inl ⟨setNext_wild hn, setNext_wild (h.height y ▸ hn)⟩

end AgreeFrom

/-- The loop loads no slot of the new node, and stores to all of them. -/
theorem linkLoop_congr {prev : Prev} :
    ∀ (i : Nat) (l l' : SkipList Key), AgreeFrom x i l l' →
      (∀ j, j < i → ∀ p, prev j = some p → p ≠ x) →
      linkLoop x prev i l' = linkLoop x prev i l := by
  intro i
  induction i with
  | zero =>
      intro l l' h _
      rw [h.eq]
  | succ i ih =>
      intro l l' h hprev
      cases hp : prev i with
      | none => simp only [linkLoop, prevAt, hp, error_bind]
      | some p =>
          have hne : p ≠ x := hprev i (Nat.lt_succ_self i) p hp
          simp only [linkLoop, prevAt, hp, ok_bind, h.next_eq hne]
          cases l.next p i with
          | error f => rfl
          | ok nx =>
              simp only [ok_bind]
              -- `node->setNext(i, nx)`, and then `prev[i]->setNext(i, node)`
              rcases h.setNext x i nx with ⟨hrun, hrun'⟩ | ⟨l₁, l₁', hrun, hrun', hs, hs'⟩
              · rw [hrun, hrun']
              have h₁ : AgreeFrom x i l₁ l₁' := h.store hs hs' fun m him hmi => ⟨rfl, by omega⟩
              rw [hrun, hrun', ok_bind, ok_bind]
              rcases h₁.setNext p i (some x) with ⟨hrun, hrun'⟩ | ⟨l₂, l₂', hrun, hrun', hs, hs'⟩
              · rw [hrun, hrun']
              have h₂ : AgreeFrom x i l₂ l₂' := h₁.store hs hs' fun m him hmi => by omega
              rw [hrun, hrun', ok_bind, ok_bind]
              exact ih l₂ l₂' h₂ fun j hj => hprev j (Nat.lt_succ_of_lt hj)

/-- Two memories for the new node. -/
theorem agreeFrom_newNodeOver (l : SkipList Key) (key : Option Key) {fresh fresh' : List Slot}
    (h : fresh'.length = fresh.length) :
    AgreeFrom l.nodes.length fresh.length (l.newNodeOver key fresh).2
      (l.newNodeOver key fresh').2 := by
  have other : ∀ (ss : List Slot) y, y ≠ l.nodes.length →
      (l.newNodeOver key ss).2.nodes[y]? = l.nodes[y]? :=
    fun ss y => getElem?_concat_of_ne _
  have same : ∀ ss : List Slot,
      (l.newNodeOver key ss).2.nodes[l.nodes.length]? = some { key := key, next_ := ss } :=
    fun ss => List.getElem?_concat_length
  refine ⟨rfl, rfl, rfl, ?_, fun y => ?_, fun y => ?_, fun y m hym => ?_⟩
  · show (l.nodes ++ [_]).length = (l.nodes ++ [_]).length
    rw [List.length_append, List.length_append]
    rfl
  · by_cases hy : y = l.nodes.length
    · rw [hy, SkipList.key, SkipList.key, same, same]
    · rw [SkipList.key, SkipList.key, other _ y hy, other _ y hy]
  · by_cases hy : y = l.nodes.length
    · rw [hy, SkipList.height, SkipList.height, same, same]
      exact h
    · rw [SkipList.height, SkipList.height, other _ y hy, other _ y hy]
  · by_cases hy : y = l.nodes.length
    · have hm : fresh.length ≤ m := hym.resolve_left fun hne => hne hy
      rw [hy, slot, slot, same, same]
      show fresh'[m]? = fresh[m]?
      rw [List.getElem?_eq_none hm, List.getElem?_eq_none (h ▸ hm)]
    · rw [slot, slot, other _ y hy, other _ y hy]

/-- What the new node's memory holds does not matter. -/
theorem insertOver_eq {compare_ : Compare Key} {k : Key} {below : Entry Key → Prop}
    {fresh : List Slot} (hl : Shape l es) (hd : Decides compare_ k es below)
    (hpos : 0 < fresh.length) :
    insertOver compare_ fresh k l = insertAt compare_ fresh.length k l := by
  obtain ⟨as, bs, pre, rfl, hcut, hfind⟩ := findEqualOrGreater_cut hl hd
  have hlen : (.constructed :: List.replicate (fresh.length - 1) .garbage : List Slot).length =
      fresh.length := by
    rw [List.length_cons, List.length_replicate]
    omega
  have hfresh : l.height (l.raiseHeight fresh.length).nodes.length = 0 := by
    rw [(raiseHeight_same l _).1, SkipList.height, List.getElem?_eq_none (Nat.le_refl _)]
  have hprev : ∀ j, j < fresh.length → ∀ p, l.raisePrev fresh.length pre j = some p →
      p ≠ (l.raiseHeight fresh.length).nodes.length := by
    intro j hj p hp
    rw [raisePrev_eq hl.toHolds hcut hj] at hp
    obtain rfl := Option.some.inj hp
    have hsub : levelPtrs j as ⊆ (as ++ bs).map Entry.ptr := by
      rw [List.map_append]
      exact List.Subset.trans levelPtrs_sublist.subset (List.subset_append_left _ _)
    exact hl.ne_of_fresh hfresh _ (List.cons_subset_cons _ hsub prevPtr_mem)
  have hagree := agreeFrom_newNodeOver (l.raiseHeight fresh.length) (some k) hlen
  rw [← newNode_eq_over] at hagree
  have hloop := linkLoop_congr _ _ _ hagree hprev
  rw [insertOver, insertAt, hfind, ok_bind, ok_bind]
  exact congrArg (fun r => l.assertAbsent compare_ k _ >>= fun _ => r) hloop.symm

/-! ### The lists that are reached -/

/-- The nodes of `l` are `head_`, which has no key, and those of `es`. -/
structure Whole (l : SkipList Key) (es : List (Entry Key)) : Prop extends Shape l es where
  all : ∀ x, x < l.nodes.length → x ≠ l.head_ → x ∈ es.map Entry.ptr
  head_key : l.key l.head_ = .error .wild

theorem setNext_ok {p : Option NodePtr} (h : l.setNext x n p = .ok l') : Stored l x n p l' := by
  by_cases hn : n < l.height x
  · obtain ⟨l₁, hrun, hs⟩ := setNext_spec p hn
    obtain rfl := Except.ok.inj (hrun.symm.trans h)
    exact hs
  · rw [setNext_wild hn] at h
    cases h

theorem linkLoop_key {prev : Prev} :
    ∀ (n : Nat) (l : SkipList Key), linkLoop x prev n l = .ok l' → ∀ y, l'.key y = l.key y := by
  intro n
  induction n with
  | zero =>
      intro l h y
      obtain rfl := Except.ok.inj h
      rfl
  | succ n ih =>
      intro l h y
      obtain ⟨p, -, h⟩ := bind_eq_ok.mp h
      obtain ⟨nx, -, h⟩ := bind_eq_ok.mp h
      obtain ⟨l₁, hrun₁, h⟩ := bind_eq_ok.mp h
      obtain ⟨l₂, hrun₂, h⟩ := bind_eq_ok.mp h
      rw [ih l₂ h, (setNext_ok hrun₂).key, (setNext_ok hrun₁).key]

/-- The key of a node is `const`. -/
theorem insertAt_key {compare_ : Compare Key} {k : Key} {h : Nat} (hpos : 0 < h)
    (hrun : insertAt compare_ h k l = .ok l') (hx : x < l.nodes.length) :
    l'.key x = l.key x := by
  obtain ⟨⟨node, prev⟩, -, hrun⟩ := bind_eq_ok.mp hrun
  obtain ⟨-, -, hrun⟩ := bind_eq_ok.mp hrun
  obtain ⟨hnodes, -, -⟩ := raiseHeight_same l h
  have hnew := newNode_spec (l.raiseHeight h) (some k) hpos
  have hne : x ≠ ((l.raiseHeight h).newNode (some k) h).1 := by
    show x ≠ (l.raiseHeight h).nodes.length
    rw [hnodes]
    exact hx.ne
  have hkey : l'.key x = ((l.raiseHeight h).newNode (some k) h).2.key x :=
    linkLoop_key h _ hrun x
  rw [hkey, hnew.key_old x hne, (reads_eq hnodes).2.1]

namespace Whole

/-- Every slot a node was allocated with has been stored to. -/
theorem slot_stored (hl : Whole l es) (hn : n < l.height x) :
    ∃ p, l.slot x n = some (.stored p) := by
  have hx : x < l.nodes.length := by
    by_contra hlt
    rw [SkipList.height, List.getElem?_eq_none (Nat.not_lt.mp hlt)] at hn
    cases hn
  by_cases hhead : x = l.head_
  · rw [hhead, hl.head_height] at hn
    rw [hhead]
    exact (hl.chain n hn).exists_link _ List.mem_cons_self
  · obtain ⟨e, he, rfl⟩ := List.mem_map.mp (hl.all x hx hhead)
    rw [hl.height_eq e he] at hn
    have hlevel : e.ptr ∈ levelPtrs n es := List.mem_map_of_mem (Levels.mem_level.mpr ⟨he, hn⟩)
    have hmax : n < kMaxHeight := by
      have := hl.height_le e he
      have := hl.cur_le
      omega
    exact (hl.chain n hmax).exists_link _ (List.mem_cons_of_mem _ hlevel)

theorem reseed (hl : Whole l es) (r : Random) : Whole { l with rnd_ := r } es :=
  ⟨hl.toShape.reseed r, hl.all, hl.head_key⟩

end Whole

theorem new_whole (Key : Type) : ∃ l, SkipList.new Key = .ok l ∧ Whole l [] := by
  obtain ⟨l, hl, hsh, hlen⟩ := new_shape Key
  obtain rfl := Except.ok.inj (new_eq.symm.trans hl)
  refine ⟨_, hl, hsh, fun x hx hne => absurd ?_ hne, rfl⟩
  rw [hlen] at hx
  exact Nat.lt_one_iff.mp hx

/-- An insertion of a key no entry ties with, into any memory. -/
theorem insertOver_whole {k : Key} {fresh : List Slot} (hl : Whole l es)
    (hab : ∀ e ∈ es, cmp e.key k ≠ 0) (hpos : 1 ≤ fresh.length) (hle : fresh.length ≤ kMaxHeight) :
    ∃ l' es', insertOver (.ofInt cmp) fresh k l = .ok l' ∧
      insertAt (.ofInt cmp) fresh.length k l = .ok l' ∧ Whole l' es' ∧
      (∀ e ∈ es', e ∈ es ∨ e.key = k) ∧ l'.head_ = l.head_ ∧
      l'.nodes.length = l.nodes.length + 1 := by
  have hd := decides_ofInt cmp k es
  obtain ⟨as, bs, l', rfl, -, hrun, hsh, hhead, -, hlen⟩ :=
    insertAt_cut hl.toShape hd (fun e he h0 => hab e he (Except.ok.inj h0)) hpos hle
  have hkey : l'.key l'.head_ = .error .wild := by
    rw [hhead, insertAt_key hpos hrun (hl.lt_length List.mem_cons_self), hl.head_key]
  refine ⟨l', _, (insertOver_eq hl.toShape hd hpos).trans hrun, hrun,
    ⟨hsh, all_insert hhead hlen hl.all, hkey⟩, fun e he => ?_, hhead, hlen⟩
  rcases mem_insert.mp he with rfl | he
  · exact .inr rfl
  · exact .inl he

/-! ### What the operations return -/

/-- The iterator stands on a node of the list other than `head_`, or on none. -/
def OnNode (l : SkipList Key) (it : Iterator) : Prop :=
  ∀ x ∈ it.node_, x < l.nodes.length ∧ x ≠ l.head_

/-- Every operation on `l`, into which `keys` were inserted, returns. -/
structure TraversalsSafe (cmp : Key → Key → Int) (keys : List Key) (l : SkipList Key) : Prop where
  stored : ∀ x n, n < l.height x → ∃ p, l.slot x n = some (.stored p)
  head_key : l.key l.head_ = .error .wild
  findEqualOrGreater : ∀ t, ∃ node pre, l.findEqualOrGreater (.ofInt cmp) t = .ok (node, pre) ∧
    ∀ i, i < l.curMaxHeight_ → ∃ x, pre i = some x ∧ i < l.height x
  findLessThan : ∀ t, ∃ x, l.findLessThan (.ofInt cmp) t = .ok x
  findLast : ∃ x, l.findLast = .ok x
  contains : ∀ t, ∃ b, l.contains (.ofInt cmp) t = .ok b
  seek : ∀ t, ∃ it, Iterator.seek (.ofInt cmp) l t = .ok it ∧ OnNode l it
  seekToFirst : ∃ it, Iterator.seekToFirst l = .ok it ∧ OnNode l it
  seekToLast : ∃ it, Iterator.seekToLast l = .ok it ∧ OnNode l it
  iterator_key : ∀ it, OnNode l it → it.valid → ∃ k, Iterator.key l it = .ok k
  iterator_next : ∀ it, OnNode l it → it.valid →
    ∃ it', Iterator.next l it = .ok it' ∧ OnNode l it'
  iterator_prev : ∀ it, OnNode l it → it.valid →
    ∃ it', Iterator.prev (.ofInt cmp) l it = .ok it' ∧ OnNode l it'
  insertOver : ∀ k, (∀ a ∈ keys, cmp a k ≠ 0) → ∀ fresh : List Slot, 1 ≤ fresh.length →
    fresh.length ≤ kMaxHeight → ∃ l', insertOver (.ofInt cmp) fresh k l = .ok l' ∧
      insertAt (.ofInt cmp) fresh.length k l = .ok l' ∧ ∀ it, OnNode l it → OnNode l' it
  insert : ∀ k, (∀ a ∈ keys, cmp a k ≠ 0) → ∃ l', insert (.ofInt cmp) k l = .ok l' ∧
    ∀ it, OnNode l it → OnNode l' it

namespace Whole

variable {it : Iterator}

theorem onNode_entry (hl : Whole l es) {e : Entry Key} (he : e ∈ es) : OnNode l ⟨some e.ptr⟩ := by
  rintro x ⟨⟩
  exact ⟨hl.lt_length (List.mem_cons_of_mem _ (List.mem_map_of_mem he)), hl.head_ne he⟩

/-- The node after a cut. -/
theorem onNode_head? (hl : Whole l (as ++ bs)) : OnNode l ⟨bs.head?.map Entry.ptr⟩ := by
  cases bs with
  | nil => exact fun x hx => absurd hx (by simp)
  | cons b bs => exact hl.onNode_entry (by simp)

/-- The node before a cut, which the iterator drops where it is `head_`. -/
theorem onNode_unlessHead (hl : Whole l (as ++ bs)) :
    OnNode l (Iterator.unlessHead l (l.lastPtr as)) := by
  rcases List.eq_nil_or_concat as with rfl | ⟨as, a, rfl⟩
  · rw [lastPtr_nil, Iterator.unlessHead, if_pos rfl]
    exact fun x hx => absurd hx (by simp)
  · have ha : a ∈ as.concat a ++ bs := by simp
    rw [List.concat_eq_append, lastPtr_concat, Iterator.unlessHead, if_neg (hl.head_ne ha)]
    exact hl.onNode_entry ha

/-- A valid iterator stands on an entry. -/
theorem onNode_cases (hl : Whole l es) (hit : OnNode l it) (hv : it.valid) :
    ∃ e ∈ es, it = ⟨some e.ptr⟩ := by
  obtain ⟨node⟩ := it
  obtain ⟨x, rfl⟩ := Option.isSome_iff_exists.mp hv
  obtain ⟨hx, hne⟩ := hit x rfl
  obtain ⟨e, he, rfl⟩ := List.mem_map.mp (hl.all x hx hne)
  exact ⟨e, he, rfl⟩

theorem finds (hl : Whole l es) (cmp : Key → Key → Int) (t : Key) :
    ∃ as bs pre, es = as ++ bs ∧
      l.findEqualOrGreater (.ofInt cmp) t = .ok (bs.head?.map Entry.ptr, pre) ∧
      ∀ i, i < l.curMaxHeight_ → ∃ x, pre i = some x ∧ i < l.height x := by
  obtain ⟨as, bs, pre, rfl, hcut, hfind⟩ :=
    findEqualOrGreater_cut hl.toShape (decides_ofInt cmp t es)
  refine ⟨as, bs, pre, rfl, hfind, fun i hi => ⟨_, hcut.pre_eq i hi, ?_⟩⟩
  refine hl.lt_height_of_mem (hi.trans_le hl.cur_le) ?_
  exact List.cons_subset_cons _ (by simp) prevPtr_mem

theorem isAt_ok (hl : Whole l (as ++ bs)) (cmp : Key → Key → Int) (t : Key) :
    ∃ b, l.isAt (.ofInt cmp) t (bs.head?.map Entry.ptr) = .ok b := by
  cases bs with
  | nil => exact ⟨false, rfl⟩
  | cons e bs =>
      refine ⟨decide (cmp e.key t = 0), ?_⟩
      rw [List.head?_cons, Option.map_some, isAt, hl.key_eq e (by simp)]
      rfl

theorem prev_ok (hl : Whole l es) (hit : OnNode l it) (hv : it.valid) :
    ∃ it', Iterator.prev (.ofInt cmp) l it = .ok it' ∧ OnNode l it' := by
  obtain ⟨e, he, rfl⟩ := hl.onNode_cases hit hv
  obtain ⟨as, bs, rfl, -, hrun⟩ := findLessThan_cut hl.toShape (decides_ofInt cmp e.key es)
  refine ⟨_, ?_, hl.onNode_unlessHead⟩
  simp only [Iterator.prev, hl.key_eq e he, ok_bind, hrun]

theorem next_ok (hl : Whole l es) (hit : OnNode l it) (hv : it.valid) :
    ∃ it', Iterator.next l it = .ok it' ∧ OnNode l it' := by
  obtain ⟨e, he, rfl⟩ := hl.onNode_cases hit hv
  obtain ⟨as, bs, rfl⟩ := List.append_of_mem he
  have hcut : as ++ e :: bs = (as ++ [e]) ++ bs := by simp
  rw [hcut] at hl
  have hnext := hl.next_zero
  rw [lastPtr_concat] at hnext
  refine ⟨_, ?_, hl.onNode_head?⟩
  simp only [Iterator.next, hnext, ok_bind]

/-- An iterator outlives the insertions. -/
theorem onNode_mono (hhead : l'.head_ = l.head_)
    (hlen : l'.nodes.length = l.nodes.length + 1) (hit : OnNode l it) : OnNode l' it := by
  intro x hx
  obtain ⟨hlt, hne⟩ := hit x hx
  exact ⟨hlt.trans (hlen ▸ Nat.lt_succ_self _), hhead ▸ hne⟩

theorem traversalsSafe {keys : List Key} (hl : Whole l es) (hkeys : ∀ e ∈ es, e.key ∈ keys) :
    TraversalsSafe cmp keys l where
  stored x n hn := hl.slot_stored hn
  head_key := hl.head_key
  findEqualOrGreater t := by
    obtain ⟨as, bs, pre, -, hfind, hpre⟩ := hl.finds cmp t
    exact ⟨_, pre, hfind, hpre⟩
  findLessThan t := by
    obtain ⟨as, bs, -, -, hrun⟩ := findLessThan_cut hl.toShape (decides_ofInt cmp t es)
    exact ⟨_, hrun⟩
  findLast := ⟨_, findLast_eq hl.toShape⟩
  contains t := by
    obtain ⟨as, bs, pre, rfl, hfind, -⟩ := hl.finds cmp t
    obtain ⟨b, hb⟩ := hl.isAt_ok cmp t
    refine ⟨b, ?_⟩
    rw [SkipList.contains, hfind, ok_bind]
    exact hb
  seek t := by
    obtain ⟨as, bs, pre, rfl, hfind, -⟩ := hl.finds cmp t
    refine ⟨_, ?_, hl.onNode_head?⟩
    rw [Iterator.seek, hfind, ok_bind]
  seekToFirst := by
    have hl : Whole l ([] ++ es) := hl
    have hnext : l.next l.head_ 0 = _ := hl.next_zero
    refine ⟨_, ?_, hl.onNode_head?⟩
    rw [Iterator.seekToFirst, hnext, ok_bind]
  seekToLast := by
    have hl₁ : Whole l (es ++ []) := es.append_nil.symm ▸ hl
    refine ⟨_, ?_, hl₁.onNode_unlessHead⟩
    rw [Iterator.seekToLast, findLast_eq hl.toShape, ok_bind]
  iterator_key it hit hv := by
    obtain ⟨e, he, rfl⟩ := hl.onNode_cases hit hv
    exact ⟨e.key, hl.key_eq e he⟩
  iterator_next it hit hv := hl.next_ok hit hv
  iterator_prev it hit hv := hl.prev_ok hit hv
  insertOver k hk fresh hpos hle := by
    obtain ⟨l', es', hrun, hrunAt, -, -, hhead, hlen⟩ :=
      insertOver_whole hl (fun e he => hk _ (hkeys e he)) hpos hle
    exact ⟨l', hrun, hrunAt, fun it hit => onNode_mono hhead hlen hit⟩
  insert k hk := by
    -- the height drawn, with as many slots of any memory
    obtain ⟨hpos, hle⟩ := randomHeight_range l.rnd_
    have hfresh : (List.replicate (randomHeight l.rnd_).1 Slot.garbage).length = _ :=
      List.length_replicate
    obtain ⟨l', es', -, hrun, -, -, hhead, hlen⟩ :=
      insertOver_whole (hl.reseed (randomHeight l.rnd_).2) (fun e he => hk _ (hkeys e he))
        (hpos.trans hfresh.ge) (hfresh.le.trans hle)
    rw [hfresh] at hrun
    exact ⟨l', hrun, fun it hit => onNode_mono hhead hlen hit⟩

end Whole

/-- Each key with the height of its node. -/
def keyHeights (kfs : List (Key × List Slot)) : List (Key × Nat) :=
  kfs.map fun kf => (kf.1, kf.2.length)

/-- The insertions of keys no two of which tie, into any memory. -/
theorem insertAllOver_whole :
    ∀ (kfs : List (Key × List Slot)) (l : SkipList Key) (es : List (Entry Key))
      (keys : List Key), Whole l es → (∀ e ∈ es, e.key ∈ keys) →
      (keys ++ kfs.map Prod.fst).Pairwise (cmp · · ≠ 0) →
      (∀ kf ∈ kfs, 1 ≤ kf.2.length ∧ kf.2.length ≤ kMaxHeight) →
      ∃ l' es', insertAllOver (.ofInt cmp) kfs l = .ok l' ∧
        insertAll (.ofInt cmp) (keyHeights kfs) l = .ok l' ∧ Whole l' es' ∧
        ∀ e ∈ es', e.key ∈ keys ++ kfs.map Prod.fst := by
  intro kfs
  induction kfs with
  | nil =>
      intro l es keys hl hkeys _ _
      exact ⟨l, es, rfl, rfl, hl, fun e he => List.mem_append_left _ (hkeys e he)⟩
  | cons kf kfs ih =>
      obtain ⟨k, fresh⟩ := kf
      intro l es keys hl hkeys hdistinct hh
      obtain ⟨hpos, hle⟩ := hh (k, fresh) List.mem_cons_self
      have hab : ∀ e ∈ es, cmp e.key k ≠ 0 := fun e he =>
        (List.pairwise_append.mp hdistinct).2.2 _ (hkeys e he) k List.mem_cons_self
      obtain ⟨l₁, es₁, hrun, hrunAt, hl₁, hkeys₁, -, -⟩ := insertOver_whole hl hab hpos hle
      have hassoc : keys ++ k :: kfs.map Prod.fst = (keys ++ [k]) ++ kfs.map Prod.fst := by simp
      rw [List.map_cons, hassoc] at hdistinct ⊢
      obtain ⟨l', es', hrun', hrunAt', hl', hkeys'⟩ := ih l₁ es₁ (keys ++ [k]) hl₁
        (fun e he => by
          rcases hkeys₁ e he with he | hk
          · exact List.mem_append_left _ (hkeys e he)
          · exact List.mem_append_right _ (List.mem_singleton.mpr hk))
        hdistinct fun kf hkf => hh kf (List.mem_cons_of_mem _ hkf)
      refine ⟨l', es', ?_, ?_, hl', hkeys'⟩
      · rw [insertAllOver, hrun, ok_bind, hrun']
      · rw [keyHeights, List.map_cons, insertAll, hrunAt, ok_bind, ← keyHeights, hrunAt']

/-- **Every traversal is in bounds and ends**, on every list the constructor and insertions of
distinct keys reach, whatever their heights.  The list does not depend on the memory the nodes are
made in: a load of a slot before it is stored to would fault where the memory is `.garbage`. -/
theorem traversals_safe (cmp : Key → Key → Int) (head : List Slot)
    (kfs : List (Key × List Slot)) (hhead : head.length = kMaxHeight)
    (hdistinct : (kfs.map Prod.fst).Pairwise (cmp · · ≠ 0))
    (hheights : ∀ kf ∈ kfs, 1 ≤ kf.2.length ∧ kf.2.length ≤ kMaxHeight) :
    ∃ l, buildOver (.ofInt cmp) head kfs = .ok l ∧
      build (.ofInt cmp) (keyHeights kfs) = .ok l ∧
      TraversalsSafe cmp (kfs.map Prod.fst) l := by
  obtain ⟨l₀, hnew, hl₀⟩ := new_whole Key
  obtain ⟨l, es, hrun, hrunAt, hl, hkeys⟩ :=
    insertAllOver_whole kfs l₀ [] [] hl₀ (by simp) hdistinct hheights
  refine ⟨l, ?_, ?_, hl.traversalsSafe hkeys⟩
  · rw [buildOver, newOver_eq hhead, hnew, ok_bind, hrun]
  · rw [build, hnew, ok_bind, hrunAt]

theorem traversals_safe_two :
    ∃ l, buildOver (.ofInt ThreeWay.ofLT) (List.replicate 12 .garbage)
        [((20 : Nat), [.constructed]), (10, [.constructed, .garbage, .stored (some 77)])] = .ok l ∧
      build (.ofInt ThreeWay.ofLT) [((20 : Nat), 1), (10, 3)] = .ok l ∧
      TraversalsSafe ThreeWay.ofLT [20, 10] l :=
  traversals_safe ThreeWay.ofLT _ _ (by decide) (by decide) (by decide)

end Leveldb.SkipList
