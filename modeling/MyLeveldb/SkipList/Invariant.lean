import MyLeveldb.SkipList.Insert

/-!
# SkipList — Invariant

The lists the constructor and `insert` reach.  `Sorted cmp l es` is the shape with the entries in
the order of `cmp`; the constructor establishes it for no entries (`new_sorted`) and an insertion
keeps it (`insertAt_sorted`), whatever the height.

`RepInvariant` is the same fact read off the list's loads alone: `walk i` follows `next_[i]` from
`head_` until `NULL`.  `built_repInvariant` proves it of every list `build` returns, that is of
every sequence of insertions of distinct keys, and `insert_sorted` says that `insert`, at whatever
height it draws, is one of them.
-/

namespace Leveldb.SkipList

open Levels (level Descent)
open ThreeWay

variable {Key : Type} {l l' : SkipList Key} {es as bs : List (Entry Key)} {cmp : Key → Key → Int}

/-! ### The constructor -/

/-- The constructor's loop stores to the slots of `head_` from the lowest up. -/
theorem clearHead_eq {l : SkipList Key} {slots : List Slot} (hn : l.nodes = [⟨none, slots⟩])
    (hh : l.head_ = 0) :
    ∀ n, n ≤ slots.length → clearHead n l =
      .ok { l with nodes := [⟨none, List.replicate n (.stored none) ++ slots.drop n⟩] } := by
  intro n
  induction n with
  | zero => intro _; simp [clearHead, ← hn]
  | succ n ih =>
      intro hle
      have hset : (List.replicate n (Slot.stored none) ++ slots.drop n).set n (.stored none) =
          List.replicate (n + 1) (.stored none) ++ slots.drop (n + 1) := by
        rw [List.set_append_right _ _ (by simp), List.length_replicate, Nat.sub_self,
          List.drop_eq_getElem_cons hle, List.set_cons_zero, List.replicate_succ',
          List.append_assoc, List.singleton_append]
      have hlt : n < (List.replicate n (Slot.stored none) ++ slots.drop n).length := by
        simp only [List.length_append, List.length_replicate, List.length_drop]
        omega
      rw [clearHead, ih (Nat.le_of_succ_le hle), ok_bind]
      simp only [setNext, hh, List.getElem?_cons_zero, if_pos hlt, hset, List.set_cons_zero]

theorem new_eq : SkipList.new Key = .ok
    { nodes := [⟨none, List.replicate kMaxHeight (.stored none)⟩], head_ := 0,
      rnd_ := Random.mk' 0xdeadbeef, curMaxHeight_ := 1 } := by
  have hlen : (Node.mk' (none : Option Key) kMaxHeight).next_.length = kMaxHeight := rfl
  exact (clearHead_eq rfl rfl kMaxHeight hlen.ge).trans rfl

theorem new_shape (Key : Type) :
    ∃ l, SkipList.new Key = .ok l ∧ Shape l [] ∧ l.nodes.length = 1 := by
  refine ⟨_, new_eq, ⟨⟨rfl, by simp, by simp, by simp, by simp, Nat.one_pos, by simp [kMaxHeight],
    by simp⟩, fun i hi => ?_, rfl⟩, rfl⟩
  have hslot : (List.replicate kMaxHeight (Slot.stored none))[i]? = some (.stored none) := by
    rw [List.getElem?_replicate, if_pos hi]
  simp [Linked.Chain, link, slot, hslot]

/-! ### Sorted lists -/

/-- `l` has the shape of `es`, in the order of `cmp`, and no node besides. -/
structure Sorted (cmp : Key → Key → Int) (l : SkipList Key) (es : List (Entry Key)) : Prop
    extends Shape l es where
  sorted : es.Pairwise fun a b => cmp a.key b.key < 0
  all : ∀ x, x < l.nodes.length → x ≠ l.head_ → x ∈ es.map Entry.ptr

theorem decides_ofInt (cmp : Key → Key → Int) (t : Key) (es : List (Entry Key)) :
    Decides (.ofInt cmp) t es fun e => cmp e.key t < 0 :=
  fun e _ => ⟨cmp e.key t, rfl, Iff.rfl⟩

namespace Sorted

/-- A search of a sorted list separates the keys below the target from the others. -/
theorem split {n : Nat} {t : Key} (hc : IsPreorder cmp) (hl : Sorted cmp l (as ++ bs))
    (hd : Descent Entry.height (fun e => cmp e.key t < 0) n 0 as bs) (hn : 0 < n) :
    (∀ e ∈ as, cmp e.key t < 0) ∧ ∀ e ∈ bs, 0 ≤ cmp e.key t := by
  have hdown : ∀ x y : Entry Key, cmp x.key y.key < 0 → cmp y.key t < 0 → cmp x.key t < 0 :=
    fun x y => hc.lt_trans
  obtain ⟨has, hbs, -⟩ := List.pairwise_append.mp hl.sorted
  refine ⟨hd.all_below has hdown, fun e he => ?_⟩
  have := hd.none_below hn (fun e he => hl.height_pos e (List.mem_append_right _ he)) hbs hdown e he
  omega

/-- The order has room for a new key at the cut its search ends at. -/
theorem with_new {k : Key} (hc : IsPreorder cmp) (hl : Sorted cmp l (as ++ bs))
    (hlow : ∀ e ∈ as, cmp e.key k < 0) (hhigh : ∀ e ∈ bs, 0 ≤ cmp e.key k)
    (hab : ∀ e ∈ as ++ bs, cmp e.key k ≠ 0) (x : NodePtr) (h : Nat) :
    (as ++ ⟨x, k, h⟩ :: bs).Pairwise fun a b => cmp a.key b.key < 0 := by
  obtain ⟨has, hbs, hcross⟩ := List.pairwise_append.mp hl.sorted
  refine List.pairwise_append.mpr ⟨has, List.pairwise_cons.mpr ⟨fun e he => ?_, hbs⟩, ?_⟩
  · have := hhigh e he
    have := hab e (List.mem_append_right _ he)
    exact (hc.flip k e.key).mpr (by omega)
  · intro e he e' he'
    rcases List.mem_cons.mp he' with rfl | he'
    · exact hlow e he
    · exact hcross e he e' he'

end Sorted

theorem new_sorted (cmp : Key → Key → Int) :
    ∃ l, SkipList.new Key = .ok l ∧ Sorted cmp l [] := by
  obtain ⟨l, hl, hsh, hlen⟩ := new_shape Key
  have hhead : l.head_ = 0 := by
    rw [new_eq] at hl
    cases hl
    rfl
  exact ⟨l, hl, hsh, .nil, fun x hx hne => absurd (hhead.symm ▸ (by omega : x = 0)) hne⟩

/-- The only node an insertion adds is the new entry's. -/
theorem all_insert {k : Key} {h : Nat} (hhead : l'.head_ = l.head_)
    (hlen : l'.nodes.length = l.nodes.length + 1)
    (hall : ∀ x, x < l.nodes.length → x ≠ l.head_ → x ∈ (as ++ bs).map Entry.ptr) :
    ∀ x, x < l'.nodes.length → x ≠ l'.head_ →
      x ∈ (as ++ ⟨l.nodes.length, k, h⟩ :: bs).map Entry.ptr := by
  intro x hx hne
  rw [hhead] at hne
  refine mem_ptrs_insert.mpr ?_
  by_cases hxl : x < l.nodes.length
  · exact .inr (hall x hxl hne)
  · exact .inl (show x = l.nodes.length by omega)

/-- An insertion of a key no entry ties with. -/
theorem insertAt_sorted {k : Key} {h : Nat} (hc : IsPreorder cmp) (hl : Sorted cmp l es)
    (hab : ∀ e ∈ es, cmp e.key k ≠ 0) (hpos : 0 < h) (hle : h ≤ kMaxHeight) :
    ∃ as bs l', es = as ++ bs ∧ insertAt (.ofInt cmp) h k l = .ok l' ∧
      Sorted cmp l' (as ++ ⟨l.nodes.length, k, h⟩ :: bs) ∧ l'.rnd_ = l.rnd_ := by
  obtain ⟨as, bs, l', rfl, hd, hrun, hsh, hhead, hrnd, hlen⟩ :=
    insertAt_cut hl.toShape (decides_ofInt cmp k _)
      (fun e he h0 => hab e he (Except.ok.inj h0)) hpos hle
  obtain ⟨hlow, hhigh⟩ := hl.split hc hd hl.cur_pos
  exact ⟨as, bs, l', rfl, hrun, ⟨hsh, hl.with_new hc hlow hhigh hab l.nodes.length h,
    all_insert hhead hlen hl.all⟩, hrnd⟩

/-! ### Sequences of insertions -/

/-- Inserts `kvs` in order, each key with the height beside it. -/
def insertAll (compare_ : Compare Key) :
    List (Key × Nat) → SkipList Key → Except Fault (SkipList Key)
  | [], l => .ok l
  | (k, h) :: kvs, l => do
      let l ← insertAt compare_ h k l
      insertAll compare_ kvs l

/-- The list the constructor and the insertions of `kvs` leave. -/
def build (compare_ : Compare Key) (kvs : List (Key × Nat)) : Except Fault (SkipList Key) := do
  let l ← SkipList.new Key
  insertAll compare_ kvs l

/-- The heights are ones `randomHeight` yields. -/
def HeightsInRange (kvs : List (Key × Nat)) : Prop :=
  ∀ kv ∈ kvs, 1 ≤ kv.2 ∧ kv.2 ≤ kMaxHeight

/-- What an entry records of an insertion. -/
def Entry.kv (e : Entry Key) : Key × Nat := (e.key, e.height)

instance (kvs : List (Key × Nat)) : Decidable (HeightsInRange kvs) :=
  inferInstanceAs (Decidable (∀ kv ∈ kvs, 1 ≤ kv.2 ∧ kv.2 ≤ kMaxHeight))

theorem insertAll_sorted (hc : IsStrict cmp) :
    ∀ (kvs : List (Key × Nat)) (l : SkipList Key) (es : List (Entry Key)), Sorted cmp l es →
      ((es.map Entry.kv ++ kvs).map Prod.fst).Nodup → HeightsInRange kvs →
      ∃ l' es', insertAll (.ofInt cmp) kvs l = .ok l' ∧ Sorted cmp l' es' ∧
        (es'.map Entry.kv).Perm (es.map Entry.kv ++ kvs) := by
  intro kvs
  induction kvs with
  | nil => exact fun l es hl _ _ => ⟨l, es, rfl, hl, by simp⟩
  | cons kv kvs ih =>
      obtain ⟨k, h⟩ := kv
      intro l es hl hnd hh
      have hkh := hh (k, h) (by simp)
      have hab : ∀ e ∈ es, cmp e.key k ≠ 0 := by
        intro e he h0
        rw [List.map_append, List.nodup_append] at hnd
        refine hnd.2.2 e.key ?_ k (by simp) (hc.eq_of_tie _ _ h0)
        exact List.mem_map.mpr ⟨e.kv, List.mem_map_of_mem he, rfl⟩
      obtain ⟨as, bs, l₁, rfl, hrun, hl₁, -⟩ :=
        insertAt_sorted hc.toIsPreorder hl hab hkh.1 hkh.2
      have hperm : ((as ++ ⟨l.nodes.length, k, h⟩ :: bs).map Entry.kv ++ kvs).Perm
          ((as ++ bs).map Entry.kv ++ (k, h) :: kvs) := by
        simp only [List.map_append, List.map_cons]
        exact (List.perm_middle.append_right kvs).trans List.perm_middle.symm
      obtain ⟨l', es', hrun', hl', hperm'⟩ := ih l₁ _ hl₁
        ((hperm.map Prod.fst).nodup_iff.mpr hnd) fun kv hkv => hh kv (List.mem_cons_of_mem _ hkv)
      refine ⟨l', es', ?_, hl', hperm'.trans hperm⟩
      rw [insertAll, hrun, ok_bind, hrun']

theorem build_sorted (hc : IsStrict cmp) {kvs : List (Key × Nat)}
    (hnd : (kvs.map Prod.fst).Nodup) (hh : HeightsInRange kvs) :
    ∃ l es, build (.ofInt cmp) kvs = .ok l ∧ Sorted cmp l es ∧ (es.map Entry.kv).Perm kvs := by
  obtain ⟨l₀, hnew, hl₀⟩ := new_sorted cmp
  obtain ⟨l, es, hrun, hl, hperm⟩ := insertAll_sorted hc kvs l₀ [] hl₀ (by simpa using hnd) hh
  refine ⟨l, es, ?_, hl, by simpa using hperm⟩
  rw [build, hnew, ok_bind, hrun]

/-! ### The invariant, read off the loads -/

/-- The nodes visited by following `next_[i]` from `x` until `NULL`. -/
def walk (l : SkipList Key) (i : Nat) : Nat → NodePtr → Except Fault (List NodePtr)
  | 0, _ => .error .fuel
  | fuel + 1, x => do
      match ← l.next x i with
      | none   => .ok []
      | some y => do
          let ys ← walk l i fuel y
          .ok (y :: ys)

/-- The nodes visited by following `next_[i]` from `head_` until `NULL`. -/
def nodesOnLevel (l : SkipList Key) (i : Nat) : Except Fault (List NodePtr) :=
  walk l i l.nodes.length l.head_

theorem walk_eq {i : Nat} :
    ∀ {xs : List NodePtr} {fuel : Nat} {x : NodePtr}, Linked.Chain (l.link i) x xs →
      xs.length < fuel → walk l i fuel x = .ok xs := by
  intro xs
  induction xs with
  | nil =>
      intro fuel x hc hf
      obtain ⟨n, rfl⟩ : ∃ n, fuel = n + 1 := ⟨fuel - 1, by omega⟩
      have hc : l.next x i = .ok none := next_of_link hc
      rw [walk, hc, ok_bind]
  | cons y ys ih =>
      intro fuel x hc hf
      obtain ⟨n, rfl⟩ : ∃ n, fuel = n + 1 := ⟨fuel - 1, by omega⟩
      have hc₁ : l.next x i = .ok (some y) := next_of_link hc.1
      have hys := ih hc.2 (show ys.length < n by simpa using hf)
      simp only [walk, hc₁, ok_bind, hys]

theorem Shape.nodesOnLevel_eq (h : Shape l es) {i : Nat} (hi : i < kMaxHeight) :
    l.nodesOnLevel i = .ok (levelPtrs i es) := by
  refine walk_eq (h.chain i hi) ?_
  have := h.length_lt
  have hsub : (levelPtrs i es).Sublist (es.map Entry.ptr) := levelPtrs_sublist
  have := hsub.length_le
  simp only [List.length_map] at this
  omega

/-- The key of `x` is before the key of `y`. -/
def KeyBefore (cmp : Key → Key → Int) (l : SkipList Key) (x y : NodePtr) : Prop :=
  ∃ a b, l.key x = .ok a ∧ l.key y = .ok b ∧ cmp a b < 0

/-- The representation invariant of a list into which `kvs` has been inserted, `xs` being its
nodes in the order of level 0. -/
structure RepInvariant (cmp : Key → Key → Int) (kvs : List (Key × Nat)) (l : SkipList Key)
    (xs : List NodePtr) : Prop where
  level_zero : l.nodesOnLevel 0 = .ok xs
  once : xs.Nodup
  inserted : (xs.map fun x => (l.key x, l.height x)).Perm (kvs.map fun kv => (.ok kv.1, kv.2))
  all : ∀ x, x ∈ xs ↔ x < l.nodes.length ∧ x ≠ l.head_
  increasing : xs.Pairwise (KeyBefore cmp l)
  level : ∀ i, i < kMaxHeight → l.nodesOnLevel i = .ok (xs.filter (i < l.height ·))
  cur : l.curMaxHeight_ = (kvs.map Prod.snd).foldr max 1
  above : ∀ i, l.curMaxHeight_ ≤ i → i < kMaxHeight → l.next l.head_ i = .ok none

theorem Holds.levelPtrs_eq (h : Holds l es) (i : Nat) :
    levelPtrs i es = (es.map Entry.ptr).filter (i < l.height ·) := by
  rw [levelPtrs, Levels.level, List.filter_map]
  refine congrArg _ (List.filter_congr fun e he => ?_)
  simp [h.height_eq e he]

theorem foldr_max_perm {xs ys : List Nat} (h : xs.Perm ys) :
    xs.foldr max 1 = ys.foldr max 1 := by
  induction h with
  | nil => rfl
  | cons x _ ih => rw [List.foldr_cons, List.foldr_cons, ih]
  | swap x y _ => simp only [List.foldr_cons]; omega
  | trans _ _ ih₁ ih₂ => exact ih₁.trans ih₂

theorem Sorted.repInvariant {kvs : List (Key × Nat)} (h : Sorted cmp l es)
    (hp : (es.map Entry.kv).Perm kvs) : RepInvariant cmp kvs l (es.map Entry.ptr) where
  level_zero := by
    rw [h.nodesOnLevel_eq (by decide), levelPtrs, Levels.level_eq_self h.height_pos]
  once := (List.nodup_cons.mp h.nodup).2
  inserted := by
    refine List.Perm.trans (List.Perm.of_eq ?_) (hp.map fun kv => (Except.ok kv.1, kv.2))
    simp only [List.map_map]
    refine List.map_congr_left fun e he => ?_
    simp [Entry.kv, h.key_eq e he, h.height_eq e he]
  all x := by
    refine ⟨fun hx => ?_, fun hx => h.all x hx.1 hx.2⟩
    obtain ⟨e, he, rfl⟩ := List.mem_map.mp hx
    exact ⟨h.lt_length (List.mem_cons_of_mem _ (List.mem_map_of_mem he)), h.head_ne he⟩
  increasing := by
    refine List.pairwise_map.mpr (h.sorted.imp_of_mem fun ha hb hab => ?_)
    exact ⟨_, _, h.key_eq _ ha, h.key_eq _ hb, hab⟩
  level i hi := by rw [h.nodesOnLevel_eq hi, h.levelPtrs_eq]
  cur := by
    rw [h.cur_eq, maxHeight, ← foldr_max_perm (hp.map Prod.snd), List.map_map]
    rfl
  above i hcur hi := by
    have hnil : levelPtrs i es = [] := by
      rw [levelPtrs, Levels.level_eq_nil fun e he => (h.height_le e he).trans hcur, List.map_nil]
    have := h.chain i hi
    rw [hnil] at this
    exact next_of_link this

/-- **The representation invariant** of every list the constructor and `insert` reach. -/
theorem built_repInvariant (cmp : Key → Key → Int) (hc : IsStrict cmp) (kvs : List (Key × Nat))
    (hnd : (kvs.map Prod.fst).Nodup) (hh : HeightsInRange kvs) :
    ∃ l xs, build (.ofInt cmp) kvs = .ok l ∧ RepInvariant cmp kvs l xs := by
  obtain ⟨l, es, hrun, hl, hperm⟩ := build_sorted hc hnd hh
  exact ⟨l, _, hrun, hl.repInvariant hperm⟩

theorem built_repInvariant_three :
    ∃ l xs, build (.ofInt ofLT) [(20, 1), (10, 3), (30, 2)] = .ok l ∧
      RepInvariant ofLT [((20 : Nat), 1), (10, 3), (30, 2)] l xs :=
  built_repInvariant ofLT isStrict_ofLT _ (by decide) (by decide)

/-! ### The heights `insert` draws -/

theorem randomHeightLoop_range :
    ∀ (n height : Nat) (r : Random), height ≤ (randomHeightLoop n height r).1 ∧
      (randomHeightLoop n height r).1 ≤ height + n := by
  intro n
  induction n with
  | zero => exact fun height r => ⟨Nat.le_refl _, Nat.le_refl _⟩
  | succ n ih =>
      intro height r
      have hstep : randomHeightLoop (n + 1) height r =
          if r.next.1 % 4 = 0 then randomHeightLoop n (height + 1) r.next.2
          else (height, r.next.2) := rfl
      have := ih (height + 1) r.next.2
      rw [hstep]
      split_ifs
      · omega
      · exact ⟨Nat.le_refl _, Nat.le_add_right _ _⟩

/-- The `assert`s at the end of `randomHeight` hold. -/
theorem randomHeight_range (r : Random) :
    1 ≤ (randomHeight r).1 ∧ (randomHeight r).1 ≤ kMaxHeight := by
  have := randomHeightLoop_range (kMaxHeight - 1) 1 r
  unfold randomHeight
  simp only [kMaxHeight] at *
  omega

/-- The shape does not depend on the generator. -/
theorem Shape.reseed (hl : Shape l es) (r : Random) : Shape { l with rnd_ := r } es :=
  ⟨⟨hl.head_height, hl.key_eq, hl.height_eq, hl.height_pos, hl.height_le, hl.cur_pos, hl.cur_le,
    hl.nodup⟩, hl.chain, hl.cur_eq⟩

/-- `insert` keeps the order, whatever height it draws. -/
theorem insert_sorted {k : Key} (hc : IsPreorder cmp) (hl : Sorted cmp l es)
    (hab : ∀ e ∈ es, cmp e.key k ≠ 0) :
    ∃ as bs l' h, es = as ++ bs ∧ insert (.ofInt cmp) k l = .ok l' ∧
      Sorted cmp l' (as ++ ⟨l.nodes.length, k, h⟩ :: bs) := by
  obtain ⟨hpos, hle⟩ := randomHeight_range l.rnd_
  have hl₁ : Sorted cmp { l with rnd_ := (randomHeight l.rnd_).2 } es :=
    ⟨hl.toShape.reseed _, hl.sorted, hl.all⟩
  obtain ⟨as, bs, l', hes, hrun, hl', -⟩ := insertAt_sorted hc hl₁ hab hpos hle
  exact ⟨as, bs, l', _, hes, hrun, hl'⟩

end Leveldb.SkipList
