import MyLeveldb.SkipList.Definitions
import MyLeveldb.Support.Lists.Levels
import MyLeveldb.Support.Lists.Linked
import Mathlib.Data.List.Perm.Subperm

/-!
# SkipList — Nodes

What a store to one slot, and the creation of one node, change in a list: the two operations'
results are described by the loads they affect (`Stored`, `Created`), so that nothing later opens
the node table.

An `Entry` is a node with its key and height, as the invariants name it.  `Holds l es` says that
the nodes of `es` are in `l` with those keys and heights; it says nothing about their links.
-/

namespace Leveldb.SkipList

variable {Key : Type} {l l' : SkipList Key} {x y : NodePtr} {n m : Nat} {p : Option NodePtr}

/-- The number of slots `x` was allocated with. -/
def height (l : SkipList Key) (x : NodePtr) : Nat :=
  match l.nodes[x]? with
  | some nd => nd.next_.length
  | none    => 0

/-- `p` has been stored in `next_[i]` of `x`. -/
def link (l : SkipList Key) (i : Nat) (x : NodePtr) (p : Option NodePtr) : Prop :=
  l.slot x i = some (.stored p)

theorem next_of_link {i : Nat} (h : l.link i x p) : l.next x i = .ok p := by
  rw [SkipList.next, h]
  rfl

/-- The slots `x` was allocated with. -/
theorem slot_of_lt_height (h : n < l.height x) : ∃ s, l.slot x n = some s := by
  unfold SkipList.height at h
  cases hx : l.nodes[x]? with
  | none => simp [hx] at h
  | some nd =>
      rw [hx] at h
      exact ⟨nd.next_.get ⟨n, h⟩, by simp [slot, hx, List.getElem?_eq_getElem h]⟩

/-! ### One store -/

/-- `l'` is `l` with `p` stored in `x`'s slot `n`. -/
structure Stored (l : SkipList Key) (x : NodePtr) (n : Nat) (p : Option NodePtr)
    (l' : SkipList Key) : Prop where
  head : l'.head_ = l.head_
  cur : l'.curMaxHeight_ = l.curMaxHeight_
  rnd : l'.rnd_ = l.rnd_
  size : l'.nodes.length = l.nodes.length
  key : ∀ y, l'.key y = l.key y
  height : ∀ y, l'.height y = l.height y
  slot_same : l'.slot x n = some (.stored p)
  slot_other : ∀ y m, y ≠ x ∨ m ≠ n → l'.slot y m = l.slot y m

theorem setNext_spec (p : Option NodePtr) (h : n < l.height x) :
    ∃ l', l.setNext x n p = .ok l' ∧ Stored l x n p l' := by
  cases hx : l.nodes[x]? with
  | none => simp [SkipList.height, hx] at h
  | some nd =>
      have hn : n < nd.next_.length := by simpa [SkipList.height, hx] using h
      have hlt : x < l.nodes.length := (List.getElem?_eq_some_iff.mp hx).1
      have other : ∀ y, y ≠ x → ∀ nd', (l.nodes.set x nd')[y]? = l.nodes[y]? :=
        fun y hy nd' => List.getElem?_set_ne (Ne.symm hy)
      have same : ∀ nd', (l.nodes.set x nd')[x]? = some nd' :=
        fun nd' => List.getElem?_set_self hlt
      refine ⟨{ l with nodes := l.nodes.set x { nd with next_ := nd.next_.set n (.stored p) } },
        by simp [setNext, hx, hn], rfl, rfl, rfl, by simp, fun y => ?_, fun y => ?_, ?_,
        fun y m hym => ?_⟩
      · by_cases e : y = x
        · subst e; simp [SkipList.key, same, hx]
        · simp [SkipList.key, other y e]
      · by_cases e : y = x
        · subst e; simp [SkipList.height, same, hx]
        · simp [SkipList.height, other y e]
      · simp [slot, same, List.getElem?_set_self hn]
      · by_cases e : y = x
        · subst e
          have hm : m ≠ n := hym.resolve_left fun h => h rfl
          simp [slot, same, hx, List.getElem?_set_ne (Ne.symm hm)]
        · simp [slot, other y e]

/-! ### One new node -/

theorem getElem?_concat_of_ne {α : Type} {xs : List α} (a : α) (hy : y ≠ xs.length) :
    (xs ++ [a])[y]? = xs[y]? := by
  rcases Nat.lt_or_gt_of_ne hy with hlt | hgt
  · exact List.getElem?_append_left hlt
  · rw [List.getElem?_eq_none (by rw [List.length_append]; exact hgt),
      List.getElem?_eq_none hgt.le]

/-- `l'` is `l` with a new node `x`, of key `k` and `h` slots, none of them stored to. -/
structure Created (l : SkipList Key) (k : Option Key) (h : Nat) (x : NodePtr)
    (l' : SkipList Key) : Prop where
  head : l'.head_ = l.head_
  cur : l'.curMaxHeight_ = l.curMaxHeight_
  rnd : l'.rnd_ = l.rnd_
  size : l'.nodes.length = l.nodes.length + 1
  fresh : l.height x = 0
  key_new : ∀ a, k = some a → l'.key x = .ok a
  key_old : ∀ y, y ≠ x → l'.key y = l.key y
  height_new : l'.height x = h
  height_old : ∀ y, y ≠ x → l'.height y = l.height y
  slot_old : ∀ y m, y ≠ x → l'.slot y m = l.slot y m
  slot_new : ∀ m q, l'.slot x m ≠ some (.stored q)

theorem newNode_spec (l : SkipList Key) (k : Option Key) {h : Nat} (hh : 0 < h) :
    Created l k h (l.newNode k h).1 (l.newNode k h).2 := by
  have same : (l.nodes ++ [Node.mk' k h])[l.nodes.length]? = some (Node.mk' k h) :=
    List.getElem?_concat_length
  have other : ∀ y, y ≠ l.nodes.length → (l.nodes ++ [Node.mk' k h])[y]? = l.nodes[y]? :=
    fun y => getElem?_concat_of_ne _
  refine ⟨rfl, rfl, rfl, by simp [newNode], by simp [newNode, SkipList.height], ?_, ?_, ?_, ?_, ?_,
    ?_⟩
  · rintro a rfl
    simp [newNode, SkipList.key, Node.mk']
  · intro y hy
    simp only [newNode] at hy ⊢
    simp [SkipList.key, other y hy]
  · have hlen : (Node.mk' k h).next_.length = h := by
      simp only [Node.mk', List.length_cons, List.length_replicate]
      omega
    simp only [newNode, SkipList.height, same, hlen]
  · intro y hy
    simp only [newNode] at hy ⊢
    simp [SkipList.height, other y hy]
  · intro y m hy
    simp only [newNode] at hy ⊢
    simp [slot, other y hy]
  · intro m q hq
    simp only [newNode, slot, same, Option.bind_some] at hq
    have hmem := List.mem_of_getElem? hq
    simp [Node.mk'] at hmem

/-! ### Entries -/

/-- A node other than `head_`, with its key and height. -/
structure Entry (Key : Type) where
  ptr : NodePtr
  key : Key
  height : Nat

open Levels (level)

variable {es as bs : List (Entry Key)} {i : Nat}

/-- The nodes of `es` on level `i`. -/
def levelPtrs (i : Nat) (es : List (Entry Key)) : List NodePtr :=
  (level Entry.height i es).map Entry.ptr

@[simp] theorem levelPtrs_nil : levelPtrs i ([] : List (Entry Key)) = [] := rfl

@[simp] theorem levelPtrs_append : levelPtrs i (as ++ bs) = levelPtrs i as ++ levelPtrs i bs := by
  simp [levelPtrs]

theorem levelPtrs_sublist : (levelPtrs i es).Sublist (es.map Entry.ptr) :=
  Levels.level_sublist.map _

/-- The last of `head_` and the nodes of `es`. -/
def lastPtr (l : SkipList Key) (es : List (Entry Key)) : NodePtr :=
  (es.map Entry.ptr).getLastD l.head_

/-- The last of `head_` and the nodes of `es` on level `i`. -/
def prevPtr (l : SkipList Key) (i : Nat) (es : List (Entry Key)) : NodePtr :=
  (levelPtrs i es).getLastD l.head_

@[simp] theorem lastPtr_nil : l.lastPtr ([] : List (Entry Key)) = l.head_ := rfl

@[simp] theorem lastPtr_concat (e : Entry Key) : l.lastPtr (es ++ [e]) = e.ptr := by
  simp [lastPtr]

theorem prevPtr_mem : l.prevPtr i es ∈ l.head_ :: levelPtrs i es :=
  List.getLastD_mem_cons

/-- Where the last entry is on level `i`, it is the last one on it. -/
theorem prevPtr_eq_lastPtr (h : ∀ e ∈ es.getLast?, i < e.height) :
    l.prevPtr i es = l.lastPtr es := by
  rcases List.eq_nil_or_concat es with rfl | ⟨es', e, rfl⟩
  · rfl
  · rw [List.concat_eq_append] at *
    have he : i < e.height := h e (by simp)
    simp [prevPtr, lastPtr, levelPtrs, Levels.level_cons_of_lt he]

/-- The link at a cut of the list, on a level of the last entry before it. -/
theorem next_at_cut (hc : Linked.Chain (l.link i) l.head_ (levelPtrs i (as ++ bs)))
    (hx : ∀ e ∈ as.getLast?, i < e.height) :
    l.next (l.lastPtr as) i = .ok ((level Entry.height i bs).head?.map Entry.ptr) := by
  rw [levelPtrs_append] at hc
  have := hc.link_at
  rw [← List.head?_map, ← prevPtr_eq_lastPtr hx]
  exact next_of_link this

/-- The nodes of `es` are in `l`, apart from `head_`, with their keys and heights. -/
structure Holds (l : SkipList Key) (es : List (Entry Key)) : Prop where
  head_height : l.height l.head_ = kMaxHeight
  key_eq : ∀ e ∈ es, l.key e.ptr = .ok e.key
  height_eq : ∀ e ∈ es, l.height e.ptr = e.height
  height_pos : ∀ e ∈ es, 0 < e.height
  height_le : ∀ e ∈ es, e.height ≤ l.curMaxHeight_
  cur_pos : 0 < l.curMaxHeight_
  cur_le : l.curMaxHeight_ ≤ kMaxHeight
  nodup : (l.head_ :: es.map Entry.ptr).Nodup

namespace Holds

/-- A store keeps the nodes. -/
theorem stored (h : Holds l es) (hs : Stored l x n p l') : Holds l' es where
  head_height := by rw [hs.head, hs.height, h.head_height]
  key_eq e he := by rw [hs.key, h.key_eq e he]
  height_eq e he := by rw [hs.height, h.height_eq e he]
  height_pos := h.height_pos
  height_le := by rw [hs.cur]; exact h.height_le
  cur_pos := by rw [hs.cur]; exact h.cur_pos
  cur_le := by rw [hs.cur]; exact h.cur_le
  nodup := by rw [hs.head]; exact h.nodup

theorem head_ne (h : Holds l es) {e : Entry Key} (he : e ∈ es) : e.ptr ≠ l.head_ := fun heq =>
  (List.nodup_cons.mp h.nodup).1 (heq ▸ List.mem_map_of_mem he)

/-- A pointer to no node is not one of the list's. -/
theorem ne_of_fresh (h : Holds l es) (hx : l.height x = 0) :
    ∀ y ∈ l.head_ :: es.map Entry.ptr, y ≠ x := by
  intro y hy e
  subst e
  rcases List.mem_cons.mp hy with rfl | hy
  · have := h.head_height
    rw [hx] at this
    cases this
  · obtain ⟨e, he, rfl⟩ := List.mem_map.mp hy
    have := h.height_pos e he
    rw [← h.height_eq e he, hx] at this
    omega

/-- The nodes of a level have a slot for it. -/
theorem lt_height_of_mem (h : Holds l es) (hi : i < kMaxHeight)
    (hx : x ∈ l.head_ :: levelPtrs i es) : i < l.height x := by
  rcases List.mem_cons.mp hx with rfl | hx
  · rw [h.head_height]
    exact hi
  · obtain ⟨e, he, rfl⟩ := List.mem_map.mp hx
    obtain ⟨hes, hei⟩ := Levels.mem_level.mp he
    rw [h.height_eq e hes]
    exact hei

theorem lt_length (h : Holds l es) (hx : x ∈ l.head_ :: es.map Entry.ptr) :
    x < l.nodes.length := by
  by_contra hlt
  refine h.ne_of_fresh (x := x) ?_ x hx rfl
  rw [SkipList.height, List.getElem?_eq_none (Nat.not_lt.mp hlt)]

theorem length_lt (h : Holds l es) : es.length < l.nodes.length := by
  have hsub : l.head_ :: es.map Entry.ptr ⊆ List.range l.nodes.length :=
    fun y hy => List.mem_range.mpr (h.lt_length hy)
  have := (List.subperm_of_subset h.nodup hsub).length_le
  simp only [List.length_cons, List.length_map, List.length_range] at this
  omega

end Holds

end Leveldb.SkipList
