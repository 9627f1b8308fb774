import MyLeveldb.SkipList.Insert

/-!
# SkipList — Interleaving

One `insert` and one `findEqualOrGreater`, taken apart into atomic steps over the same list.  The
writer's steps are `insert`'s stores in program order, after its search; the reader's are one load
of `curMaxHeight_` and one load of a `next_` slot per iteration.  A schedule names who steps.

A reader that loads a slot nothing has been stored to is marked `early`; it goes on with the
`NULL` of `AtomicPointer`'s constructor, or is `lost` where the slot is raw memory.  The code would
dereference what it has loaded there, with no telling what follows, so that a `lost` reader stays
where it is: the runs are those of the code up to that point.

* `writer_alone`: left to itself, the writer does what `insertAt` does after its search.
* `reader_alone`: left to itself, the reader does what `findEqualOrGreater` does.
* `Phase.step`: the writer's invariant.  In every phase the levels from some `i` up have the new
  node and those below do not (`Visible`), and `i` never grows.
-/

namespace Leveldb.SkipList

open Levels (level Descent)

variable {Key : Type} {l l' : SkipList Key} {es as bs : List (Entry Key)} {e : Entry Key}
  {i n : Nat}

/-! ### The writer -/

/-- What `insert` does next, once its search is done. -/
inductive WriterPc where
  /-- `if (h > getCurMaxHeight()) { ... }` -/
  | raise
  /-- `node = newNode(key, h)` -/
  | create
  /-- `node->noBarrier_SetNext(i, prev[i]->noBarrier_Next(i))` -/
  | storeNode (i : Nat)
  /-- `prev[i]->setNext(i, node)` -/
  | storePrev (i : Nat)
  | finished
  deriving DecidableEq, Repr

/-- The loop of `insert` with `n` levels left to link. -/
def WriterPc.loop : Nat → WriterPc
  | 0     => .finished
  | n + 1 => .storeNode n

/-- The control flow of `insert`, with `h` for its height. -/
def WriterPc.succ (h : Nat) : WriterPc → WriterPc
  | .raise       => .create
  | .create      => .loop h
  | .storeNode i => .storePrev i
  | .storePrev i => .loop i
  | .finished    => .finished

/-- `insert`'s program counter and variables. -/
structure Writer (Key : Type) where
  pc : WriterPc
  key : Key
  h : Nat
  prev : Prev
  node : NodePtr

def Writer.step (l : SkipList Key) (w : Writer Key) : Except Fault (SkipList Key × Writer Key) :=
  match w.pc with
  | .raise =>
      .ok (l.raiseHeight w.h, { w with pc := w.pc.succ w.h, prev := l.raisePrev w.h w.prev })
  | .create =>
      let (node, l) := l.newNode (some w.key) w.h
      .ok (l, { w with pc := w.pc.succ w.h, node := node })
  | .storeNode i => do
      let p ← prevAt w.prev i
      let nx ← l.next p i
      let l ← l.setNext w.node i nx
      .ok (l, { w with pc := w.pc.succ w.h })
  | .storePrev i => do
      let p ← prevAt w.prev i
      let l ← l.setNext p i (some w.node)
      .ok (l, { w with pc := w.pc.succ w.h })
  | .finished => .ok (l, w)

/-! ### The reader -/

inductive ReaderPc where
  /-- `int level = getCurMaxHeight() - 1` -/
  | start
  /-- the loop, with `n` levels left, at node `x`; with none left it returns `next` -/
  | loop (n : Nat) (x : NodePtr) (next : Option NodePtr)
  /-- after a load of raw memory, before it is dereferenced -/
  | lost
  deriving DecidableEq, Repr

/-- `findEqualOrGreater`'s program counter, and whether it has loaded a slot too early. -/
structure Reader where
  pc : ReaderPc
  early : Bool
  deriving DecidableEq, Repr

def Reader.step (compare_ : Compare Key) (l : SkipList Key) (t : Key) (r : Reader) :
    Except Fault Reader :=
  match r.pc with
  | .start => .ok { r with pc := .loop l.curMaxHeight_ l.head_ none }
  | .loop 0 _ _ => .ok r
  | .loop (level + 1) x _ =>
      match l.slot x level with
      | none => .error .wild
      | some s =>
          let early := r.early || !s.isStored
          match s.load with
          -- not a fault yet: the next step of the code would be one
          | .error _ => .ok { pc := .lost, early := early }
          | .ok next => do
              let down ← l.goesDown compare_ t next
              if down then .ok { pc := .loop level x next, early := early }
              else match next with
                | some y => .ok { pc := .loop (level + 1) y next, early := early }
                | none   => .error .wild
  | .lost => .ok r

/-- What the reader has returned, once it has. -/
def Reader.result (r : Reader) : Option (Option NodePtr) :=
  match r.pc with
  | .loop 0 _ next => some next
  | _              => none

/-! ### Both -/

inductive Actor where
  | writer
  | reader
  deriving DecidableEq, Repr

/-- The list, and its writer and reader. -/
structure Config (Key : Type) where
  list : SkipList Key
  writer : Writer Key
  reader : Reader

namespace Config

def step (compare_ : Compare Key) (t : Key) (c : Config Key) : Actor → Except Fault (Config Key)
  | .writer => do
      let (l, w) ← c.writer.step c.list
      .ok { c with list := l, writer := w }
  | .reader => do
      let r ← c.reader.step compare_ c.list t
      .ok { c with reader := r }

/-- The configuration a schedule leads to. -/
def run (compare_ : Compare Key) (t : Key) : List Actor → Config Key → Except Fault (Config Key)
  | [], c => .ok c
  | a :: sched, c => do
      let c ← c.step compare_ t a
      run compare_ t sched c

/-- `insert(k)` after its search and its `assert`, and a reader that has not begun. -/
def start (compare_ : Compare Key) (k : Key) (h : Nat) (l : SkipList Key) :
    Except Fault (Config Key) := do
  let (node, prev) ← l.findEqualOrGreater compare_ k
  l.assertAbsent compare_ k node
  .ok { list := l
        writer := { pc := .raise, key := k, h := h, prev := prev, node := l.head_ }
        reader := { pc := .start, early := false } }

theorem run_append (compare_ : Compare Key) (t : Key) (s₁ s₂ : List Actor) (c : Config Key) :
    run compare_ t (s₁ ++ s₂) c = run compare_ t s₁ c >>= run compare_ t s₂ := by
  induction s₁ generalizing c with
  | nil => rfl
  | cons a s₁ ih =>
      simp only [List.cons_append, run]
      cases c.step compare_ t a with
      | error e => rfl
      | ok c' => exact ih c'

end Config

/-! ### Each alone -/

/-- `n` steps of the writer. -/
def Writer.steps : Nat → SkipList Key → Writer Key → Except Fault (SkipList Key × Writer Key)
  | 0, l, w => .ok (l, w)
  | n + 1, l, w => do
      let (l, w) ← w.step l
      steps n l w

/-- The writer's loop is `linkLoop`. -/
theorem writer_loop (w : Writer Key) :
    ∀ (n : Nat) (l : SkipList Key), Writer.steps (2 * n) l { w with pc := .loop n } =
      (linkLoop w.node w.prev n l).map fun l' => (l', { w with pc := .finished }) := by
  intro n
  induction n with
  | zero => exact fun l => rfl
  | succ n ih =>
      intro l
      have htwo : 2 * (n + 1) = 2 * n + 1 + 1 := by omega
      simp only [htwo, Writer.steps, Writer.step, WriterPc.loop, WriterPc.succ, linkLoop]
      cases hp : prevAt w.prev n with
      | error f => rfl
      | ok p =>
          simp only [ok_bind]
          cases hx : l.next p n with
          | error f => rfl
          | ok nx =>
              simp only [ok_bind]
              cases hs : l.setNext w.node n nx with
              | error f => rfl
              | ok l₁ =>
                  simp only [ok_bind, hp]
                  cases hs' : l₁.setNext p n (some w.node) with
                  | error f => rfl
                  | ok l₂ => exact ih l₂

/-- The writer alone: `insertAt` is the search, then the writer's steps. -/
theorem writer_alone (compare_ : Compare Key) (k : Key) (h : Nat) (l : SkipList Key) :
    insertAt compare_ h k l = (Config.start compare_ k h l >>= fun c =>
      (Writer.steps (2 * h + 2) c.list c.writer).map Prod.fst) := by
  unfold insertAt Config.start
  cases l.findEqualOrGreater compare_ k with
  | error f => rfl
  | ok r =>
      obtain ⟨node, prev⟩ := r
      simp only [ok_bind]
      cases l.assertAbsent compare_ k node with
      | error f => rfl
      | ok _ =>
          have hloop := writer_loop
            { pc := .finished, key := k, h := h, prev := l.raisePrev h prev,
              node := ((l.raiseHeight h).newNode (some k) h).1 } h
            ((l.raiseHeight h).newNode (some k) h).2
          simp only [ok_bind, Writer.steps, Writer.step, WriterPc.succ]
          rw [hloop]
          cases linkLoop _ (l.raisePrev h prev) h _ with
          | error f => rfl
          | ok l' => rfl

/-- The reader alone follows the loop of `findEqualOrGreater`. -/
theorem reader_alone {compare_ : Compare Key} {t : Key} {w : Writer Key} :
    ∀ (fuel n : Nat) (c c' : Cursor) (b : Bool), descend compare_ l t fuel n c = .ok c' →
      ∃ m b', Config.run compare_ t (List.replicate m .reader)
          { list := l, writer := w, reader := { pc := .loop n c.x c.next, early := b } } =
        .ok { list := l, writer := w, reader := { pc := .loop 0 c'.x c'.next, early := b' } } := by
  intro fuel
  induction fuel with
  | zero =>
      intro n c c' b h
      cases n with
      | zero =>
          cases h
          exact ⟨0, b, rfl⟩
      | succ n => cases h
  | succ fuel ih =>
      intro n c c' b h
      cases n with
      | zero =>
          rw [descend] at h
          cases h
          exact ⟨0, b, rfl⟩
      | succ n =>
          obtain ⟨nx, hnx, h⟩ := bind_eq_ok.mp h
          obtain ⟨down, hdown, h⟩ := bind_eq_ok.mp h
          -- the slot loaded is a stored one or the constructor's `NULL`
          rw [next] at hnx
          cases hs : l.slot c.x n with
          | none => rw [hs] at hnx; cases hnx
          | some s =>
              rw [hs] at hnx
              have hload : s.load = .ok nx := hnx
              cases down with
              | true =>
                  rw [if_pos rfl] at h
                  obtain ⟨m, b', hrun⟩ := ih n _ c' (b || !s.isStored) h
                  refine ⟨m + 1, b', ?_⟩
                  simp only [List.replicate_succ, Config.run, Config.step, Reader.step, hs, hload,
                    hdown, ok_bind, if_true]
                  exact hrun
              | false =>
                  rw [if_neg (by simp)] at h
                  cases nx with
                  | none => cases h
                  | some y =>
                      obtain ⟨m, b', hrun⟩ := ih (n + 1) _ c' (b || !s.isStored) h
                      refine ⟨m + 1, b', ?_⟩
                      simp only [List.replicate_succ, Config.run, Config.step, Reader.step, hs,
                        hload, hdown, ok_bind]
                      exact hrun

/-! ### The writer's invariant -/

/-- What a reader sees while `e` is inserted between `as` and `bs`: the links are the levels of
the list, with `e` on the levels from `i` up. -/
structure Visible (l : SkipList Key) (as : List (Entry Key)) (e : Entry Key)
    (bs : List (Entry Key)) (i : Nat) : Prop where
  cur_pos : 0 < l.curMaxHeight_
  cur_le : l.curMaxHeight_ ≤ kMaxHeight
  chain : ∀ j, j < kMaxHeight →
    Linked.Chain (l.link j) l.head_ (levelPtrs j (woven as e bs i j))
  key_eq : ∀ j, ∀ y ∈ level Entry.height j (woven as e bs i j), l.key y.ptr = .ok y.key

theorem Linking.visible (h : Linking l as e bs i) : Visible l as e bs i :=
  ⟨h.cur_pos, h.cur_le, h.chain, fun _ y hy =>
    h.key_eq y (woven_sublist.subset (Levels.mem_level.mp hy).1)⟩

/-- Before the new node is made, no level has it. -/
theorem visible_before (hl : Holds l (as ++ bs))
    (hc : ∀ i, i < kMaxHeight → Linked.Chain (l.link i) l.head_ (levelPtrs i (as ++ bs))) :
    Visible l as e bs e.height := by
  refine ⟨hl.cur_pos, hl.cur_le, fun j hj => ?_, fun j y hy => hl.key_eq y ?_⟩
  · rw [levelPtrs_woven_height]
    exact hc j hj
  · obtain ⟨hy, hj⟩ := Levels.mem_level.mp hy
    rw [woven] at hy
    split_ifs at hy with hlt
    · exact hy
    · rcases mem_insert.mp hy with rfl | hy
      · omega
      · exact hy

/-- `x` has slots up to level `i` that nothing has been stored to. -/
def Unstored (l : SkipList Key) (x : NodePtr) (i : Nat) : Prop :=
  ∀ j, j < i → ∃ s, l.slot x j = some s ∧ s.isStored = false

theorem Created.unstored {k : Option Key} {x : NodePtr} (hc : Created l k n x l') :
    Unstored l' x n := by
  intro j hj
  obtain ⟨s, hs⟩ := slot_of_lt_height (hc.height_new.symm ▸ hj)
  refine ⟨s, hs, ?_⟩
  cases s with
  | garbage => rfl
  | constructed => rfl
  | stored q => exact absurd hs (hc.slot_new j q)

/-- A store leaves the slots below its level as they are. -/
theorem Unstored.stored {x y : NodePtr} {m : Nat} {p : Option NodePtr} (h : Unstored l x n)
    (hs : Stored l y m p l') (hn : i ≤ n) (hm : i ≤ m) : Unstored l' x i := by
  intro j hj
  rw [hs.slot_other x j (.inr (by omega))]
  exact h j (by omega)

/-- The writer inserting `e` between `as` and `bs`, with the levels below `i` left to link. -/
inductive Phase (as : List (Entry Key)) (e : Entry Key) (bs : List (Entry Key)) :
    SkipList Key → Writer Key → Nat → Prop where
  | raise {l : SkipList Key} {prev : Prev} {node : NodePtr} {below : Entry Key → Prop}
      (hl : Shape l (as ++ bs)) (hp : l.nodes.length = e.ptr) (hc : Cut l below as bs prev) :
      Phase as e bs l ⟨.raise, e.key, e.height, prev, node⟩ e.height
  | create {l : SkipList Key} {prev : Prev} {node : NodePtr}
      (hl : Roomy l (as ++ bs) e.height) (hp : l.nodes.length = e.ptr)
      (hprev : ∀ j, j < e.height → prev j = some (l.prevPtr j as)) :
      Phase as e bs l ⟨.create, e.key, e.height, prev, node⟩ e.height
  | loop {l : SkipList Key} {prev : Prev} {i : Nat} (hi : i ≤ e.height)
      (hl : Linking l as e bs i) (hu : Unstored l e.ptr i)
      (hprev : ∀ j, j < e.height → prev j = some (l.prevPtr j as)) :
      Phase as e bs l ⟨.loop i, e.key, e.height, prev, e.ptr⟩ i
  | storePrev {l : SkipList Key} {prev : Prev} {i : Nat} (hi : i < e.height)
      (hl : Linking l as e bs (i + 1)) (hu : Unstored l e.ptr i)
      (hn : l.link i e.ptr ((level Entry.height i bs).head?.map Entry.ptr))
      (hprev : ∀ j, j < e.height → prev j = some (l.prevPtr j as)) :
      Phase as e bs l ⟨.storePrev i, e.key, e.height, prev, e.ptr⟩ (i + 1)

theorem Phase.visible {w : Writer Key} (h : Phase as e bs l w i) : Visible l as e bs i := by
  cases h with
  | raise hl _ _ => exact visible_before hl.toHolds hl.chain
  | create hl _ _ => exact visible_before hl.toHolds hl.chain
  | loop _ hl _ _ => exact hl.visible
  | storePrev _ hl _ _ _ => exact hl.visible

/-- The slots of the last node before the cut and of the new node, on a level of `e`. -/
theorem Linking.slots (h : Linking l as e bs n) (hi : i < e.height) :
    i < kMaxHeight ∧ i < l.height e.ptr ∧ i < l.height (l.prevPtr i as) := by
  have hik : i < kMaxHeight := by
    have := h.height_le e (by simp)
    have := h.cur_le
    omega
  refine ⟨hik, ?_, h.lt_height_of_mem hik (List.cons_subset_cons _ (by simp) prevPtr_mem)⟩
  rw [h.height_eq e (by simp)]
  exact hi

theorem prevPtr_head (h : l'.head_ = l.head_) (as : List (Entry Key)) (i : Nat) :
    l'.prevPtr i as = l.prevPtr i as := by
  rw [prevPtr, prevPtr, h]

/-- A step of the writer keeps the invariant, and takes no level from the new node. -/
theorem Phase.step {w : Writer Key} (hh : 0 < e.height) (hle : e.height ≤ kMaxHeight)
    (h : Phase as e bs l w i) :
    ∃ l' w' i', w.step l = .ok (l', w') ∧ w'.pc = w.pc.succ e.height ∧ i' ≤ i ∧
      Phase as e bs l' w' i' ∧ l'.head_ = l.head_ := by
  cases h with
  | raise hl hp hc =>
      obtain ⟨hnodes, hhead, -⟩ := raiseHeight_same l e.height
      refine ⟨_, _, _, rfl, rfl, Nat.le_refl _, .create (hl.raised hle) (by rw [hnodes, hp]) ?_,
        hhead⟩
      intro j hj
      rw [raisePrev_eq hl.toHolds hc hj, prevPtr_head hhead]
  | create hl hp hprev =>
      have hnew := newNode_spec l (some e.key) hh
      have hx : (l.newNode (some e.key) e.height).1 = e.ptr := hp
      have hlink := hl.created hh hnew
      have hu := hnew.unstored
      rw [hx] at hlink hu
      refine ⟨(l.newNode (some e.key) e.height).2, _, _, rfl, rfl, Nat.le_refl _, ?_, hnew.head⟩
      rw [hp]
      refine .loop (Nat.le_refl _) hlink hu fun j hj => ?_
      rw [prevPtr_head hnew.head]
      exact hprev j hj
  | @loop prev i hi hl hu hprev =>
      cases i with
      | zero => exact ⟨l, _, 0, rfl, rfl, Nat.le_refl _, .loop hi hl hu hprev, rfl⟩
      | succ i =>
          obtain ⟨hik, hnode, -⟩ := hl.slots (show i < e.height from hi)
          obtain ⟨l', hrun, hs⟩ :=
            setNext_spec ((level Entry.height i bs).head?.map Entry.ptr) hnode
          refine ⟨l', ⟨.storePrev i, e.key, e.height, prev, e.ptr⟩, i + 1, ?_, rfl, Nat.le_refl _,
            .storePrev hi (hl.store_node hs) (hu.stored hs (by omega) (Nat.le_refl i))
              hs.slot_same fun j hj => ?_, hs.head⟩
          · simp only [Writer.step, WriterPc.loop, prevAt, hprev i hi, ok_bind,
              hl.next_prev hik, hrun]
            rfl
          · rw [hprev j hj, prevPtr_head hs.head]
  | @storePrev prev i hi hl hu hn hprev =>
      obtain ⟨-, -, hslot⟩ := hl.slots hi
      obtain ⟨l', hrun, hs⟩ := setNext_spec (some e.ptr) hslot
      refine ⟨l', ⟨.loop i, e.key, e.height, prev, e.ptr⟩, i, ?_, rfl, Nat.le_succ i,
        .loop hi.le (hl.store_prev hi hn hs) (hu.stored hs (Nat.le_refl i) (Nat.le_refl i))
          fun j hj => ?_, hs.head⟩
      · simp only [Writer.step, prevAt, hprev i hi, ok_bind, hrun]
        rfl
      · rw [hprev j hj, prevPtr_head hs.head]

/-- Steps of the writer alone. -/
theorem Phase.run (compare_ : Compare Key) (t : Key) (hh : 0 < e.height)
    (hle : e.height ≤ kMaxHeight) :
    ∀ (n : Nat) (c : Config Key) {i : Nat}, Phase as e bs c.list c.writer i →
      ∃ l' w' i', Config.run compare_ t (List.replicate n .writer) c =
          .ok { list := l', writer := w', reader := c.reader } ∧
        w'.pc = (WriterPc.succ e.height)^[n] c.writer.pc ∧ Phase as e bs l' w' i' ∧
        l'.head_ = c.list.head_ := by
  intro n
  induction n with
  | zero => exact fun c i h => ⟨_, _, i, rfl, rfl, h, rfl⟩
  | succ n ih =>
      intro c i h
      obtain ⟨l₁, w₁, i₁, hrun₁, hpc₁, -, h₁, hhead₁⟩ := h.step hh hle
      obtain ⟨l', w', i', hrun, hpc, h', hhead⟩ := ih { c with list := l₁, writer := w₁ } h₁
      refine ⟨l', w', i', ?_, ?_, h', hhead.trans hhead₁⟩
      · simp only [List.replicate_succ, Config.run, Config.step, hrun₁, ok_bind]
        exact hrun
      · rw [hpc, Function.iterate_succ_apply]
        exact congrArg _ hpc₁

/-- At the head of its loop, the writer has stored to no slot of the levels left. -/
theorem Phase.at_loop {w : Writer Key} (h : Phase as e bs l w n) (hw : w.pc = .loop (i + 1)) :
    n = i + 1 ∧ Linking l as e bs n ∧ Unstored l e.ptr n := by
  cases h with
  | raise _ _ _ => cases hw
  | create _ _ _ => cases hw
  | loop _ hl hu _ =>
      refine ⟨?_, hl, hu⟩
      cases n with
      | zero => cases hw
      | succ n =>
          injection hw with hw
          rw [hw]
  | storePrev _ _ _ _ _ => cases hw

end Leveldb.SkipList
