import MyLeveldb.SkipList.Nodes
import MyLeveldb.Support.Order.ThreeWay

/-!
# SkipList — Search

`Shape l es`: on every level, `l`'s links visit the entries of `es` higher than the level, in
their order.  Nothing is said about the order of the keys, so that the searches' results can be
stated for a comparator that is not one: they depend only on which entries the comparator puts
below the target (`Decides`).

* `findEqualOrGreater_cut`, `findLessThan_cut`: the searches end at a cut `es = as ++ bs` the
  descent of `Levels` ends at, with the last node before it on every level in `pre`.
* `findEqualOrGreater_fails`: a search that compares anything fails with its comparator.
* `findEqualOrGreater_found`: a search that returns has ended at a cut, whatever its comparator.
* `findLast_eq`: `findLast` returns the last node.
-/

namespace Leveldb.SkipList

open Levels (level Descent)

variable {Key : Type} {l : SkipList Key} {es as bs : List (Entry Key)} {i n : Nat}

/-- The greatest of 1 and the heights of `es`. -/
def maxHeight (es : List (Entry Key)) : Nat :=
  (es.map Entry.height).foldr max 1

/-- `l`'s links are the levels of `es`. -/
structure Shape (l : SkipList Key) (es : List (Entry Key)) : Prop extends Holds l es where
  chain : ∀ i, i < kMaxHeight → Linked.Chain (l.link i) l.head_ (levelPtrs i es)
  cur_eq : l.curMaxHeight_ = maxHeight es

/-- `compare_` puts exactly the entries `below` before the target. -/
def Decides (compare_ : Compare Key) (t : Key) (es : List (Entry Key))
    (below : Entry Key → Prop) : Prop :=
  ∀ e ∈ es, ∃ c, compare_ e.key t = .ok c ∧ (below e ↔ c < 0)

/-- A comparator that answers on every entry decides. -/
theorem decides_of_ok {compare_ : Compare Key} {t : Key}
    (h : ∀ e ∈ es, ∃ c, compare_ e.key t = .ok c) :
    Decides compare_ t es fun e => ∃ c, compare_ e.key t = .ok c ∧ c < 0 := by
  intro e he
  obtain ⟨c, hc⟩ := h e he
  refine ⟨c, hc, ⟨?_, fun hneg => ⟨c, hc, hneg⟩⟩⟩
  rintro ⟨c', hc', hneg⟩
  rw [hc] at hc'
  cases hc'
  exact hneg

theorem Decides.mono {compare_ : Compare Key} {t : Key} {below : Entry Key → Prop}
    (h : Decides compare_ t es below) (hs : as ⊆ es) : Decides compare_ t as below :=
  fun e he => h e (hs he)

/-- The comparison that decides whether the search moves right to `e`. -/
theorem goesDown_entry {compare_ : Compare Key} {t : Key} {below : Entry Key → Prop}
    (h : Holds l es) (hd : Decides compare_ t es below) {e : Entry Key} (he : e ∈ es) :
    (below e ∧ l.goesDown compare_ t (some e.ptr) = .ok false) ∨
      (¬ below e ∧ l.goesDown compare_ t (some e.ptr) = .ok true) := by
  obtain ⟨c, hc, hb⟩ := hd e he
  rw [hb]
  by_cases hneg : c < 0
  · exact .inl ⟨hneg, by simp [goesDown, h.key_eq e he, hc, hneg]⟩
  · refine .inr ⟨hneg, ?_⟩
    simp only [goesDown, h.key_eq e he, hc, ok_bind]
    simpa using hneg

/-! ### The shared loop -/

section Descend

variable {compare_ : Compare Key} {t : Key} {below : Entry Key → Prop} {c : Cursor}

/-- Where the search stands, with `n` levels left: at the cut `as ++ bs`. -/
structure Located (l : SkipList Key) (below : Entry Key → Prop) (n : Nat) (c : Cursor)
    (as bs : List (Entry Key)) : Prop where
  descent : Descent Entry.height below l.curMaxHeight_ n as bs
  x_eq : c.x = l.lastPtr as
  pre_eq : ∀ j, n ≤ j → j < l.curMaxHeight_ → c.pre j = some (l.prevPtr j as)
  next_eq : n = 0 → c.next = bs.head?.map Entry.ptr

theorem Located.start (l : SkipList Key) (below : Entry Key → Prop) (h : 0 < l.curMaxHeight_)
    (es : List (Entry Key)) (pre : Prev) :
    Located l below l.curMaxHeight_ { x := l.head_, next := none, pre := pre } [] es :=
  ⟨.start _ _ _ _, rfl, fun j h₁ h₂ => absurd h₂ (by omega), fun h₀ => absurd h₀ (by omega)⟩

/-- The node the search loads on level `n`. -/
theorem Located.next_load (h : Shape l (as ++ bs)) (hl : Located l below (n + 1) c as bs)
    (hn : n + 1 ≤ l.curMaxHeight_) :
    l.next c.x n = .ok ((level Entry.height n bs).head?.map Entry.ptr) := by
  have hcur := h.cur_le
  rw [hl.x_eq]
  exact next_at_cut (h.chain n (by omega)) hl.descent.last_high

theorem Located.down (h : Shape l (as ++ bs)) (hl : Located l below (n + 1) c as bs)
    (hs : ∀ e ∈ (level Entry.height n bs).head?, ¬ below e) :
    Located l below n
      { x := c.x, next := (level Entry.height n bs).head?.map Entry.ptr,
        pre := Function.update c.pre n (some c.x) } as bs := by
  refine ⟨hl.descent.down hs, hl.x_eq, fun j hj hjc => ?_, ?_⟩
  · by_cases e : j = n
    · subst e
      show Function.update c.pre j (some c.x) j = _
      rw [Function.update_self, hl.x_eq, prevPtr_eq_lastPtr hl.descent.last_high]
    · show Function.update c.pre n (some c.x) j = _
      rw [Function.update_of_ne e]
      exact hl.pre_eq j (by omega) hjc
  · rintro rfl
    have hpos : ∀ e ∈ bs, 0 < e.height := fun e he =>
      h.height_pos e (List.mem_append_right _ he)
    rw [Levels.level_eq_self hpos]

theorem Located.right {e : Entry Key} {ms : List (Entry Key)} (p : Option NodePtr)
    (hl : Located l below (n + 1) c as (ms ++ e :: bs)) (hms : ∀ z ∈ ms, z.height ≤ n)
    (he : n < e.height) (hb : below e) :
    Located l below (n + 1) { c with x := e.ptr, next := p } (as ++ (ms ++ [e])) bs := by
  refine ⟨hl.descent.right hms he hb, ?_, fun j hj hjc => ?_, fun h₀ => absurd h₀ (by omega)⟩
  · rw [← List.append_assoc, lastPtr_concat]
  · rw [prevPtr, levelPtrs, hl.descent.level_right hms hb (by omega) hjc]
    exact hl.pre_eq j hj hjc

/-- The loop ends at a cut with no level left. -/
theorem descend_cut (h : Shape l es) (hd : Decides compare_ t es below) :
    ∀ (fuel n : Nat) (c : Cursor) (as bs : List (Entry Key)), es = as ++ bs →
      n ≤ l.curMaxHeight_ → n + bs.length ≤ fuel → Located l below n c as bs →
      ∃ c' as' bs', es = as' ++ bs' ∧ descend compare_ l t fuel n c = .ok c' ∧
        Located l below 0 c' as' bs' := by
  intro fuel
  induction fuel with
  | zero =>
      intro n c as bs hes hn hf hl
      obtain rfl : n = 0 := by omega
      exact ⟨c, as, bs, hes, by rw [descend], hl⟩
  | succ fuel ih =>
      intro n c as bs hes hn hf hl
      cases n with
      | zero => exact ⟨c, as, bs, hes, by rw [descend], hl⟩
      | succ n =>
          have hload := hl.next_load (hes ▸ h) hn
          cases hy : (level Entry.height n bs).head? with
          | none =>
              have hl' := hl.down (hes ▸ h) (by simp [hy])
              obtain ⟨c', as', bs', hes', hrun, hl''⟩ :=
                ih n _ as bs hes (by omega) (by omega) hl'
              refine ⟨c', as', bs', hes', ?_, hl''⟩
              rw [descend, hload, ok_bind, hy, Option.map_none, goesDown, ok_bind, if_pos rfl]
              rwa [hy] at hrun
          | some e =>
              obtain ⟨ms, bs', rfl, hms, hhe⟩ := Levels.exists_cut_of_head? hy
              have hmem : e ∈ es := by simp [hes]
              rcases goesDown_entry h.toHolds hd hmem with ⟨hb, hg⟩ | ⟨hb, hg⟩
              · -- the next node is below the target: move right past it
                have hl' := hl.right (some e.ptr) hms hhe hb
                obtain ⟨c', as', bs'', hes', hrun, hl''⟩ :=
                  ih (n + 1) _ _ bs' (by simp [hes]) hn
                    (by simp only [List.length_append, List.length_cons] at hf; omega) hl'
                refine ⟨c', as', bs'', hes', ?_, hl''⟩
                rw [descend, hload, ok_bind, hy, Option.map_some, hg, ok_bind]
                exact hrun
              · have hl' := hl.down (hes ▸ h) (by rw [hy]; simpa using hb)
                obtain ⟨c', as', bs'', hes', hrun, hl''⟩ :=
                  ih n _ as _ hes (by omega) (by omega) hl'
                refine ⟨c', as', bs'', hes', ?_, hl''⟩
                rw [descend, hload, ok_bind, hy, Option.map_some, hg, ok_bind, if_pos rfl]
                rwa [hy] at hrun

/-- What a search by key finds: the cut, as a list of nodes. -/
structure Cut (l : SkipList Key) (below : Entry Key → Prop) (as bs : List (Entry Key))
    (pre : Prev) : Prop where
  descent : Descent Entry.height below l.curMaxHeight_ 0 as bs
  pre_eq : ∀ j, j < l.curMaxHeight_ → pre j = some (l.prevPtr j as)

theorem descend_from_head (h : Shape l es) (hd : Decides compare_ t es below) :
    ∃ c as bs, es = as ++ bs ∧
      descend compare_ l t l.fuel l.curMaxHeight_
        { x := l.head_, next := none, pre := fun _ => none } = .ok c ∧
      Located l below 0 c as bs := by
  have hlen := h.length_lt
  exact descend_cut h hd _ _ _ [] es rfl (Nat.le_refl _) (by unfold fuel; omega)
    (.start l below h.cur_pos es _)

theorem findEqualOrGreater_cut (h : Shape l es) (hd : Decides compare_ t es below) :
    ∃ as bs pre, es = as ++ bs ∧ Cut l below as bs pre ∧
      l.findEqualOrGreater compare_ t = .ok (bs.head?.map Entry.ptr, pre) := by
  obtain ⟨c, as, bs, hes, hrun, hl⟩ := descend_from_head h hd
  refine ⟨as, bs, c.pre, hes, ⟨hl.descent, fun j hj => hl.pre_eq j (by omega) hj⟩, ?_⟩
  rw [findEqualOrGreater, hrun, ok_bind, hl.next_eq rfl]

/-- A seek in an empty list compares nothing. -/
theorem seek_nil (h : Shape l []) (compare_ : Compare Key) (t : Key) :
    Iterator.seek compare_ l t = .ok ⟨none⟩ := by
  have hd : Decides compare_ t ([] : List (Entry Key)) fun _ => False := by simp [Decides]
  obtain ⟨as, bs, pre, hes, -, hfind⟩ := findEqualOrGreater_cut h hd
  obtain ⟨rfl, rfl⟩ := List.append_eq_nil_iff.mp hes.symm
  exact bind_eq_ok.mpr ⟨_, hfind, rfl⟩

theorem findLessThan_cut (h : Shape l es) (hd : Decides compare_ t es below) :
    ∃ as bs, es = as ++ bs ∧ Descent Entry.height below l.curMaxHeight_ 0 as bs ∧
      l.findLessThan compare_ t = .ok (l.lastPtr as) := by
  obtain ⟨c, as, bs, hes, hrun, hl⟩ := descend_from_head h hd
  refine ⟨as, bs, hes, hl.descent, ?_⟩
  rw [findLessThan, hrun, ok_bind, hl.x_eq]

/-- Where the comparator fails on every entry, the search fails: it goes down from `head_` to a
level with an entry on it. -/
theorem descend_fails (h : Shape l es) (hne : es ≠ [])
    (hfails : ∀ e ∈ es, ∀ r, compare_ e.key t ≠ .ok r) :
    ∀ (fuel n : Nat) (c c' : Cursor), c.x = l.head_ → 0 < n → n ≤ l.curMaxHeight_ →
      descend compare_ l t fuel n c ≠ .ok c' := by
  intro fuel
  induction fuel with
  | zero =>
      intro n c c' _ hpos _
      obtain ⟨n, rfl⟩ := Nat.exists_eq_add_one.mpr hpos
      simp [descend]
  | succ fuel ih =>
      intro n c c' hx hpos hn hrun
      obtain ⟨n, rfl⟩ := Nat.exists_eq_add_one.mpr hpos
      have hcur := h.cur_le
      have hload : l.next c.x n = .ok ((level Entry.height n es).head?.map Entry.ptr) := by
        have hchain := (show Shape l ([] ++ es) from h).chain n (by omega)
        rw [hx, ← lastPtr_nil]
        exact next_at_cut hchain (by simp)
      rw [descend, hload, ok_bind] at hrun
      cases hy : (level Entry.height n es).head? with
      | none =>
          -- the lowest level has all entries on it
          have hn₀ : n ≠ 0 := by
            rintro rfl
            rw [Levels.level_eq_self h.height_pos] at hy
            exact hne (List.head?_eq_none_iff.mp hy)
          rw [hy, Option.map_none, goesDown, ok_bind, if_pos rfl] at hrun
          refine ih n _ c' ?_ (by omega) (by omega) hrun
          exact hx
      | some e =>
          have he : e ∈ es := (Levels.mem_level.mp (List.mem_of_head? hy)).1
          rw [hy, Option.map_some, goesDown, h.key_eq e he, ok_bind] at hrun
          obtain ⟨down, hdown, -⟩ := bind_eq_ok.mp hrun
          obtain ⟨r, hr, -⟩ := bind_eq_ok.mp hdown
          exact hfails e he r hr

theorem findEqualOrGreater_fails (h : Shape l es) (hne : es ≠ [])
    (hfails : ∀ e ∈ es, ∀ r, compare_ e.key t ≠ .ok r) (r : Option NodePtr × Prev) :
    l.findEqualOrGreater compare_ t ≠ .ok r := by
  intro hrun
  obtain ⟨c, hc, -⟩ := bind_eq_ok.mp hrun
  exact descend_fails h hne hfails _ _ _ c rfl h.cur_pos (Nat.le_refl _) hc

/-! ### Searches that return -/

/-- `compare_` where it answers, and 0 where it fails. -/
def answering (compare_ : Compare Key) : Compare Key :=
  fun a b => .ok ((compare_ a b).toOption.getD 0)

theorem answering_of_ok {a b : Key} {r : Int} (h : compare_ a b = .ok r) :
    answering compare_ a b = .ok r := by
  rw [answering, h]
  rfl

theorem goesDown_answering {p : Option NodePtr} {down : Bool}
    (hrun : l.goesDown compare_ t p = .ok down) :
    l.goesDown (answering compare_) t p = .ok down := by
  cases p with
  | none => exact hrun
  | some y =>
      obtain ⟨k, hk, hrest⟩ := bind_eq_ok.mp hrun
      obtain ⟨r, hr, hdown⟩ := bind_eq_ok.mp hrest
      exact bind_eq_ok.mpr ⟨k, hk, bind_eq_ok.mpr ⟨r, answering_of_ok hr, hdown⟩⟩

/-- A search that returns has not seen its comparator fail. -/
theorem descend_answering :
    ∀ (fuel n : Nat) (c c' : Cursor), descend compare_ l t fuel n c = .ok c' →
      descend (answering compare_) l t fuel n c = .ok c' := by
  intro fuel
  induction fuel with
  | zero =>
      intro n c c' hrun
      cases n with
      | zero => exact hrun
      | succ n => cases hrun
  | succ fuel ih =>
      intro n c c' hrun
      cases n with
      | zero => exact hrun
      | succ n =>
          obtain ⟨next, hnext, hrest⟩ := bind_eq_ok.mp hrun
          obtain ⟨down, hdown, hrest⟩ := bind_eq_ok.mp hrest
          refine bind_eq_ok.mpr ⟨next, hnext, bind_eq_ok.mpr ⟨down, goesDown_answering hdown, ?_⟩⟩
          cases down with
          | true => exact ih n _ c' hrest
          | false =>
              cases next with
              | none => exact hrest
              | some y => exact ih (n + 1) _ c' hrest

/-- What a search has found that returns, for any comparator. -/
theorem findEqualOrGreater_found {node : Option NodePtr} {pre : Prev} (h : Shape l es)
    (hrun : l.findEqualOrGreater compare_ t = .ok (node, pre)) :
    ∃ below as bs, es = as ++ bs ∧ Cut l below as bs pre ∧ node = bs.head?.map Entry.ptr := by
  have hanswers : ∀ e ∈ es, ∃ r, answering compare_ e.key t = .ok r := fun _ _ => ⟨_, rfl⟩
  obtain ⟨as, bs, pre', hes, hcut, hfind⟩ := findEqualOrGreater_cut h (decides_of_ok hanswers)
  obtain ⟨c, hc, hres⟩ := bind_eq_ok.mp hrun
  have hfind' : l.findEqualOrGreater (answering compare_) t = .ok (node, pre) :=
    bind_eq_ok.mpr ⟨c, descend_answering _ _ _ c hc, hres⟩
  obtain ⟨rfl, rfl⟩ := Prod.mk.inj (Except.ok.inj (hfind.symm.trans hfind'))
  exact ⟨_, as, bs, hes, hcut, rfl⟩

end Descend

/-! ### The last node -/

/-- The link on the lowest level, which every entry is on. -/
theorem Shape.next_zero (h : Shape l (as ++ bs)) :
    l.next (l.lastPtr as) 0 = .ok (bs.head?.map Entry.ptr) := by
  have hbs : ∀ e ∈ bs, 0 < e.height := fun e he => h.height_pos e (List.mem_append_right _ he)
  have hc : ∀ e ∈ as.getLast?, 0 < e.height := fun e he =>
    h.height_pos e (List.mem_append_left _ (List.mem_of_getLast? he))
  have := next_at_cut (h.chain 0 (by decide)) hc
  rwa [Levels.level_eq_self hbs] at this

/-- From any node, the loop ends at the last one: the level counter runs down only there. -/
theorem findLastLoop_eq (h : Shape l es) :
    ∀ (fuel n : Nat) (as bs : List (Entry Key)), es = as ++ bs → (n = 0 → bs = []) →
      n + bs.length ≤ fuel → findLastLoop l fuel n (l.lastPtr as) = .ok (l.lastPtr es) := by
  intro fuel
  induction fuel with
  | zero =>
      intro n as bs hes hn hf
      obtain rfl : n = 0 := by omega
      obtain rfl := hn rfl
      rw [findLastLoop, hes, List.append_nil]
  | succ fuel ih =>
      intro n as bs hes hn hf
      cases n with
      | zero =>
          obtain rfl := hn rfl
          rw [findLastLoop, hes, List.append_nil]
      | succ n =>
          rw [findLastLoop, (hes ▸ h : Shape l (as ++ bs)).next_zero]
          cases bs with
          | nil => exact ih n as [] hes (fun _ => rfl) (by simpa using hf)
          | cons b bs =>
              have := ih (n + 1) (as ++ [b]) bs (by simp [hes]) (fun h₀ => by omega)
                (by simp only [List.length_cons] at hf; omega)
              rwa [lastPtr_concat] at this

theorem findLast_eq (h : Shape l es) : l.findLast = .ok (l.lastPtr es) := by
  have hlen := h.length_lt
  have hpos := h.cur_pos
  exact findLastLoop_eq h _ _ [] es rfl (fun h₀ => by omega) (by unfold fuel; omega)

end Leveldb.SkipList
