import MyLeveldb.SkipList.Interleaving
import MyLeveldb.SkipList.Refinement

/-!
# SkipList — Readers

A reader between the stores of an insertion.  `insert` links the new node from its highest level
down, so that a reader may be on the new node on a level it is linked on and go down from it to a
level it is not: it then loads a slot nothing has been stored to.

* `Stands.step`: one step of a reader on some level moves it right along what it sees of the level,
  or down when it has passed the keys below its target.
* `Safe.step`: where the reader never goes down from the new node (`Shielded`), it loads only
  stored slots, and what it finds is right for the keys before the insertion or after it.
* `Exposed.early`: where it can, some schedule makes it.

`read_during_insert` puts the two together: the insertion is safe for a reader exactly when the
reader is shielded from the new node.
-/

namespace Leveldb.SkipList

open Levels (level)
open ThreeWay

variable {Key : Type} {l l' : SkipList Key} {es as bs : List (Entry Key)} {e : Entry Key}
  {cmp : Key → Key → Int} {t : Key} {hd x : NodePtr} {i j n : Nat} {o : Option (Entry Key)}

/-! ### What a reader sees -/

/-- The keys of `es` are in the order of `cmp`. -/
def Increasing (cmp : Key → Key → Int) (es : List (Entry Key)) : Prop :=
  es.Pairwise fun a b => cmp a.key b.key < 0

/-- Less is above a reader that has gone on. -/
theorem above_entry_lt (hc : IsPreorder cmp) {y : Entry Key} (hy : y ∈ es)
    (ho : ∀ x ∈ o, cmp x.key y.key < 0) :
    above cmp (es.map Entry.key) (some y.key) < above cmp (es.map Entry.key) (o.map Entry.key) := by
  refine above_lt hc (List.mem_map_of_mem hy) fun a ha => ?_
  obtain ⟨z, hz, rfl⟩ := Option.mem_map.mp ha
  exact ho z hz

/-- The reader stands on level `j` at `o`, or at `head_`: at `x`. -/
structure Stands (cmp : Key → Key → Int) (t : Key) (as : List (Entry Key)) (e : Entry Key)
    (bs : List (Entry Key)) (hd : NodePtr) (i j : Nat) (o : Option (Entry Key)) (x : NodePtr) :
    Prop where
  lt : j < kMaxHeight
  x_eq : x = (o.map Entry.ptr).getD hd
  on : ∀ y ∈ o, y ∈ woven as e bs i j ∧ j < y.height ∧ cmp y.key t < 0

/-- Where the reader goes down: `qs` are the entries of the level it has passed. -/
structure Stops (cmp : Key → Key → Int) (t : Key) (as : List (Entry Key)) (e : Entry Key)
    (bs : List (Entry Key)) (i j : Nat) (o : Option (Entry Key)) (qs ss : List (Entry Key)) :
    Prop where
  cut : level Entry.height j (woven as e bs i j) = qs ++ ss
  last : qs.getLast? = o
  passed : ∀ y ∈ qs, cmp y.key t < 0
  ahead : ∀ y ∈ ss, 0 ≤ cmp y.key t

theorem Increasing.level (h : Increasing cmp (as ++ e :: bs)) (i j : Nat) :
    Increasing cmp (level Entry.height j (woven as e bs i j)) :=
  List.Pairwise.sublist (Levels.level_sublist.trans woven_sublist) h

/-- The level, cut at where the reader stands, and the link there. -/
theorem Stands.cut (h : Stands cmp t as e bs l.head_ i j o x) (hv : Visible l as e bs i) :
    ∃ qs ss, level Entry.height j (woven as e bs i j) = qs ++ ss ∧ qs.getLast? = o ∧
      l.link j x (ss.head?.map Entry.ptr) := by
  have hc := hv.chain j h.lt
  cases ho : o with
  | none =>
      refine ⟨[], level Entry.height j (woven as e bs i j), rfl, rfl, ?_⟩
      have := (show Linked.Chain _ _ ([] ++ _) from hc).link_at
      rw [h.x_eq, ho, ← List.head?_map]
      exact this
  | some y =>
      obtain ⟨hy, hyj, -⟩ := h.on y ho
      obtain ⟨qs, ss, hcut⟩ := List.append_of_mem (Levels.mem_level.mpr ⟨hy, hyj⟩)
      have hcut' : level Entry.height j (woven as e bs i j) = (qs ++ [y]) ++ ss := by
        rw [hcut, List.append_assoc, List.singleton_append]
      refine ⟨qs ++ [y], ss, hcut', by simp, ?_⟩
      rw [levelPtrs, hcut', List.map_append] at hc
      have := hc.link_at
      simp only [List.map_append, List.map_cons, List.map_nil, List.getLastD_concat] at this
      rw [h.x_eq, ho, ← List.head?_map]
      exact this

/-- One step of a reader that stands on level `j`. -/
theorem Stands.step (hc : IsPreorder cmp) (hs : Increasing cmp (as ++ e :: bs))
    (h : Stands cmp t as e bs l.head_ i j o x) (hv : Visible l as e bs i)
    (nx : Option NodePtr) :
    (∃ y, Reader.step (.ofInt cmp) l t ⟨.loop (j + 1) x nx, false⟩ =
          .ok ⟨.loop (j + 1) y.ptr (some y.ptr), false⟩ ∧
        Stands cmp t as e bs l.head_ i j (some y) y.ptr ∧
        above cmp ((as ++ e :: bs).map Entry.key) (some y.key) <
          above cmp ((as ++ e :: bs).map Entry.key) (o.map Entry.key)) ∨
      ∃ qs ss, Reader.step (.ofInt cmp) l t ⟨.loop (j + 1) x nx, false⟩ =
          .ok ⟨.loop j x (ss.head?.map Entry.ptr), false⟩ ∧ Stops cmp t as e bs i j o qs ss := by
  obtain ⟨qs, ss, hcut, hlast, hlink⟩ := h.cut hv
  have hinc := hs.level i j
  rw [hcut, Increasing, List.pairwise_append] at hinc
  obtain ⟨hqs, hss, hcross⟩ := hinc
  have hpassed : ∀ y ∈ qs, cmp y.key t < 0 := by
    rcases List.eq_nil_or_concat qs with rfl | ⟨qs, z, rfl⟩
    · simp
    · rw [List.concat_eq_append] at *
      have hz : cmp z.key t < 0 := (h.on z (by rw [← hlast]; simp)).2.2
      intro y hy
      rcases List.mem_append.mp hy with hy | hy
      · exact hc.lt_trans ((List.pairwise_append.mp hqs).2.2 y hy z (by simp)) hz
      · rw [List.mem_singleton.mp hy]
        exact hz
  have hload : l.slot x j = some (.stored (ss.head?.map Entry.ptr)) := hlink
  cases ss with
  | nil =>
      refine .inr ⟨qs, [], ?_, hcut, hlast, hpassed, by simp⟩
      simp [Reader.step, hload, Slot.isStored, Slot.load, goesDown]
  | cons y ss =>
      have hy : y ∈ level Entry.height j (woven as e bs i j) := by simp [hcut]
      obtain ⟨hyw, hyj⟩ := Levels.mem_level.mp hy
      have hkey := hv.key_eq j y hy
      by_cases hb : cmp y.key t < 0
      · refine .inl ⟨y, ?_, ⟨h.lt, rfl, fun z hz => ?_⟩, ?_⟩
        · simp [Reader.step, hload, Slot.isStored, Slot.load, goesDown, hkey, Compare.ofInt, hb]
        · obtain rfl : y = z := Option.mem_some.mp hz
          exact ⟨hyw, hyj, hb⟩
        · exact above_entry_lt hc (woven_sublist.subset hyw) fun z hz =>
            hcross z (List.mem_of_getLast? (hlast.trans hz)) y (by simp)
      · refine .inr ⟨qs, y :: ss, ?_, hcut, hlast, hpassed, fun z hz => ?_⟩
        · simp [Reader.step, hload, Slot.isStored, Slot.load, goesDown, hkey, Compare.ofInt, hb]
        · rcases List.mem_cons.mp hz with rfl | hz
          · omega
          · have hyz := (List.pairwise_cons.mp hss).1 z hz
            by_contra hzt
            exact hb (hc.lt_trans hyz (by omega))

/-! ### The shielded reader -/

/-- No reader of `t` goes down from the new entry. -/
def Shielded (cmp : Key → Key → Int) (t : Key) (as : List (Entry Key)) (e : Entry Key)
    (bs : List (Entry Key)) : Prop :=
  e.height = 1 ∨ cmp t e.key ≤ 0 ∨
    ∃ q ∈ as ++ bs, cmp e.key q.key < 0 ∧ cmp q.key t < 0 ∧ e.height ≤ q.height

/-- The first entry of `es` not below the target is `o`. -/
def Finds (cmp : Key → Key → Int) (t : Key) (es : List (Entry Key)) (o : Option (Entry Key)) :
    Prop :=
  ∃ qs ss, es = qs ++ ss ∧ (∀ y ∈ qs, cmp y.key t < 0) ∧ (∀ y ∈ ss, 0 ≤ cmp y.key t) ∧
    ss.head? = o

/-- The reader has loaded stored slots only, and returns within `m` of its steps. -/
inductive Safe (cmp : Key → Key → Int) (t : Key) (as : List (Entry Key)) (e : Entry Key)
    (bs : List (Entry Key)) (hd : NodePtr) (i m : Nat) : Reader → Prop where
  | start (hm : kMaxHeight + (as ++ e :: bs).length + 1 ≤ m) :
      Safe cmp t as e bs hd i m ⟨.start, false⟩
  | loop {j : Nat} {o : Option (Entry Key)} {x : NodePtr} {nx : Option NodePtr}
      (h : Stands cmp t as e bs hd i j o x)
      (hm : j + 1 + above cmp ((as ++ e :: bs).map Entry.key) (o.map Entry.key) ≤ m) :
      Safe cmp t as e bs hd i m ⟨.loop (j + 1) x nx, false⟩
  | done {o : Option (Entry Key)} {x : NodePtr} (hmem : ∀ y ∈ o, y ∈ woven as e bs i 0)
      (h : Finds cmp t (as ++ bs) o ∨ Finds cmp t (as ++ e :: bs) o) :
      Safe cmp t as e bs hd i m ⟨.loop 0 x (o.map Entry.ptr), false⟩

/-- A level the writer has linked stays linked. -/
theorem woven_subset {i' : Nat} (h : i' ≤ i) : woven as e bs i j ⊆ woven as e bs i' j := by
  intro y hy
  unfold woven at *
  by_cases h₁ : j < i'
  · rw [if_pos h₁]
    rwa [if_pos (by omega)] at hy
  · rw [if_neg h₁]
    split_ifs at hy
    · exact mem_insert.mpr (.inr hy)
    · exact hy

/-- The writer's steps do not endanger the reader. -/
theorem Safe.mono {i' m : Nat} {r : Reader} (h : Safe cmp t as e bs hd i m r) (hi : i' ≤ i) :
    Safe cmp t as e bs hd i' m r := by
  cases h with
  | start hm => exact .start hm
  | loop h hm =>
      refine .loop ⟨h.lt, h.x_eq, fun y hy => ?_⟩ hm
      exact ⟨woven_subset hi (h.on y hy).1, (h.on y hy).2⟩
  | done hmem h => exact .done (fun y hy => woven_subset hi (hmem y hy)) h

/-- A shielded reader goes down from other entries only, before the lowest level. -/
theorem Stops.ne (hc : IsPreorder cmp) (hs : Increasing cmp (as ++ e :: bs))
    (hsh : Shielded cmp t as e bs) {qs ss : List (Entry Key)} (h : Stops cmp t as e bs i j o qs ss)
    (hj : 0 < j) : ∀ y ∈ o, y ∈ woven as e bs i j → j < y.height → y ≠ e := by
  rintro y hy hyw hyj rfl
  have hlast : y ∈ qs := List.mem_of_getLast? (h.last.trans hy)
  have hbelow := h.passed y hlast
  rcases hsh with h₁ | h₁ | ⟨q, hq, hyq, hqt, hle⟩
  · omega
  · have := (hc.flip_le t y.key).mp h₁
    omega
  · -- the shielding entry is on this level too, and ahead of the new one
    have hqw : q ∈ woven as y bs i j := by
      unfold woven
      split_ifs
      · exact hq
      · exact mem_insert.mpr (.inr hq)
    have hqlev : q ∈ level Entry.height j (woven as y bs i j) :=
      Levels.mem_level.mpr ⟨hqw, by omega⟩
    rw [h.cut] at hqlev
    rcases List.mem_append.mp hqlev with hq | hq
    · obtain ⟨qs', rfl⟩ := List.getLast?_eq_some_iff.mp (h.last.trans hy)
      have hinc := hs.level i j
      rw [h.cut, Increasing, List.pairwise_append] at hinc
      have hself := hc.self y.key
      have hflip := hc.flip y.key q.key
      rcases List.mem_append.mp hq with hq | hq
      · have := (List.pairwise_append.mp hinc.1).2.2 q hq y (by simp)
        omega
      · rw [List.mem_singleton.mp hq] at hyq
        omega
    · have := h.ahead q hq
      omega

/-- One step of a shielded reader. -/
theorem Safe.step {m : Nat} {r : Reader} (hc : IsPreorder cmp)
    (hs : Increasing cmp (as ++ e :: bs)) (hpos : ∀ y ∈ as ++ e :: bs, 0 < y.height)
    (hsh : Shielded cmp t as e bs) (hv : Visible l as e bs i)
    (h : Safe cmp t as e bs l.head_ i m r) :
    ∃ r', r.step (.ofInt cmp) l t = .ok r' ∧ Safe cmp t as e bs l.head_ i (m - 1) r' := by
  cases h with
  | start hm =>
      refine ⟨⟨.loop l.curMaxHeight_ l.head_ none, false⟩, rfl, ?_⟩
      have hcur := hv.cur_le
      obtain ⟨j, hj⟩ : ∃ j, l.curMaxHeight_ = j + 1 := ⟨_, (Nat.sub_add_cancel hv.cur_pos).symm⟩
      rw [hj]
      refine .loop (o := none) ⟨by omega, rfl, by simp⟩ ?_
      rw [Option.map_none, above_none, List.length_map]
      omega
  | @loop j o x nx h hm =>
      rcases h.step hc hs hv nx with ⟨y, hrun, hy, hlt⟩ | ⟨qs, ss, hrun, hstop⟩
      · exact ⟨_, hrun, .loop hy (by rw [Option.map_some]; omega)⟩
      · refine ⟨_, hrun, ?_⟩
        cases j with
        | zero =>
            -- no level is left: what is ahead on level 0 is the result
            have hlev : level Entry.height 0 (woven as e bs i 0) = woven as e bs i 0 :=
              Levels.level_eq_self fun y hy => hpos y (woven_sublist.subset hy)
            have hcut := hstop.cut
            rw [hlev] at hcut
            refine .done (fun y hy => hcut ▸ List.mem_append_right qs (List.mem_of_head? hy)) ?_
            have hfind : Finds cmp t (woven as e bs i 0) ss.head? :=
              ⟨qs, ss, hcut, hstop.passed, hstop.ahead, rfl⟩
            unfold woven at hfind
            split_ifs at hfind
            · exact .inl hfind
            · exact .inr hfind
        | succ j =>
            have hne := hstop.ne hc hs hsh (Nat.succ_pos j)
            have hjk := h.lt
            refine .loop (o := o) ⟨by omega, h.x_eq, fun y hy => ?_⟩ (by omega)
            obtain ⟨hyw, hyj, hyt⟩ := h.on y hy
            refine ⟨?_, by omega, hyt⟩
            -- an old entry is on every level below its height
            have hold : y ∈ as ++ bs :=
              (mem_insert.mp (woven_sublist.subset hyw)).resolve_left (hne y hy hyw hyj)
            unfold woven
            split_ifs
            · exact hold
            · exact mem_insert.mpr (.inr hold)
  | done hmem h => exact ⟨_, rfl, .done hmem h⟩

/-- Writer and reader, in any order. -/
theorem Safe.run (hc : IsPreorder cmp) (hs : Increasing cmp (as ++ e :: bs))
    (hpos : ∀ y ∈ as ++ e :: bs, 0 < y.height) (hle : e.height ≤ kMaxHeight)
    (hsh : Shielded cmp t as e bs) :
    ∀ (sched : List Actor) (c : Config Key) (i m : Nat), Phase as e bs c.list c.writer i →
      Safe cmp t as e bs c.list.head_ i m c.reader →
      ∃ c' i', Config.run (.ofInt cmp) t sched c = .ok c' ∧ Phase as e bs c'.list c'.writer i' ∧
        Safe cmp t as e bs c'.list.head_ i' (m - sched.count .reader) c'.reader := by
  intro sched
  induction sched with
  | nil => exact fun c i m hp hr => ⟨c, i, rfl, hp, hr⟩
  | cons a sched ih =>
      intro c i m hp hr
      cases a with
      | writer =>
          obtain ⟨l', w', i', hrun, -, hi, hp', hhead⟩ := hp.step (hpos e (by simp)) hle
          obtain ⟨c', i'', hrun', hp'', hr''⟩ := ih { c with list := l', writer := w' } i' m hp'
            (by rw [hhead]; exact hr.mono hi)
          refine ⟨c', i'', ?_, hp'', hr''⟩
          simp only [Config.run, Config.step, hrun, ok_bind]
          exact hrun'
      | reader =>
          obtain ⟨r', hrun, hr'⟩ := hr.step hc hs hpos hsh hp.visible
          obtain ⟨c', i', hrun', hp', hr''⟩ := ih { c with reader := r' } i (m - 1) hp hr'
          refine ⟨c', i', ?_, hp', ?_⟩
          · simp only [Config.run, Config.step, hrun, ok_bind]
            exact hrun'
          · rwa [List.count_cons_self, Nat.add_comm, ← Nat.sub_sub]

/-! ### The exposed reader -/

/-- A reader that goes down from the highest level of the new entry, past it, stands on it. -/
theorem Stops.eq_new (hc : IsPreorder cmp) (hs : Increasing cmp (as ++ e :: bs))
    (hk : cmp e.key t < 0)
    (hlow : ∀ q ∈ as ++ bs, cmp e.key q.key < 0 → cmp q.key t < 0 → q.height < e.height)
    (he : e.height = j + 1) (hij : i ≤ j) {qs ss : List (Entry Key)}
    (h : Stops cmp t as e bs i j o qs ss) : o = some e := by
  have hfull : woven as e bs i j = as ++ e :: bs := if_neg (by omega)
  have hcut := h.cut
  have hinc := hs.level i j
  rw [hcut, Increasing, List.pairwise_append] at hinc
  have hmem : e ∈ qs ++ ss := by
    rw [← hcut, hfull]
    exact Levels.mem_level.mpr ⟨by simp, by omega⟩
  have heq : e ∈ qs := by
    refine (List.mem_append.mp hmem).resolve_right fun hss => ?_
    have := h.ahead e hss
    omega
  rcases List.eq_nil_or_concat qs with rfl | ⟨qs, z, rfl⟩
  · cases heq
  · rw [List.concat_eq_append] at *
    have ho : o = some z := by rw [← h.last]; simp
    rcases List.mem_append.mp heq with heq | heq
    · -- a later entry of this level is as high as the new one
      have hez := (List.pairwise_append.mp hinc.1).2.2 e heq z (by simp)
      have hzlev : z ∈ level Entry.height j (woven as e bs i j) := by rw [hcut]; simp
      obtain ⟨hzw, hzj⟩ := Levels.mem_level.mp hzlev
      rw [hfull] at hzw
      rcases mem_insert.mp hzw with rfl | hz
      · have := hc.self z.key
        omega
      · have := hlow z hz hez (h.passed z (by simp))
        omega
    · rw [ho, List.mem_singleton.mp heq]

theorem Reader.step_unstored {s : Slot} {nx : Option NodePtr} {b : Bool} (compare_ : Compare Key)
    (hs : l.slot x j = some s) (hsu : s.isStored = false) :
    ∃ r', Reader.step compare_ l t ⟨.loop (j + 1) x nx, b⟩ = .ok r' ∧ r'.early = true := by
  cases s with
  | stored q => cases hsu
  | garbage => exact ⟨⟨.lost, true⟩, by simp [Reader.step, hs, Slot.isStored, Slot.load], rfl⟩
  | constructed =>
      exact ⟨⟨.loop j x none, true⟩,
        by simp [Reader.step, hs, Slot.isStored, Slot.load, goesDown], rfl⟩

/-- With the new entry linked on its highest level only, a reader on that level or above comes to
the new node and goes down from it. -/
theorem Stands.early (hc : IsPreorder cmp) (hs : Increasing cmp (as ++ e :: bs))
    (hv : Visible l as e bs (i + 1)) (hu : Unstored l e.ptr (i + 1)) (he : e.height = i + 2)
    (hk : cmp e.key t < 0)
    (hlow : ∀ q ∈ as ++ bs, cmp e.key q.key < 0 → cmp q.key t < 0 → q.height < e.height)
    {w : Writer Key} :
    ∀ (m j : Nat) (o : Option (Entry Key)) (x : NodePtr) (nx : Option NodePtr),
      Stands cmp t as e bs l.head_ (i + 1) j o x → i + 1 ≤ j →
      j + above cmp ((as ++ e :: bs).map Entry.key) (o.map Entry.key) ≤ m →
      ∃ n r', Config.run (.ofInt cmp) t (List.replicate n .reader)
          { list := l, writer := w, reader := ⟨.loop (j + 1) x nx, false⟩ } =
        .ok { list := l, writer := w, reader := r' } ∧ r'.early = true := by
  have hfull : ∀ {j'}, i + 1 ≤ j' → woven as e bs (i + 1) j' = as ++ e :: bs := fun hj' =>
    if_neg (by omega)
  -- one step, and the rest of the run
  have cons : ∀ {r r' : Reader}, r.step (.ofInt cmp) l t = .ok r' →
      (∃ n r'', Config.run (.ofInt cmp) t (List.replicate n .reader)
          { list := l, writer := w, reader := r' } =
        .ok { list := l, writer := w, reader := r'' } ∧ r''.early = true) →
      ∃ n r'', Config.run (.ofInt cmp) t (List.replicate n .reader)
          { list := l, writer := w, reader := r } =
        .ok { list := l, writer := w, reader := r'' } ∧ r''.early = true := by
    rintro r r' hrun ⟨n, r'', hrun', hr''⟩
    refine ⟨n + 1, r'', ?_, hr''⟩
    simp only [List.replicate_succ, Config.run, Config.step, hrun, ok_bind]
    exact hrun'
  intro m
  induction m with
  | zero => exact fun j o x nx _ hj hm => by omega
  | succ m ih =>
      intro j o x nx h hj hm
      rcases h.step hc hs hv nx with ⟨y, hrun, hy, hlt⟩ | ⟨qs, ss, hrun, hstop⟩
      · exact cons hrun (ih j (some y) y.ptr _ hy hj (by rw [Option.map_some]; omega))
      · obtain ⟨j, rfl⟩ : ∃ j', j = j' + 1 := ⟨j - 1, by omega⟩
        by_cases hji : i + 1 ≤ j
        · have hon : Stands cmp t as e bs l.head_ (i + 1) j o x := by
            refine ⟨by have := h.lt; omega, h.x_eq, fun y hy => ?_⟩
            obtain ⟨hyw, hyj, hyt⟩ := h.on y hy
            rw [hfull (by omega)] at hyw
            exact ⟨(hfull hji).symm ▸ hyw, by omega, hyt⟩
          exact cons hrun (ih j o x _ hon hji (by omega))
        · -- it goes down from the new node, to a slot the writer has not stored to
          obtain rfl : j = i := by omega
          have ho := hstop.eq_new hc hs hk hlow he (Nat.le_refl _)
          have hx : x = e.ptr := by rw [h.x_eq, ho]; rfl
          obtain ⟨s, hslot, hsu⟩ := hu j (Nat.lt_succ_self j)
          obtain ⟨r', hrun', hr'⟩ := Reader.step_unstored (.ofInt cmp) (hx ▸ hslot) hsu
          exact cons hrun (cons hrun' ⟨0, r', rfl, hr'⟩)

/-- After four steps of the writer, such a reader loads a slot that has not been stored. -/
theorem early_of_exposed (hc : IsPreorder cmp) (hs : Increasing cmp (as ++ e :: bs))
    (hle : e.height ≤ kMaxHeight) (h2 : 2 ≤ e.height) (hk : cmp e.key t < 0)
    (hlow : ∀ q ∈ as ++ bs, cmp e.key q.key < 0 → cmp q.key t < 0 → q.height < e.height)
    {c : Config Key} (hp : Phase as e bs c.list c.writer n) (hpc : c.writer.pc = .raise)
    (hr : c.reader = ⟨.start, false⟩) :
    ∃ sched c', Config.run (.ofInt cmp) t sched c = .ok c' ∧ c'.reader.early = true := by
  obtain ⟨i, hi⟩ : ∃ i, e.height = i + 2 := ⟨e.height - 2, by omega⟩
  -- the writer raises the height, makes the node and links its highest level
  obtain ⟨l, w, i', hrun, hpc', hp', -⟩ :=
    Phase.run (.ofInt cmp) t (by omega) hle 4 c hp
  have hloop : w.pc = .loop (i + 1) := by
    rw [hpc', hpc, hi]
    rfl
  obtain ⟨rfl, hlink, hu⟩ := hp'.at_loop hloop
  have hcur : e.height ≤ l.curMaxHeight_ := hlink.height_le e (by simp)
  have hcurk := hlink.cur_le
  obtain ⟨j, hj⟩ : ∃ j, l.curMaxHeight_ = j + 1 := ⟨l.curMaxHeight_ - 1, by omega⟩
  have hstart : Stands cmp t as e bs l.head_ (i + 1) j none l.head_ :=
    ⟨by omega, rfl, by simp⟩
  obtain ⟨m, r', hrun', hr'⟩ := Stands.early (w := w) hc hs hlink.visible hu hi hk hlow _ j none
    l.head_ none hstart (by omega) (Nat.le_refl _)
  refine ⟨List.replicate 4 .writer ++ .reader :: List.replicate m .reader,
    { list := l, writer := w, reader := r' }, ?_, hr'⟩
  rw [Config.run_append, hrun, ok_bind, hr]
  simp only [Config.run, Config.step, Reader.step, ok_bind, hj]
  exact hrun'

/-! ### The theorem -/

/-- The reader has loaded stored slots only, and what it has returned, if it has, is the least key
not before `t` of the keys `S`, or of these and `k`. -/
structure Sound (cmp : Key → Key → Int) (S : Set Key) (k t : Key) (c : Config Key) : Prop where
  stored : c.reader.early = false
  answer : ∀ r, c.reader.result = some r → ∃ a, Session.position c.list ⟨r⟩ = .ok a ∧
    (a = least cmp {x ∈ S | cmp t x ≤ 0} ∨ a = least cmp {x ∈ Set.insert k S | cmp t x ≤ 0})
  found : ∀ r, c.reader.result = some r → t ∈ S → c.list.isAt (.ofInt cmp) t r = .ok true

/-- Every interleaving of `insert(k)`, at height `h`, with a reader of `t` is sound, and the
reader returns within a bounded number of its own steps. -/
def SafeRead (cmp : Key → Key → Int) (S : Set Key) (l : SkipList Key) (k : Key) (h : Nat)
    (t : Key) : Prop :=
  ∃ c₀, Config.start (.ofInt cmp) k h l = .ok c₀ ∧ ∀ sched, ∃ c,
    Config.run (.ofInt cmp) t sched c₀ = .ok c ∧ Sound cmp S k t c ∧
      (kMaxHeight + l.nodes.length + 1 ≤ sched.count .reader → c.reader.result.isSome)

/-- Where the insertion and the reader begin. -/
theorem start_phase {k : Key} {h : Nat} (hc : IsPreorder cmp) (hl : Sorted cmp l es)
    (hab : ∀ e ∈ es, cmp e.key k ≠ 0) :
    ∃ as bs c, es = as ++ bs ∧ Config.start (.ofInt cmp) k h l = .ok c ∧ c.list = l ∧
      c.reader = ⟨.start, false⟩ ∧ c.writer.pc = .raise ∧
      Phase as ⟨l.nodes.length, k, h⟩ bs l c.writer h ∧
      Increasing cmp (as ++ ⟨l.nodes.length, k, h⟩ :: bs) := by
  obtain ⟨as, bs, pre, rfl, hcut, hfind⟩ :=
    findEqualOrGreater_cut hl.toShape (decides_ofInt cmp k _)
  obtain ⟨hlow, hhigh⟩ := hl.split hc hcut.descent hl.cur_pos
  have hassert := assertAbsent_ok hl.toHolds (decides_ofInt cmp k _)
    fun e he h0 => hab e he (Except.ok.inj h0)
  refine ⟨as, bs, _, rfl, by simp only [Config.start, hfind, ok_bind, hassert]; rfl, rfl, rfl, rfl,
    .raise hl.toShape rfl hcut, hl.with_new hc hlow hhigh hab _ _⟩

theorem position_option {o : Option (Entry Key)} (h : ∀ y ∈ o, l.key y.ptr = .ok y.key) :
    Session.position l ⟨o.map Entry.ptr⟩ = .ok (o.map Entry.key) := by
  cases o with
  | none => rfl
  | some y => simp [Session.position, Iterator.valid, Iterator.key, h y rfl]

/-- The first entry not below the target has the least key that is not. -/
theorem Finds.least (hc : IsStrict cmp) (hs : Increasing cmp es) (h : Finds cmp t es o) :
    o.map Entry.key = least cmp {x ∈ keySet es | cmp t x ≤ 0} := by
  obtain ⟨qs, ss, rfl, hqs, hss, rfl⟩ := h
  have hset : {x ∈ keySet (qs ++ ss) | cmp t x ≤ 0} = {x | x ∈ ss.map Entry.key} := by
    refine keySet_right (fun y hy hle => ?_) fun y hy => (hc.flip_le t y.key).mpr (hss y hy)
    have h₁ := hqs y hy
    have h₂ := (hc.flip_le t y.key).mp hle
    omega
  have hsorted : (ss.map Entry.key).Pairwise (cmp · · < 0) :=
    List.pairwise_map.mpr (List.pairwise_append.mp hs).2.1
  rw [hset, least_of_sorted hc hsorted, List.head?_map]

/-- What a safe reader has returned. -/
theorem Safe.sound {m : Nat} {c : Config Key} (hc : IsStrict cmp)
    (hs : Increasing cmp (as ++ e :: bs)) (hpos : ∀ y ∈ as ++ e :: bs, 0 < y.height)
    (hv : Visible c.list as e bs i) (h : Safe cmp t as e bs hd i m c.reader) :
    Sound cmp (keySet (as ++ bs)) e.key t c := by
  have hold : Increasing cmp (as ++ bs) :=
    List.Pairwise.sublist (List.Sublist.append_left (List.sublist_cons_self e bs) as) hs
  obtain ⟨l, w, r⟩ := c
  cases h with
  | start _ => exact ⟨rfl, fun r hr => (nomatch hr), fun r hr => (nomatch hr)⟩
  | loop _ _ => exact ⟨rfl, fun r hr => (nomatch hr), fun r hr => (nomatch hr)⟩
  | @done o x hmem h =>
      have hkey : ∀ y ∈ o, l.key y.ptr = .ok y.key := fun y hy =>
        hv.key_eq 0 y (Levels.mem_level.mpr
          ⟨hmem y hy, hpos y (woven_sublist.subset (hmem y hy))⟩)
      have hleast : o.map Entry.key = least cmp {x ∈ keySet (as ++ bs) | cmp t x ≤ 0} ∨
          o.map Entry.key = least cmp {x ∈ Set.insert e.key (keySet (as ++ bs)) | cmp t x ≤ 0} := by
        rw [← keySet_insert]
        exact h.imp (Finds.least hc hold) (Finds.least hc hs)
      refine ⟨rfl, fun r hr => ?_, fun r hr ht => ?_⟩
      · obtain rfl : o.map Entry.ptr = r := Option.some.inj hr
        exact ⟨_, position_option hkey, hleast⟩
      · obtain rfl : o.map Entry.ptr = r := Option.some.inj hr
        have hself : o.map Entry.key = some t := by
          rcases hleast with h | h
          · rw [h, least_not_before hc ht]
          · have ht' : t ∈ Set.insert e.key (keySet (as ++ bs)) := .inr ht
            rw [h, least_not_before hc ht']
        obtain ⟨y, rfl, rfl⟩ := Option.map_eq_some_iff.mp hself
        simp [isAt, hkey y rfl, Compare.ofInt, hc.self]

theorem Safe.returned {r : Reader} (h : Safe cmp t as e bs hd i 0 r) : r.result.isSome := by
  cases h with
  | start hm => omega
  | loop _ hm => omega
  | done _ _ => rfl

/-- An exposed reader has a schedule on which it loads a slot too early. -/
theorem SafeRead.shielded {k : Key} {h : Nat} {S : Set Key} {c : Config Key} (hc : IsPreorder cmp)
    (hstart : Config.start (.ofInt cmp) k h l = .ok c) (hreader : c.reader = ⟨.start, false⟩)
    (hpc : c.writer.pc = .raise) (hp : Phase as ⟨x, k, h⟩ bs c.list c.writer h)
    (hs : Increasing cmp (as ++ ⟨x, k, h⟩ :: bs)) (h₁ : 1 ≤ h) (hle : h ≤ kMaxHeight)
    (hsafe : SafeRead cmp S l k h t) : Shielded cmp t as ⟨x, k, h⟩ bs := by
  obtain ⟨c', hc', hruns⟩ := hsafe
  obtain rfl : c = c' := Except.ok.inj (hstart.symm.trans hc')
  by_contra hns
  obtain ⟨hne, hpos, hlow⟩ : h ≠ 1 ∧ ¬ cmp t k ≤ 0 ∧
      ∀ q ∈ as ++ bs, cmp k q.key < 0 → cmp q.key t < 0 → q.height < h := by
    simpa [Shielded, not_or] using hns
  have hk : cmp k t < 0 := (hc.flip k t).mpr (Int.not_le.mp hpos)
  obtain ⟨sched, c₁, hrun, hearly⟩ :=
    early_of_exposed hc hs hle (show 2 ≤ h by omega) hk hlow hp hpc hreader
  obtain ⟨c₂, hrun', hsound, -⟩ := hruns sched
  obtain rfl : c₁ = c₂ := Except.ok.inj (hrun.symm.trans hrun')
  rw [hsound.stored] at hearly
  cases hearly

/-- A shielded reader is safe from its start. -/
theorem Shielded.safeRead {k : Key} {h : Nat} {c : Config Key} (hc : IsStrict cmp)
    (hl : Sorted cmp l (as ++ bs)) (hstart : Config.start (.ofInt cmp) k h l = .ok c)
    (hreader : c.reader = ⟨.start, false⟩) (hp : Phase as ⟨x, k, h⟩ bs c.list c.writer h)
    (hs : Increasing cmp (as ++ ⟨x, k, h⟩ :: bs)) (h₁ : 1 ≤ h) (hle : h ≤ kMaxHeight)
    (hsh : Shielded cmp t as ⟨x, k, h⟩ bs) : SafeRead cmp (keySet (as ++ bs)) l k h t := by
  have hpos : ∀ y ∈ as ++ (⟨x, k, h⟩ : Entry Key) :: bs, 0 < y.height := by
    intro y hy
    rcases mem_insert.mp hy with rfl | hy
    · exact h₁
    · exact hl.height_pos y hy
  have hlen := hl.length_lt
  have hbegin : Safe cmp t as ⟨x, k, h⟩ bs c.list.head_ h (kMaxHeight + l.nodes.length + 1)
      c.reader := by
    rw [hreader]
    refine .start ?_
    simp only [List.length_append, List.length_cons] at *
    omega
  refine ⟨c, hstart, fun sched => ?_⟩
  obtain ⟨c', i, hrun, hp', hr'⟩ :=
    Safe.run hc.toIsPreorder hs hpos hle hsh sched c h _ hp hbegin
  refine ⟨c', hrun, hr'.sound hc hs hpos hp'.visible, fun hm => ?_⟩
  rw [Nat.sub_eq_zero_of_le hm] at hr'
  exact hr'.returned

/-- Whether a reader is shielded, in terms of the insertions. -/
theorem shielded_iff {kvs : List (Key × Nat)} {k : Key} {h : Nat}
    (hperm : ((as ++ bs).map Entry.kv).Perm kvs) :
    Shielded cmp t as ⟨x, k, h⟩ bs ↔
      h = 1 ∨ cmp t k ≤ 0 ∨ ∃ kv ∈ kvs, cmp k kv.1 < 0 ∧ cmp kv.1 t < 0 ∧ h ≤ kv.2 := by
  have hex : (∃ q ∈ as ++ bs, cmp k q.key < 0 ∧ cmp q.key t < 0 ∧ h ≤ q.height) ↔
      ∃ kv ∈ kvs, cmp k kv.1 < 0 ∧ cmp kv.1 t < 0 ∧ h ≤ kv.2 := by
    constructor
    · rintro ⟨q, hq, h₁, h₂, h₃⟩
      exact ⟨q.kv, hperm.mem_iff.mp (List.mem_map_of_mem hq), h₁, h₂, h₃⟩
    · rintro ⟨kv, hkv, h₁, h₂, h₃⟩
      obtain ⟨q, hq, rfl⟩ := List.mem_map.mp (hperm.mem_iff.mpr hkv)
      exact ⟨q, hq, h₁, h₂, h₃⟩
  rw [Shielded, hex]

theorem keySet_inserted {kvs : List (Key × Nat)} (hperm : (es.map Entry.kv).Perm kvs) :
    keySet es = {x | x ∈ kvs.map Prod.fst} := by
  ext x
  rw [keySet, Set.mem_ofPred_eq, Set.mem_ofPred_eq, ← (hperm.map Prod.fst).mem_iff, List.map_map]
  rfl

/-- **A reader during an insertion.**  The insertion of `k` at height `h` is safe for a reader of
`t` if and only if the reader does not go down from the new node: it is on one level, it is not
before `t`, or a key between the two is as high. -/
theorem read_during_insert (cmp : Key → Key → Int) (hc : IsStrict cmp) (kvs : List (Key × Nat))
    (hnd : (kvs.map Prod.fst).Nodup) (hh : HeightsInRange kvs) (k : Key)
    (hk : k ∉ kvs.map Prod.fst) (h : Nat) (h₁ : 1 ≤ h) (hle : h ≤ kMaxHeight) (t : Key) :
    ∃ l, build (.ofInt cmp) kvs = .ok l ∧
      (SafeRead cmp {x | x ∈ kvs.map Prod.fst} l k h t ↔
        h = 1 ∨ cmp t k ≤ 0 ∨ ∃ kv ∈ kvs, cmp k kv.1 < 0 ∧ cmp kv.1 t < 0 ∧ h ≤ kv.2) := by
  obtain ⟨l, es, hrun, hl, hperm⟩ := build_sorted hc hnd hh
  have hset := keySet_inserted hperm
  have hab : ∀ e ∈ es, cmp e.key k ≠ 0 := fun e he h0 => by
    have hmem : e.key ∈ keySet es := List.mem_map_of_mem he
    rw [hset, hc.eq_of_tie _ _ h0] at hmem
    exact hk hmem
  obtain ⟨as, bs, c, rfl, hstart, rfl, hreader, hpc, hp, hinc⟩ :=
    start_phase hc.toIsPreorder (h := h) hl hab
  refine ⟨c.list, hrun, ?_⟩
  rw [← shielded_iff hperm, ← hset]
  exact ⟨fun hsafe => hsafe.shielded hc.toIsPreorder hstart hreader hpc hp hinc h₁ hle,
    fun hsh => hsh.safeRead hc hl hstart hreader hp hinc h₁ hle⟩

theorem read_during_insert_shielded :
    ∃ l, build (.ofInt ofLT) [((30 : Nat), 3), (10, 1)] = .ok l ∧
      (SafeRead ofLT {x | x ∈ [((30 : Nat), 3), (10, 1)].map Prod.fst} l 20 3 40 ↔
        3 = 1 ∨ ofLT 40 20 ≤ 0 ∨ ∃ kv ∈ [((30 : Nat), 3), (10, 1)],
          ofLT 20 kv.1 < 0 ∧ ofLT kv.1 40 < 0 ∧ 3 ≤ kv.2) :=
  read_during_insert ofLT isStrict_ofLT _ (by decide) (by decide) 20 (by decide) 3 (by decide)
    (by decide) 40

/-- A reader of 10, which is in the list, during the insertion of 5 at height 2: it goes down from
the new node on level 1, loads the `NULL` of its constructor on level 0, and does not find 10. -/
theorem read_during_insert_misses :
    ∃ l c₀ c, build (.ofInt ofLT) [((10 : Nat), 1)] = .ok l ∧
      Config.start (.ofInt ofLT) 5 2 l = .ok c₀ ∧
      Config.run (.ofInt ofLT) 10 [.writer, .writer, .writer, .writer, .reader, .reader, .reader,
        .reader] c₀ = .ok c ∧
      c.reader.early = true ∧ c.reader.result = some none ∧
      c.list.isAt (.ofInt ofLT) 10 none = .ok false ∧ ¬ SafeRead ofLT {10} l 5 2 10 := by
  refine ⟨_, _, _, rfl, rfl, rfl, rfl, rfl, rfl, ?_⟩
  rintro ⟨c₀, hstart, hsafe⟩
  cases hstart
  obtain ⟨c, hrun, hsound, -⟩ := hsafe [.writer, .writer, .writer, .writer, .reader, .reader,
    .reader, .reader]
  cases hrun
  exact Bool.noConfusion (show true = false from hsound.stored)

end Leveldb.SkipList
