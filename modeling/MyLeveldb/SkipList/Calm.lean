import MyLeveldb.SkipList.Linearization

/-!
# SkipList — Calm

When a shared list is safe whatever the schedule is.  `Calm` asks of every insertion that it is
shielded from every target of every reader, by a key inserted before it.  Where it is not, the
schedule that shows it lets the writer make the insertions before, the reader its searches before,
the writer link the new node on its highest level, and then the reader go down from it.

* `searches_calm`: no search of a calm list loads a slot too early, and every one returns.
* `calm_iff`: and only a calm list is safe on every schedule.
-/

namespace Leveldb.SkipList

open Levels (level)
open ThreeWay

variable {Key R : Type} {cmp : Key → Key → Int} {l l' : SkipList Key} {w w' : Writer Key}
  {es : List (Entry Key)} {lv : Nat → List (Entry Key)} {inserted : List Key} {f : Find Key}
  {safe : Prop} {kvs done : List (Key × Nat)} {targets : R → List Key} {s s' s₁ : Shared Key R}

/-- A search has loaded a slot that had not been stored to. -/
def Shared.Early (s : Shared Key R) : Prop :=
  (∃ a ∈ s.answers, a.find.reader.early = true) ∨
    ∃ r, ∃ f ∈ (s.clients r).find, f.reader.early = true

/-! ### A calm list -/

theorem Reads.stored {hd : NodePtr} (h : Reads cmp safe es lv hd inserted f) (hsafe : safe)
    (hlen : es.length ≤ inserted.length + 1) :
    f.reader.early = false ∧ f.loads ≤ kMaxHeight + inserted.length + 2 := by
  cases h with
  | start hr hm => exact ⟨congrArg Reader.early hr, by omega⟩
  | loop o hr h hs hm => exact ⟨(congrArg Reader.early hr).trans (hs hsafe).1, by omega⟩
  | done hr hs h hm => exact ⟨(congrArg Reader.early hr).trans (hs hsafe), by omega⟩
  | lost hr hs => exact absurd hsafe hs

theorem Shared.Inv.not_early (h : s.Inv cmp kvs targets es lv done) (hcalm : Calm cmp kvs targets) :
    ¬ s.Early := by
  rintro (⟨a, ha, hearly⟩ | ⟨r, f, hf, hearly⟩)
  · rw [(h.answers a ha).stored hcalm] at hearly
    exact Bool.noConfusion hearly
  · rw [(((h.clients r).reads f hf).stored hcalm h.length_le).1] at hearly
    exact Bool.noConfusion hearly

theorem Reader.step_returned {r : Reader} {node : Option NodePtr} (compare_ : Compare Key)
    (l : SkipList Key) (t : Key) (h : r.result = some node) : r.step compare_ l t = .ok r := by
  obtain ⟨pc, b⟩ := r
  cases pc with
  | loop n x nx =>
      cases n with
      | zero => rfl
      | succ n => cases h
  | start => cases h
  | lost => cases h

theorem Writer.step_pc (h : w.step l = .ok (l', w')) : w'.pc = w.pc.succ w.h ∧ w'.kv = w.kv := by
  cases hpc : w.pc with
  | raise | create =>
      simp only [Writer.step, hpc] at h
      cases h
      exact ⟨rfl, rfl⟩
  | storeNode i =>
      simp only [Writer.step, hpc] at h
      obtain ⟨_, -, h⟩ := bind_eq_ok.1 h
      obtain ⟨_, -, h⟩ := bind_eq_ok.1 h
      obtain ⟨_, -, h⟩ := bind_eq_ok.1 h
      cases h
      exact ⟨rfl, rfl⟩
  | storePrev i =>
      simp only [Writer.step, hpc] at h
      obtain ⟨_, -, h⟩ := bind_eq_ok.1 h
      obtain ⟨_, -, h⟩ := bind_eq_ok.1 h
      cases h
      exact ⟨rfl, rfl⟩
  | finished =>
      simp only [Writer.step, hpc] at h
      cases h
      exact ⟨hpc, rfl⟩

theorem Writing.ends (h : Writing cmp l (some w) es lv) : ∃ n l' w', w.pc ≠ .finished ∧
    Writer.steps n l w = .ok (l', w') ∧ w'.pc = .finished := by
  cases h with
  | busy hp hi hrun hend hl =>
      exact ⟨_, _, _, fun hpc => absurd (hp.done hpc).1 (Nat.ne_of_gt hi), hrun, hend⟩

/-- The new node is linked on its highest level, and its other slots are not stored to. -/
theorem Writing.at_top {m : Nat} (h : Writing cmp l (some w) es lv) (hpc : w.pc = .loop (m + 1)) :
    ∃ as e bs, Linking l as e bs (m + 1) ∧ Unstored l e.ptr (m + 1) ∧ e.kv = w.kv ∧
      Increasing cmp (as ++ e :: bs) ∧ lv 0 = as ++ bs := by
  cases h with
  | @busy l' w w' as bs e i n hp hi hrun hend hl =>
      obtain ⟨rfl, hlink, hu⟩ := hp.at_loop hpc
      refine ⟨as, e, bs, hlink, hu, hp.kv_eq.symm, hl.sorted, ?_⟩
      show level Entry.height 0 (woven as e bs (m + 1) 0) = as ++ bs
      rw [level_woven_pos (Nat.succ_pos m),
        Levels.level_eq_self fun y hy => hl.height_pos y (mem_insert.2 (.inr hy))]

/-! ### Reaching a state -/

variable [DecidableEq R]

namespace Shared

/-- Some schedule leads from `s` to `s'`. -/
def Reaches (cmp : Key → Key → Int) (s s' : Shared Key R) : Prop :=
  ∃ sched : List (Turn R), sched.foldlM (step (.ofInt cmp)) s = .ok s'

theorem Reaches.refl (s : Shared Key R) : Reaches cmp s s := ⟨[], rfl⟩

theorem Reaches.cons {i : Turn R} (h : s.step (.ofInt cmp) i = .ok s₁) (h' : Reaches cmp s₁ s') :
    Reaches cmp s s' := by
  obtain ⟨sched, hrun⟩ := h'
  refine ⟨i :: sched, ?_⟩
  rw [List.foldlM_cons, h]
  exact hrun

theorem Reaches.trans (h : Reaches cmp s s₁) (h' : Reaches cmp s₁ s') : Reaches cmp s s' := by
  obtain ⟨sched, hrun⟩ := h
  obtain ⟨sched', hrun'⟩ := h'
  refine ⟨sched ++ sched', ?_⟩
  rw [List.foldlM_append, hrun]
  exact hrun'

theorem Reaches.inv (hc : IsStrict cmp) (hnd : (kvs.map Prod.fst).Nodup) (hh : HeightsInRange kvs)
    (h : Reaches cmp s s') (hs : ∃ es lv done, s.Inv cmp kvs targets es lv done) :
    ∃ es lv done, s'.Inv cmp kvs targets es lv done := by
  obtain ⟨sched, hrun⟩ := h
  obtain ⟨s₂, hrun', hs₂⟩ := Runs.foldlM_keeps (Inv.step hc hnd hh) sched s hs
  obtain rfl : s' = s₂ := Except.ok.inj (hrun.symm.trans hrun')
  exact hs₂

/-! ### The writer alone -/

/-- The readers are where they were. -/
structure SameReaders (s s' : Shared Key R) : Prop where
  clients : s'.clients = s.clients
  answers : s'.answers = s.answers

/-- The writer ends the insertion it is at. -/
theorem finishes : ∀ (n : Nat) {s : Shared Key R} {w w' : Writer Key} {l' : SkipList Key},
    s.writer = some w → w.pc ≠ .finished → Writer.steps n s.list w = .ok (l', w') →
      w'.pc = .finished → ∃ s', Reaches cmp s s' ∧ s'.writer = none ∧ s'.todo = s.todo ∧
        SameReaders s s'
  | 0, _, _, _, _, _, hpc, hrun, hend => by
      cases hrun
      exact absurd hend hpc
  | n + 1, s, w, w', l', hw, hpc, hrun, hend => by
      obtain ⟨⟨l₁, w₁⟩, hstep, hrest⟩ := bind_eq_ok.1 hrun
      by_cases hfin : w₁.pc = .finished
      · refine ⟨{ s with list := l₁, writer := none, inserted := s.inserted ++ [w.key] },
          .cons (i := .writer) ?_ (.refl _), rfl, rfl, rfl, rfl⟩
        simp only [step, writerStep, hw, hstep, ok_bind, hfin, if_true]
      · obtain ⟨s', hreach, hnone, htodo, hsame⟩ :=
          finishes (s := { s with list := l₁, writer := some w₁ }) n rfl hfin hrest hend
        refine ⟨s', .cons (i := .writer) ?_ hreach, hnone, htodo, hsame.clients, hsame.answers⟩
        simp only [step, writerStep, hw, hstep, ok_bind, hfin, if_false]

/-- The writer begins its next insertion. -/
theorem Inv.begins (hc : IsStrict cmp) (hnd : (kvs.map Prod.fst).Nodup) (hh : HeightsInRange kvs)
    (h : s.Inv cmp kvs targets es lv done) (hw : s.writer = none) {k : Key} {n : Nat}
    {todo : List (Key × Nat)} (htodo : s.todo = (k, n) :: todo) :
    ∃ w, s.step (.ofInt cmp) .writer = .ok { s with writer := some w, todo := todo } ∧
      w.pc = .raise ∧ w.kv = (k, n) := by
  obtain ⟨s₁, -, -, -, hstep, -⟩ := h.writerStep hc hnd hh
  have hrun := hstep
  simp only [Shared.writerStep, hw, htodo] at hrun
  obtain ⟨c, hstart, hs₁⟩ := bind_eq_ok.1 hrun
  refine ⟨c.writer, hstep.trans hs₁.symm, ?_⟩
  obtain ⟨⟨node, prev⟩, -, hrest⟩ := bind_eq_ok.1 hstart
  obtain ⟨_, -, hrest⟩ := bind_eq_ok.1 hrest
  cases hrest
  exact ⟨rfl, rfl⟩

/-- The writer makes the insertions `done'`, with no reader in between. -/
theorem inserts (hc : IsStrict cmp) (hnd : (kvs.map Prod.fst).Nodup) (hh : HeightsInRange kvs) :
    ∀ (done' : List (Key × Nat)) {todo : List (Key × Nat)} {s : Shared Key R},
      (∃ es lv done, s.Inv cmp kvs targets es lv done) → s.writer = none →
      s.todo = done' ++ todo → ∃ s', Reaches cmp s s' ∧ s'.writer = none ∧ s'.todo = todo ∧
        SameReaders s s'
  | [], _, s, _, hw, htodo => ⟨s, .refl s, hw, htodo, rfl, rfl⟩
  | (k, n) :: done', todo, s, hs, hw, htodo => by
      obtain ⟨es, lv, done, h⟩ := hs
      obtain ⟨w, hstep, -, -⟩ := h.begins hc hnd hh hw htodo
      have hreach₁ : Reaches cmp s { s with writer := some w, todo := done' ++ todo } :=
        .cons hstep (.refl _)
      obtain ⟨es₁, lv₁, done₁, h₁⟩ := hreach₁.inv hc hnd hh ⟨es, lv, done, h⟩
      have hwriting := h₁.writing
      obtain ⟨m, l', w', hpc, hrun, hend⟩ := hwriting.ends
      obtain ⟨s₂, hreach₂, hnone, htodo₂, hsame₂⟩ :=
        finishes (s := { s with writer := some w, todo := done' ++ todo }) m rfl hpc hrun hend
      have hs₂ := (hreach₁.trans hreach₂).inv hc hnd hh ⟨es, lv, done, h⟩
      obtain ⟨s₃, hreach₃, hnone₃, htodo₃, hsame₃⟩ := inserts hc hnd hh done' hs₂ hnone htodo₂
      exact ⟨s₃, hreach₁.trans (hreach₂.trans hreach₃), hnone₃, htodo₃,
        hsame₃.clients.trans hsame₂.clients, hsame₃.answers.trans hsame₂.answers⟩

/-- The writer makes a store that is not its last. -/
theorem Inv.stores (hc : IsStrict cmp) (hnd : (kvs.map Prod.fst).Nodup) (hh : HeightsInRange kvs)
    (h : s.Inv cmp kvs targets es lv done) (hw : s.writer = some w)
    (hpc : w.pc.succ w.h ≠ .finished) :
    ∃ s' w', s.step (.ofInt cmp) .writer = .ok s' ∧ s'.writer = some w' ∧
      w'.pc = w.pc.succ w.h ∧ w'.kv = w.kv ∧ s'.todo = s.todo ∧ SameReaders s s' := by
  obtain ⟨s', -, -, -, hstep, -⟩ := h.writerStep hc hnd hh
  have hrun := hstep
  simp only [Shared.writerStep, hw] at hrun
  obtain ⟨⟨l₁, w₁⟩, hstore, hrest⟩ := bind_eq_ok.1 hrun
  obtain ⟨hpc₁, hkv₁⟩ := Writer.step_pc hstore
  rw [if_neg (hpc₁ ▸ hpc)] at hrest
  cases hrest
  exact ⟨_, w₁, hstep, rfl, hpc₁, hkv₁, rfl, rfl, rfl⟩

/-- `n` of them, one after the other. -/
theorem Inv.stores_all (hc : IsStrict cmp) (hnd : (kvs.map Prod.fst).Nodup)
    (hh : HeightsInRange kvs) :
    ∀ (n : Nat) {s : Shared Key R} {w : Writer Key},
      (∃ es lv done, s.Inv cmp kvs targets es lv done) → s.writer = some w →
      (∀ i, i < n → (WriterPc.succ w.h)^[i + 1] w.pc ≠ .finished) →
      ∃ s' w', Reaches cmp s s' ∧ s'.writer = some w' ∧ w'.pc = (WriterPc.succ w.h)^[n] w.pc ∧
        w'.kv = w.kv ∧ s'.todo = s.todo ∧ SameReaders s s'
  | 0, s, w, _, hw, _ => ⟨s, w, .refl s, hw, rfl, rfl, rfl, rfl, rfl⟩
  | n + 1, s, w, ⟨es, lv, done, h⟩, hw, hpc => by
      obtain ⟨s₁, w₁, hstep, hw₁, hpc₁, hkv₁, htodo₁, hsame₁⟩ :=
        h.stores hc hnd hh hw (hpc 0 (Nat.succ_pos n))
      have hreach₁ : Reaches cmp s s₁ := .cons hstep (.refl _)
      have hheight : w₁.h = w.h := congrArg Prod.snd hkv₁
      obtain ⟨s', w', hreach, hw', hpc', hkv', htodo, hsame⟩ :=
        stores_all hc hnd hh n (hreach₁.inv hc hnd hh ⟨es, lv, done, h⟩) hw₁ fun i hi => by
          rw [hheight, hpc₁, ← Function.iterate_succ_apply]
          exact hpc (i + 1) (Nat.succ_lt_succ hi)
      refine ⟨s', w', hreach₁.trans hreach, hw', ?_, hkv'.trans hkv₁, htodo.trans htodo₁,
        hsame.clients.trans hsame₁.clients, hsame.answers.trans hsame₁.answers⟩
      rw [hpc', hheight, hpc₁, Function.iterate_succ_apply]

/-- The writer begins an insertion and links the new node on its highest level. -/
theorem links_top (hc : IsStrict cmp) (hnd : (kvs.map Prod.fst).Nodup) (hh : HeightsInRange kvs)
    (hs : ∃ es lv done, s.Inv cmp kvs targets es lv done) (hw : s.writer = none) {k : Key} {m : Nat}
    {todo : List (Key × Nat)} (htodo : s.todo = (k, m + 2) :: todo) :
    ∃ s' w, Reaches cmp s s' ∧ s'.writer = some w ∧ w.pc = .loop (m + 1) ∧ w.kv = (k, m + 2) ∧
      s'.todo = todo ∧ SameReaders s s' := by
  obtain ⟨es, lv, done, h⟩ := hs
  obtain ⟨w, hstep, hpc, hkv⟩ := h.begins hc hnd hh hw htodo
  have hheight : w.h = m + 2 := congrArg Prod.snd hkv
  have hreach₁ : Reaches cmp s { s with writer := some w, todo := todo } := .cons hstep (.refl _)
  obtain ⟨s', w', hreach, hw', hpc', hkv', htodo', hsame⟩ :=
    Inv.stores_all hc hnd hh 4 (hreach₁.inv hc hnd hh ⟨es, lv, done, h⟩) rfl fun i hi => by
      rw [hpc, hheight]
      -- it has created the node, and stored to it and to the node before it
      rcases i with _ | _ | _ | _ | i
      · exact fun h => WriterPc.noConfusion h
      · exact fun h => WriterPc.noConfusion h
      · exact fun h => WriterPc.noConfusion h
      · exact fun h => WriterPc.noConfusion h
      · omega
  refine ⟨s', w', hreach₁.trans hreach, hw', ?_, hkv'.trans hkv, htodo', hsame.clients,
    hsame.answers⟩
  rw [hpc', hpc, hheight]
  rfl

/-! ### A reader alone -/

/-- The writer is where it was. -/
structure SameWriter (s s' : Shared Key R) : Prop where
  list : s'.list = s.list
  writer : s'.writer = s.writer
  todo : s'.todo = s.todo

/-- Left to itself, a reader ends the search it is at, if it does not load a slot too early. -/
theorem Inv.search_ends (hc : IsStrict cmp) {r : R} {todo : List Key} : ∀ (m : Nat)
    {s : Shared Key R} {f : Find Key}, s.Inv cmp kvs targets es lv done →
      s.clients r = { todo := todo, find := some f } → kMaxHeight + es.length + 2 ≤ f.loads + m →
      ∃ s', Reaches cmp s s' ∧ SameWriter s s' ∧
        (s'.Early ∨ s'.clients r = { todo := todo, find := none })
  | m, s, f, h, hcl, hm => by
      obtain ⟨s₁, hstep, h₁, -⟩ := h.readerStep hc r
      have hrun := hstep
      cases hearly : f.reader.early with
      | true => exact ⟨s, .refl s, ⟨rfl, rfl, rfl⟩, .inl (.inr ⟨r, f, by simp [hcl], hearly⟩)⟩
      | false =>
          have hloads := ((h.clients r).reads f (by simp [hcl])).loads_le hearly
          cases hres : f.reader.result with
          | some node =>
              simp only [Shared.readerStep, hcl, hres] at hrun
              cases hrun
              exact ⟨_, .cons (i := .reader r) hstep (.refl _), ⟨rfl, rfl, rfl⟩,
                .inr (Function.update_self r _ _)⟩
          | none =>
              simp only [Shared.readerStep, hcl, hres] at hrun
              obtain ⟨reader, -, hrun⟩ := bind_eq_ok.1 hrun
              cases hrun
              cases m with
              | zero => omega
              | succ m =>
                  obtain ⟨s', hreach, hsame, hcase⟩ := h₁.search_ends hc m
                    (Function.update_self r _ _) (by show _ ≤ f.loads + 1 + m; omega)
                  exact ⟨s', .cons (i := .reader r) hstep hreach,
                    ⟨hsame.list, hsame.writer, hsame.todo⟩, hcase⟩

/-- A reader begins its next search. -/
theorem Inv.searches (hc : IsStrict cmp) (h : s.Inv cmp kvs targets es lv done) {r : R} {t : Key}
    {todo : List Key} (hcl : s.clients r = { todo := t :: todo, find := none }) : ∃ f,
    s.step (.ofInt cmp) (.reader r) = .ok (s.put r { todo := todo, find := some f }) ∧
      (s.put r { todo := todo, find := some f }).Inv cmp kvs targets es lv done ∧
      f.target = t ∧ f.reader = ⟨.start, false⟩ := by
  obtain ⟨s₁, hstep, h₁, -⟩ := h.readerStep hc r
  have hrun := hstep
  simp only [Shared.readerStep, hcl] at hrun
  cases hrun
  exact ⟨_, hstep, h₁, rfl, rfl⟩

/-- The searches for `ts`, with no other thread in between. -/
theorem all_end (hc : IsStrict cmp) (hnd : (kvs.map Prod.fst).Nodup) (hh : HeightsInRange kvs)
    {r : R} {todo : List Key} : ∀ (ts : List Key) {s : Shared Key R},
      (∃ es lv done, s.Inv cmp kvs targets es lv done) →
      s.clients r = { todo := ts ++ todo, find := none } →
      ∃ s', Reaches cmp s s' ∧ SameWriter s s' ∧
        (s'.Early ∨ s'.clients r = { todo := todo, find := none })
  | [], s, _, hcl => ⟨s, .refl s, ⟨rfl, rfl, rfl⟩, .inr hcl⟩
  | t :: ts, s, ⟨es, lv, done, h⟩, hcl => by
      obtain ⟨f, hstep, h₁, -, -⟩ := h.searches hc hcl
      obtain ⟨s₂, hreach, hsame, hcase⟩ :=
        h₁.search_ends hc _ (Function.update_self r _ _) (Nat.le_add_left _ _)
      have hreach₂ : Reaches cmp s s₂ := .cons hstep hreach
      have hsame₂ : SameWriter s s₂ := ⟨hsame.list, hsame.writer, hsame.todo⟩
      rcases hcase with hearly | hcl₂
      · exact ⟨s₂, hreach₂, hsame₂, .inl hearly⟩
      · obtain ⟨s₃, hreach₃, hsame₃, hcase₃⟩ :=
          all_end hc hnd hh ts (hreach₂.inv hc hnd hh ⟨es, lv, done, h⟩) hcl₂
        exact ⟨s₃, hreach₂.trans hreach₃, ⟨hsame₃.list.trans hsame₂.list,
          hsame₃.writer.trans hsame₂.writer, hsame₃.todo.trans hsame₂.todo⟩, hcase₃⟩

/-! ### The reader that meets the new node -/

/-- A reader whose loads, on a list nobody writes to, come to a slot too early. -/
theorem meets {r : R} {todo : List Key} {reader' : Reader} (hearly : reader'.early = true) :
    ∀ (n : Nat) {s : Shared Key R} {w : Writer Key} {f : Find Key},
      s.clients r = { todo := todo, find := some f } →
      Config.run (.ofInt cmp) f.target (List.replicate n .reader) ⟨s.list, w, f.reader⟩ =
        .ok ⟨s.list, w, reader'⟩ → ∃ s', Reaches cmp s s' ∧ s'.Early
  | 0, s, w, f, hcl, hrun => by
      cases hrun
      exact ⟨s, .refl s, .inr ⟨r, f, by simp [hcl], hearly⟩⟩
  | n + 1, s, w, f, hcl, hrun => by
      rw [List.replicate_succ, Config.run] at hrun
      obtain ⟨c, hstep, hrun⟩ := bind_eq_ok.1 hrun
      obtain ⟨reader, hload, hc⟩ := bind_eq_ok.1 hstep
      cases hc
      cases hres : f.reader.result with
      | some node =>
          rw [Reader.step_returned _ _ _ hres] at hload
          cases hload
          exact meets hearly n hcl hrun
      | none =>
          let f' : Find Key := { f with reader := reader, loads := f.loads + 1 }
          obtain ⟨s', hreach, hs'⟩ := meets (s := s.put r { todo := todo, find := some f' })
            hearly n (Function.update_self r _ _) hrun
          refine ⟨s', .cons (i := .reader r) ?_ hreach, hs'⟩
          simp only [step, Shared.readerStep, hcl, hres, hload, ok_bind]
          rfl

/-- With the new node linked on its highest level, a reader of a key after it that no key shields
comes to it and goes down from it. -/
theorem Inv.exposed (hc : IsStrict cmp) (h : s.Inv cmp kvs targets es lv done) {m : Nat}
    (hw : s.writer = some w) (hpc : w.pc = .loop (m + 1)) {k t : Key} (hkv : w.kv = (k, m + 2))
    (hkt : cmp k t < 0)
    (hlow : ∀ kv ∈ done, cmp k kv.1 < 0 → cmp kv.1 t < 0 → kv.2 < m + 2) {r : R} {todo : List Key}
    (hcl : s.clients r = { todo := t :: todo, find := none }) :
    ∃ s', Reaches cmp s s' ∧ s'.Early := by
  have hwriting := h.writing
  rw [hw] at hwriting
  obtain ⟨as, e, bs, hlink, hu, hekv, hs, hlv⟩ := hwriting.at_top hpc
  obtain ⟨hek, heh⟩ : e.key = k ∧ e.height = m + 2 := Prod.mk.inj (hekv.trans hkv)
  have hlow' : ∀ q ∈ as ++ bs, cmp e.key q.key < 0 → cmp q.key t < 0 → q.height < e.height := by
    intro q hq hkq hqt
    rw [heh]
    refine hlow q.kv (h.linked.mem_iff.1 (List.mem_map_of_mem ?_)) (hek ▸ hkq) hqt
    rwa [hlv]
  obtain ⟨f, hstep, -, rfl, hf⟩ := h.searches hc hcl
  have hcur : e.height ≤ s.list.curMaxHeight_ := hlink.height_le e (by simp)
  obtain ⟨j, hj⟩ : ∃ j, s.list.curMaxHeight_ = j + 1 := ⟨s.list.curMaxHeight_ - 1, by omega⟩
  have hcurk := hlink.cur_le
  have hstart : Stands cmp f.target as e bs s.list.head_ (m + 1) j none s.list.head_ :=
    ⟨by omega, rfl, by simp⟩
  obtain ⟨n, reader', hrun, hearly⟩ := Stands.early (w := w) hc.toIsPreorder hs hlink.visible hu heh
    (hek ▸ hkt) hlow' _ j none s.list.head_ none hstart (by omega) (Nat.le_refl _)
  -- its first step loads the height
  have hfirst : Config.run (.ofInt cmp) f.target (List.replicate (n + 1) .reader)
      ⟨s.list, w, f.reader⟩ = .ok ⟨s.list, w, reader'⟩ := by
    simp only [List.replicate_succ, Config.run, Config.step, hf, Reader.step, ok_bind, hj]
    exact hrun
  obtain ⟨s', hreach, hs'⟩ := meets (s := s.put r { todo := todo, find := some f }) hearly (n + 1)
    (Function.update_self r _ _) hfirst
  exact ⟨s', .cons hstep hreach, hs'⟩

/-- An insertion that no key shields from a target: the insertions before it, the searches before
that one, the store on its highest level, and the search. -/
theorem reaches_early (hc : IsStrict cmp) (hnd : (kvs.map Prod.fst).Nodup) (hh : HeightsInRange kvs)
    {k t : Key} {m : Nat} {todo : List (Key × Nat)} (hkvs : kvs = done ++ (k, m + 2) :: todo)
    {r : R} (ht : t ∈ targets r) (hkt : cmp k t < 0)
    (hlow : ∀ kv ∈ done, cmp k kv.1 < 0 → cmp kv.1 t < 0 → kv.2 < m + 2) :
    ∃ s₀ s, start kvs targets = .ok s₀ ∧ Reaches cmp s₀ s ∧ s.Early := by
  obtain ⟨ts, ts', hts⟩ := List.append_of_mem ht
  obtain ⟨s₀, lv₀, hstart, hinv₀, hw₀, htodo₀, hcl₀⟩ := start_inv cmp kvs targets
  obtain ⟨s₁, hr₁, hw₁, htodo₁, hsame₁⟩ := inserts hc hnd hh done ⟨_, _, _, hinv₀⟩ hw₀
    (htodo₀.trans hkvs)
  have hcl₁ : s₁.clients r = { todo := ts ++ t :: ts', find := none } := by
    rw [hsame₁.clients, hcl₀ r, hts]
  obtain ⟨s₂, hr₂, hsame₂, hearly | hcl₂⟩ :=
    all_end hc hnd hh ts (hr₁.inv hc hnd hh ⟨_, _, _, hinv₀⟩) hcl₁
  · exact ⟨s₀, s₂, hstart, hr₁.trans hr₂, hearly⟩
  · have hreach₂ := hr₁.trans hr₂
    obtain ⟨s₃, w, hr₃, hw₃, hpc, hkv, htodo₃, hsame₃⟩ :=
      links_top hc hnd hh (hreach₂.inv hc hnd hh ⟨_, _, _, hinv₀⟩)
        (hsame₂.writer.trans hw₁) (hsame₂.todo.trans htodo₁)
    have hreach₃ := hreach₂.trans hr₃
    obtain ⟨es, lv, done', hinv₃⟩ := hreach₃.inv hc hnd hh ⟨_, _, _, hinv₀⟩
    have hdone : done' = done := by
      have heq := hinv₃.kvs_eq
      rw [hw₃, Option.map_some, Option.toList_some, hkv, htodo₃, hkvs] at heq
      exact (List.append_cancel_right heq).symm
    subst hdone
    have hcl₃ : s₃.clients r = { todo := t :: ts', find := none } := by
      rw [hsame₃.clients, hcl₂]
    obtain ⟨s₄, hr₄, hearly⟩ := hinv₃.exposed hc hw₃ hpc hkv hkt hlow hcl₃
    exact ⟨s₀, s₄, hstart, hreach₃.trans hr₄, hearly⟩

end Shared

/-- **Searches of a calm list.**  No search loads a slot too early; every one is right at a moment
between its beginning and its return, and returns within a bound. -/
theorem searches_calm (cmp : Key → Key → Int) (hc : IsStrict cmp) (kvs : List (Key × Nat))
    (hnd : (kvs.map Prod.fst).Nodup) (hh : HeightsInRange kvs) (targets : R → List Key)
    (hcalm : Calm cmp kvs targets) (sched : List (Turn R)) :
    ∃ s, Shared.run (.ofInt cmp) kvs targets sched = .ok s ∧
      (∀ a ∈ s.answers, s.Linearizes cmp a) ∧
      ∀ r, ∀ f ∈ (s.clients r).find, f.reader.early = false ∧
        f.loads ≤ kMaxHeight + s.inserted.length + 2 := by
  obtain ⟨s, es, lv, done, hrun, h⟩ := Shared.run_inv hc hnd hh targets sched
  refine ⟨s, hrun, fun a ha => ?_, fun r f hf => ?_⟩
  · exact h.linearizes hc.toIsPreorder ha ((h.answers a ha).stored hcalm)
  · exact ((h.clients r).reads f hf).stored hcalm h.length_le

theorem calm_two : Calm ofLT [((30 : Nat), 2), (10, 1)] (fun _ : Unit => [20]) := by
  intro done k h todo hkvs r t ht
  have hmem : (k, h) ∈ [((30 : Nat), 2), (10, 1)] :=
    hkvs ▸ List.mem_append_right _ List.mem_cons_self
  obtain rfl := List.mem_singleton.1 ht
  rcases List.mem_pair.1 hmem with heq | heq <;> cases heq
  · exact .inr (.inl (by decide))
  · exact .inl rfl

theorem searches_calm_two :
    ∃ s, Shared.run (.ofInt ofLT) [((30 : Nat), 2), (10, 1)] (fun _ : Unit => [20])
        (List.replicate 12 .writer ++ List.replicate 5 (.reader ())) = .ok s ∧
      (∀ a ∈ s.answers, s.Linearizes ofLT a) ∧
      ∀ r, ∀ f ∈ (s.clients r).find, f.reader.early = false ∧
        f.loads ≤ kMaxHeight + s.inserted.length + 2 :=
  searches_calm ofLT isStrict_ofLT _ (by decide) (by decide) _ calm_two _

/-- **When a shared list is safe.**  No schedule makes a search load a slot too early if and only if
every insertion is shielded from every target by an earlier one. -/
theorem calm_iff (cmp : Key → Key → Int) (hc : IsStrict cmp) (kvs : List (Key × Nat))
    (hnd : (kvs.map Prod.fst).Nodup) (hh : HeightsInRange kvs) (targets : R → List Key) :
    (∀ sched s, Shared.run (.ofInt cmp) kvs targets sched = .ok s → ¬ s.Early) ↔
      Calm cmp kvs targets := by
  constructor
  · intro hsafe done k h todo hkvs r t ht
    by_contra hns
    simp only [not_or, not_exists, not_and, not_le] at hns
    obtain ⟨hne, hkt, hlow⟩ := hns
    obtain ⟨h₁, -⟩ := hh (k, h) (by simp [hkvs])
    obtain ⟨m, rfl⟩ : ∃ m, h = m + 2 := ⟨h - 2, by omega⟩
    obtain ⟨s₀, s, hstart, ⟨sched, hrun⟩, hearly⟩ :=
      Shared.reaches_early hc hnd hh hkvs ht ((hc.flip k t).2 hkt) hlow
    refine hsafe sched s ?_ hearly
    rw [Shared.run, hstart, ok_bind]
    exact hrun
  · intro hcalm sched s hrun
    obtain ⟨s', es, lv, done, hrun', h⟩ := Shared.run_inv hc hnd hh targets sched
    obtain rfl : s = s' := Except.ok.inj (hrun.symm.trans hrun')
    exact h.not_early hcalm

theorem calm_iff_two :
    (∀ sched s,
      Shared.run (.ofInt ofLT) [((10 : Nat), 1), (5, 2)] (fun _ : Unit => [10]) sched = .ok s →
        ¬ s.Early) ↔ Calm ofLT [((10 : Nat), 1), (5, 2)] (fun _ : Unit => [10]) :=
  calm_iff ofLT isStrict_ofLT _ (by decide) (by decide) _

end Leveldb.SkipList
