import MyLeveldb.SkipList.Sharing

/-!
# SkipList — Linearization

Every search of a shared list that has loaded stored slots only takes effect at one moment between
its beginning and its return: what it returns is the least key not before its target of those that
were inserted at that moment.  The moment is its last load, and an insertion takes effect with its
store on level 0.

* `Reads.step`: what a step of a reader keeps, and `Reads.mono`: what a step of the writer does.
* `searches_linearize`: over every run.

The invariant of a run also keeps what `SkipList — Calm` needs: a search that is `safe` stands on a
node that is linked on its level.
-/

namespace Leveldb.SkipList

open Levels (level)
open ThreeWay

variable {Key R : Type} {cmp : Key → Key → Int} {l l' : SkipList Key}
  {es es' : List (Entry Key)} {lv lv' : Nat → List (Entry Key)} {t : Key} {hd : NodePtr}
  {inserted inserted' : List Key} {f : Find Key} {safe : Prop}

/-- The search has returned what is right at a moment from `since` to `till`, in keys inserted. -/
def Found (cmp : Key → Key → Int) (es : List (Entry Key)) (inserted : List Key) (since till : Nat)
    (t : Key) (node : Option NodePtr) : Prop :=
  ∃ o n, node = Option.map Entry.ptr o ∧ (∀ y ∈ o, y ∈ es) ∧ since ≤ n ∧ n ≤ till ∧
    o.map Entry.key = least cmp {k | k ∈ inserted.take n ∧ cmp t k ≤ 0}

theorem Found.mono {since till till' : Nat} {node : Option NodePtr}
    (h : Found cmp es inserted since till t node) (hsub : es ⊆ es') (hpre : inserted <+: inserted')
    (hle : till ≤ inserted.length) (htill : till ≤ till') :
    Found cmp es' inserted' since till' t node := by
  obtain ⟨o, n, hnode, hes, hsince, hn, hkey⟩ := h
  obtain ⟨more, rfl⟩ := hpre
  refine ⟨o, n, hnode, fun y hy => hsub (hes y hy), hsince, hn.trans htill, ?_⟩
  rw [List.take_append_of_le_length (hn.trans hle)]
  exact hkey

/-- A search under way, in a list whose nodes are those of `es`.  Where it is `safe`, it has loaded
no slot too early, and stands on a node that is linked on its level. -/
inductive Reads (cmp : Key → Key → Int) (safe : Prop) (es : List (Entry Key))
    (lv : Nat → List (Entry Key)) (hd : NodePtr) (inserted : List Key) (f : Find Key) : Prop where
  | start (hr : f.reader = ⟨.start, false⟩) (hm : f.loads = 0)
  | loop {j : Nat} {x : NodePtr} {nx : Option NodePtr} {b : Bool} (o : Option (Entry Key))
      (hr : f.reader = ⟨.loop (j + 1) x nx, b⟩) (h : Standing cmp f.target es hd j o x)
      (hsafe : safe → b = false ∧ ∀ y ∈ o, y ∈ lv j)
      (hm : f.loads + (j + 1) + above cmp (es.map Entry.key) (o.map Entry.key) ≤
        kMaxHeight + es.length + 1)
  | done {x : NodePtr} {node : Option NodePtr} {b : Bool} (hr : f.reader = ⟨.loop 0 x node, b⟩)
      (hsafe : safe → b = false)
      (h : b = false → Found cmp es inserted f.since inserted.length f.target node)
      (hm : f.loads ≤ kMaxHeight + es.length + 1)
  | lost (hr : f.reader = ⟨.lost, true⟩) (hsafe : ¬ safe)

/-- More nodes, by as many, are above the reader at the most. -/
theorem above_le_of_sublist (hsub : es.Sublist es') (o : Option Key) :
    above cmp (es'.map Entry.key) o + es.length ≤ above cmp (es.map Entry.key) o + es'.length := by
  unfold above
  generalize (fun x => o.all fun a => decide (cmp a x < 0)) = p
  have hes := List.length_eq_countP_add_countP p (l := es.map Entry.key)
  have hes' := List.length_eq_countP_add_countP p (l := es'.map Entry.key)
  have hrest := (hsub.map Entry.key).countP_le (p := fun a => decide ¬ p a)
  rw [List.length_map] at hes hes'
  omega

theorem Reads.mono (h : Reads cmp safe es lv hd inserted f) (hg : Grows es lv es' lv')
    (hpre : inserted <+: inserted') : Reads cmp safe es' lv' hd inserted' f := by
  have hlen := hg.sublist.length_le
  cases h with
  | start hr hm => exact .start hr hm
  | loop o hr h hsafe hm =>
      refine .loop o hr (h.mono hg.sublist.subset) (fun hs => ?_) ?_
      · exact ⟨(hsafe hs).1, fun y hy => hg.levels _ ((hsafe hs).2 y hy)⟩
      · have hrest : above cmp (es'.map Entry.key) (o.map Entry.key) + es.length ≤
            above cmp (es.map Entry.key) (o.map Entry.key) + es'.length :=
          above_le_of_sublist hg.sublist _
        omega
  | done hr hsafe h hm =>
      refine .done hr hsafe (fun hb => ?_) (by omega)
      exact (h hb).mono hg.sublist.subset hpre (Nat.le_refl _) hpre.length_le
  | lost hr hsafe => exact .lost hr hsafe

theorem Reads.loads_le (h : Reads cmp safe es lv hd inserted f)
    (hearly : f.reader.early = false) : f.loads ≤ kMaxHeight + es.length + 1 := by
  cases h with
  | start hr hm => omega
  | loop o hr h hs hm => omega
  | done hr hs h hm => exact hm
  | lost hr hs =>
      rw [hr] at hearly
      cases hearly

/-- What a search finds that makes its last load now. -/
theorem found_now (hc : IsStrict cmp) (hv : View cmp l es lv)
    (hkeys : ((lv 0).map Entry.key).Perm inserted) {since : Nat}
    (hsince : since ≤ inserted.length) :
    Found cmp es inserted since inserted.length t
      ((notBefore cmp t (lv 0)).head?.map Entry.ptr) := by
  have hinc : Increasing cmp (lv 0) := List.Pairwise.sublist (hv.sublist 0) hv.increasing
  refine ⟨(notBefore cmp t (lv 0)).head?, inserted.length, rfl, fun y hy => ?_, hsince,
    Nat.le_refl _, ?_⟩
  · exact (hv.sublist 0).subset (mem_notBefore.1 (List.mem_of_mem_head? hy)).1
  · rw [least_notBefore hc hinc, List.take_length]
    congr 1
    ext k
    simp only [keySet, Set.mem_ofPred_eq, hkeys.mem_iff]

/-- What lies ahead on a level that a search goes down from is not before the target. -/
theorem not_shielded {ys : List (Entry Key)} {o : Option (Entry Key)} {y : Entry Key} (hy : y ∈ o)
    (heq : following cmp o ys = notBefore cmp t ys) :
    ¬ ∃ q ∈ ys, cmp y.key q.key < 0 ∧ cmp q.key t < 0 := by
  rintro ⟨q, hq, hyq, hqt⟩
  have hahead : q ∈ following cmp o ys :=
    mem_following.2 ⟨hq, fun z hz => Option.mem_unique hz hy ▸ hyq⟩
  rw [heq] at hahead
  have hle := (mem_notBefore.1 hahead).2
  omega

/-- A load of a search under way. -/
theorem Reads.step (hc : IsStrict cmp) (hv : View cmp l es lv)
    (hkeys : ((lv 0).map Entry.key).Perm inserted) (hsince : f.since ≤ inserted.length)
    (hcalm : safe → ∀ j, ∀ y ∈ lv (j + 1), y ∉ lv j → cmp y.key f.target < 0 →
      ∃ q ∈ lv (j + 1), cmp y.key q.key < 0 ∧ cmp q.key f.target < 0)
    (h : Reads cmp safe es lv l.head_ inserted f) (hr : f.reader.result = none) :
    ∃ r, f.reader.step (.ofInt cmp) l f.target = .ok r ∧
      Reads cmp safe es lv l.head_ inserted { f with reader := r, loads := f.loads + 1 } := by
  cases h with
  | start hr hm =>
      obtain ⟨j, hj⟩ : ∃ j, l.curMaxHeight_ = j + 1 := ⟨_, (Nat.sub_add_cancel hv.cur_pos).symm⟩
      have hcur := hv.cur_le
      refine ⟨⟨.loop (j + 1) l.head_ none, false⟩, by simp [hr, Reader.step, hj], ?_⟩
      refine .loop none rfl ⟨by omega, rfl, by simp⟩ (fun _ => ⟨rfl, by simp⟩) ?_
      show f.loads + 1 + (j + 1) + above cmp (es.map Entry.key) none ≤ kMaxHeight + es.length + 1
      rw [above_none, List.length_map, hm]
      omega
  | @loop j x nx b o hr h hsafe hm =>
      obtain ⟨r, hstep, hcase⟩ := hv.step hc.toIsPreorder h nx b
      refine ⟨r, by rw [hr]; exact hstep, ?_⟩
      cases hcase with
      | lost hy =>
          obtain ⟨y, hy, hn⟩ := hy
          exact .lost rfl fun hs => hn ((hsafe hs).2 y hy)
      | null hy =>
          have hunsafe : ¬ safe := fun hs => by
            obtain ⟨y, hy, hn⟩ := hy
            exact hn ((hsafe hs).2 y hy)
          cases j with
          | zero =>
              refine .done rfl (fun hs => absurd hs hunsafe) (fun hb => Bool.noConfusion hb) ?_
              show f.loads + 1 ≤ _
              omega
          | succ j =>
              refine .loop o rfl h.down (fun hs => absurd hs hunsafe) ?_
              show f.loads + 1 + (j + 1) + _ ≤ _
              omega
      | right y hy h hlt =>
          refine .loop (some y) rfl h (fun hs => ⟨(hsafe hs).1, fun z hz => ?_⟩) ?_
          · exact Option.mem_some.1 hz ▸ hy
          · show f.loads + 1 + (j + 1) + above cmp (es.map Entry.key) (some y.key) ≤ _
            omega
      | down heq =>
          cases j with
          | zero =>
              refine .done rfl (fun hs => (hsafe hs).1) (fun _ => ?_) ?_
              · exact found_now hc hv hkeys hsince
              · show f.loads + 1 ≤ _
                omega
          | succ j =>
              refine .loop o rfl h.down (fun hs => ⟨(hsafe hs).1, fun y hy => ?_⟩) ?_
              · by_contra hn
                exact not_shielded hy heq (hcalm hs j y ((hsafe hs).2 y hy) hn (h.on y hy).2.2)
              · show f.loads + 1 + (j + 1) + _ ≤ _
                omega
  | done hr' _ _ _ =>
      rw [hr'] at hr
      cases hr
  | lost hr hsafe => exact ⟨⟨.lost, true⟩, by simp [hr, Reader.step], .lost rfl hsafe⟩

/-! ### The invariant -/

/-- Every insertion is shielded from every search: the new node is on one level, or not before the
target, or a key between the two that is inserted earlier is as high. -/
def Calm (cmp : Key → Key → Int) (kvs : List (Key × Nat)) (targets : R → List Key) : Prop :=
  ∀ (done : List (Key × Nat)) (k : Key) (h : Nat) (todo : List (Key × Nat)),
    kvs = done ++ (k, h) :: todo → ∀ r, ∀ t ∈ targets r,
      h = 1 ∨ cmp t k ≤ 0 ∨ ∃ kv ∈ done, cmp k kv.1 < 0 ∧ cmp kv.1 t < 0 ∧ h ≤ kv.2

/-- A search that has returned. -/
structure Right (cmp : Key → Key → Int) (safe : Prop) (es : List (Entry Key)) (inserted : List Key)
    (a : Answer Key) : Prop where
  loads : a.find.loads ≤ kMaxHeight + a.till + 2
  till : a.till ≤ inserted.length
  stored : safe → a.find.reader.early = false
  found : a.find.reader.early = false →
    Found cmp es inserted a.find.since a.till a.find.target a.node

/-- A thread that reads. -/
structure Client.Inv (cmp : Key → Key → Int) (safe : Prop) (es : List (Entry Key))
    (lv : Nat → List (Entry Key)) (hd : NodePtr) (inserted targets : List Key) (c : Client Key) :
    Prop where
  todo : c.todo ⊆ targets
  target : ∀ f ∈ c.find, f.target ∈ targets
  since : ∀ f ∈ c.find, f.since ≤ inserted.length
  reads : ∀ f ∈ c.find, Reads cmp safe es lv hd inserted f

/-- The entries `es` are there, those of `lv j` are linked on level `j`, and the insertions `done`
have been made. -/
structure Shared.Inv (cmp : Key → Key → Int) (kvs : List (Key × Nat)) (targets : R → List Key)
    (es : List (Entry Key)) (lv : Nat → List (Entry Key)) (done : List (Key × Nat))
    (s : Shared Key R) : Prop where
  writing : Writing cmp s.list s.writer es lv
  linked : ((lv 0).map Entry.kv).Perm done
  inserted : s.inserted = done.map Prod.fst
  kvs_eq : kvs = done ++ ((s.writer.map Writer.kv).toList ++ s.todo)
  clients : ∀ r,
    (s.clients r).Inv cmp (Calm cmp kvs targets) es lv s.list.head_ s.inserted (targets r)
  answers : ∀ a ∈ s.answers, Right cmp (Calm cmp kvs targets) es s.inserted a

theorem Reads.right {node : Option NodePtr} (h : Reads cmp safe es lv hd inserted f)
    (hres : f.reader.result = some node) (hlen : es.length ≤ inserted.length + 1) :
    Right cmp safe es inserted { find := f, node := node, till := inserted.length } := by
  cases h with
  | start hr _ =>
      rw [hr] at hres
      cases hres
  | loop o hr _ _ _ =>
      rw [hr] at hres
      cases hres
  | done hr hsafe h hm =>
      rw [hr] at hres
      cases hres
      have hearly : f.reader.early = _ := congrArg Reader.early hr
      refine ⟨?_, Nat.le_refl _, fun hs => hearly.trans (hsafe hs),
        fun hb => h (hearly.symm.trans hb)⟩
      show f.loads ≤ kMaxHeight + inserted.length + 2
      omega
  | lost hr _ =>
      rw [hr] at hres
      cases hres

theorem Right.mono {a : Answer Key} (h : Right cmp safe es inserted a) (hsub : es ⊆ es')
    (hpre : inserted <+: inserted') : Right cmp safe es' inserted' a :=
  ⟨h.loads, h.till.trans hpre.length_le, h.stored, fun hs =>
    (h.found hs).mono hsub hpre h.till (Nat.le_refl _)⟩

theorem Client.Inv.mono {targets : List Key} {c : Client Key}
    (h : c.Inv cmp safe es lv hd inserted targets) (hg : Grows es lv es' lv')
    (hpre : inserted <+: inserted') : c.Inv cmp safe es' lv' hd inserted' targets :=
  ⟨h.todo, h.target, fun f hf => (h.since f hf).trans hpre.length_le,
    fun f hf => (h.reads f hf).mono hg hpre⟩

/-- All nodes but the newest are linked. -/
theorem Writing.length_le {w : Option (Writer Key)} (h : Writing cmp l w es lv) :
    es.length ≤ (lv 0).length + 1 := by
  cases h with
  | idle hl =>
      show es.length ≤ (level Entry.height 0 es).length + 1
      rw [Levels.level_eq_self hl.height_pos]
      exact Nat.le_succ _
  | @busy lf w wf as bs e i n hp hi hrun hend hl =>
      show (entriesAt as e bs w.pc).length ≤ (level Entry.height 0 (woven as e bs i 0)).length + 1
      rw [level_woven_pos hi,
        Levels.level_eq_self fun y hy => hl.height_pos y (mem_insert.2 (.inr hy))]
      cases w.pc <;> simp [entriesAt] <;> omega

theorem Writing.mem_of_idle {y : Entry Key} (h : Writing cmp l none es lv) (hy : y ∈ es) :
    y ∈ lv 0 := by
  cases h with
  | idle hl => exact Levels.mem_level.2 ⟨hy, hl.height_pos y hy⟩

namespace Shared

variable {kvs done : List (Key × Nat)} {targets : R → List Key} {s s' : Shared Key R}

theorem Inv.view (hc : IsPreorder cmp) (h : s.Inv cmp kvs targets es lv done) :
    View cmp s.list es lv := h.writing.view hc

theorem Inv.keys (h : s.Inv cmp kvs targets es lv done) :
    ((lv 0).map Entry.key).Perm s.inserted := by
  have hkeys := h.linked.map Prod.fst
  rw [List.map_map] at hkeys
  exact h.inserted ▸ hkeys

theorem Inv.length_le (h : s.Inv cmp kvs targets es lv done) :
    es.length ≤ s.inserted.length + 1 := by
  have hes := h.writing.length_le
  have hkeys := h.keys.length_eq
  rw [List.length_map] at hkeys
  omega

/-- A calm insertion is shielded where a reader meets it. -/
theorem Inv.calm (hc : IsPreorder cmp) (h : s.Inv cmp kvs targets es lv done) {r : R} {t : Key}
    (ht : t ∈ targets r) (hcalm : Calm cmp kvs targets) (j : Nat) :
    ∀ y ∈ lv (j + 1), y ∉ lv j → cmp y.key t < 0 →
      ∃ q ∈ lv (j + 1), cmp y.key q.key < 0 ∧ cmp q.key t < 0 := by
  intro y hy hn hyt
  obtain ⟨w, hw, hkv, hhigh⟩ := h.writing.half_linked hy hn
  have hlt := (h.view hc).lt_height _ y hy
  have hkvs := h.kvs_eq
  rw [hw, Option.map_some, Option.toList_some, List.singleton_append, ← hkv] at hkvs
  rcases hcalm done y.key y.height s.todo hkvs r t ht with h₁ | hle | ⟨kv, hmem, hyk, hkt, hle⟩
  · omega
  · have := (hc.flip_le t y.key).1 hle
    omega
  · obtain ⟨q, hq, rfl⟩ := List.mem_map.1 (h.linked.mem_iff.2 hmem)
    have hheight : y.height = w.h := congrArg Prod.snd hkv
    exact ⟨q, hhigh q hq (hheight ▸ hle), hyk, hkt⟩

/-- The answer is right at a moment between the beginning and the end of its search. -/
def Linearizes (cmp : Key → Key → Int) (s : Shared Key R) (a : Answer Key) : Prop :=
  a.till ≤ s.inserted.length ∧ ∃ n, a.find.since ≤ n ∧ n ≤ a.till ∧
    Session.position s.list ⟨a.node⟩ =
      .ok (least cmp {k | k ∈ s.inserted.take n ∧ cmp a.find.target k ≤ 0})

theorem Inv.linearizes (hc : IsPreorder cmp) (h : s.Inv cmp kvs targets es lv done)
    {a : Answer Key} (ha : a ∈ s.answers) (hearly : a.find.reader.early = false) :
    Linearizes cmp s a := by
  have hright := h.answers a ha
  obtain ⟨o, n, hnode, hes, hsince, hn, hkey⟩ := hright.found hearly
  refine ⟨hright.till, n, hsince, hn, ?_⟩
  rw [hnode, position_option fun y hy => (h.view hc).key_eq y (hes y hy), hkey]

/-- A key that was inserted before the search for it began is found. -/
theorem Linearizes.finds (hc : IsStrict cmp) {a : Answer Key} (h : Linearizes cmp s a)
    (hmem : a.find.target ∈ s.inserted.take a.find.since) :
    Session.position s.list ⟨a.node⟩ = .ok (some a.find.target) := by
  obtain ⟨-, n, hsince, -, hpos⟩ := h
  have hn : a.find.target ∈ {k | k ∈ s.inserted.take n} :=
    (List.take_prefix_take_left hsince).subset hmem
  rw [hpos]
  exact congrArg Except.ok (least_not_before hc hn)

/-- What a step is to the threads that do not make it. -/
structure Extends (s : Shared Key R) (es : List (Entry Key)) (lv : Nat → List (Entry Key))
    (s' : Shared Key R) (es' : List (Entry Key)) (lv' : Nat → List (Entry Key)) : Prop where
  grows : Grows es lv es' lv'
  head : s'.list.head_ = s.list.head_
  inserted : s.inserted <+: s'.inserted

theorem Extends.of_eq (hlist : s'.list = s.list) (hins : s'.inserted = s.inserted) :
    Extends s es lv s' es lv :=
  ⟨⟨.refl _, fun _ => List.Subset.refl _⟩, congrArg head_ hlist, hins ▸ List.prefix_refl _⟩

/-- An insertion begins. -/
theorem Inv.writerStep_idle (hc : IsStrict cmp) (hnd : (kvs.map Prod.fst).Nodup)
    (hh : HeightsInRange kvs) (h : s.Inv cmp kvs targets es lv done) (hw : s.writer = none)
    {k : Key} {n : Nat} {todo : List (Key × Nat)} (htodo : s.todo = (k, n) :: todo) :
    ∃ w, s.writerStep (.ofInt cmp) = .ok { s with writer := some w, todo := todo } ∧
      Inv cmp kvs targets es lv done { s with writer := some w, todo := todo } := by
  have hkvs := h.kvs_eq
  rw [hw, htodo, Option.map_none, Option.toList_none, List.nil_append] at hkvs
  have hwriting := h.writing
  rw [hw] at hwriting
  have hab : ∀ e ∈ es, cmp e.key k ≠ 0 := by
    rw [hkvs, List.map_append, List.nodup_append] at hnd
    intro e he h₀
    have hkey : e.key ∈ done.map Prod.fst := by
      have hmem := h.keys.mem_iff.1 (List.mem_map_of_mem (hwriting.mem_of_idle he))
      rwa [h.inserted] at hmem
    exact hnd.2.2 e.key hkey k (by simp) (hc.eq_of_tie _ _ h₀)
  obtain ⟨h₁, hle⟩ := hh (k, n) (by simp [hkvs])
  obtain ⟨c, hstart, hkv, hwriting'⟩ := hwriting.start hc hab h₁ hle
  refine ⟨c.writer, ?_, hwriting', h.linked, h.inserted, ?_, h.clients, h.answers⟩
  · simp only [Shared.writerStep, hw, htodo, hstart, ok_bind]
  · rw [Option.map_some, Option.toList_some, hkv]
    exact hkvs

/-- A store; the last one of an insertion adds its key. -/
theorem Inv.writerStep_busy (h : s.Inv cmp kvs targets es lv done) {w : Writer Key}
    (hw : s.writer = some w) :
    ∃ s' es' lv' done', s.writerStep (.ofInt cmp) = .ok s' ∧
      s'.Inv cmp kvs targets es' lv' done' ∧ Extends s es lv s' es' lv' := by
  have hkvs := h.kvs_eq
  have hwriting := h.writing
  rw [hw] at hwriting
  rw [hw, Option.map_some, Option.toList_some, List.singleton_append] at hkvs
  obtain ⟨l', w', es', lv', hstep, hhead, hg, hkv, hcase⟩ := hwriting.step
  by_cases hfin : w'.pc = .finished
  · rw [if_pos hfin] at hcase
    have hpre : s.inserted <+: s.inserted ++ [w.key] := List.prefix_append _ _
    refine ⟨{ s with list := l', writer := none, inserted := s.inserted ++ [w.key] }, es', lv',
      done ++ [w.kv], ?_, ⟨hcase.1, ?_, ?_, ?_, fun r => ?_, fun a ha => ?_⟩, hg, hhead, hpre⟩
    · simp only [Shared.writerStep, hw, hstep, ok_bind, hfin, if_true]
    · exact hcase.2.trans ((h.linked.cons _).trans (List.perm_append_singleton _ _).symm)
    · rw [List.map_append, h.inserted]
      rfl
    · rw [hkvs, List.append_cons]
      rfl
    · have hclient := (h.clients r).mono hg hpre
      rwa [← hhead] at hclient
    · exact (h.answers a ha).mono hg.sublist.subset hpre
  · rw [if_neg hfin] at hcase
    have hpre : s.inserted <+: s.inserted := List.prefix_refl _
    refine ⟨{ s with list := l', writer := some w' }, es', lv', done, ?_,
      ⟨hcase.1, ?_, h.inserted, ?_, fun r => ?_, fun a ha => ?_⟩, hg, hhead, hpre⟩
    · simp only [Shared.writerStep, hw, hstep, ok_bind, hfin, if_false]
    · rw [hcase.2]
      exact h.linked
    · rw [Option.map_some, Option.toList_some, hkv]
      exact hkvs
    · have hclient := (h.clients r).mono hg hpre
      rwa [← hhead] at hclient
    · exact (h.answers a ha).mono hg.sublist.subset hpre

theorem Inv.writerStep (hc : IsStrict cmp) (hnd : (kvs.map Prod.fst).Nodup)
    (hh : HeightsInRange kvs) (h : s.Inv cmp kvs targets es lv done) :
    ∃ s' es' lv' done', s.writerStep (.ofInt cmp) = .ok s' ∧
      s'.Inv cmp kvs targets es' lv' done' ∧ Extends s es lv s' es' lv' := by
  cases hw : s.writer with
  | some w => exact h.writerStep_busy hw
  | none =>
      cases htodo : s.todo with
      | nil =>
          exact ⟨s, es, lv, done, by simp [Shared.writerStep, hw, htodo], h, .of_eq rfl rfl⟩
      | cons kv todo =>
          obtain ⟨w, hstep, h'⟩ := h.writerStep_idle hc hnd hh hw htodo
          exact ⟨_, es, lv, done, hstep, h', .of_eq rfl rfl⟩

theorem start_inv (cmp : Key → Key → Int) (kvs : List (Key × Nat)) (targets : R → List Key) :
    ∃ s lv, start kvs targets = .ok s ∧ s.Inv cmp kvs targets [] lv [] ∧ s.writer = none ∧
      s.todo = kvs ∧ ∀ r, s.clients r = { todo := targets r, find := none } := by
  obtain ⟨l, hnew, hl⟩ := new_sorted cmp
  refine ⟨_, fun j => level Entry.height j [], by rw [start, hnew, ok_bind],
    ⟨.idle hl, .nil, rfl, rfl, fun r => ?_, ?_⟩, rfl, rfl, fun r => rfl⟩
  · exact ⟨fun _ h => h, by simp, by simp, by simp⟩
  · simp

variable [DecidableEq R]

/-- The other threads are as they were. -/
theorem Inv.put (h : s.Inv cmp kvs targets es lv done) {r : R} {c : Client Key}
    (hi : c.Inv cmp (Calm cmp kvs targets) es lv s.list.head_ s.inserted (targets r)) :
    (s.put r c).Inv cmp kvs targets es lv done := by
  refine ⟨h.writing, h.linked, h.inserted, h.kvs_eq, ?_, h.answers⟩
  exact (Function.forall_update_iff _ fun q (c : Client Key) =>
    c.Inv cmp (Calm cmp kvs targets) es lv s.list.head_ s.inserted (targets q)).2
    ⟨hi, fun q _ => h.clients q⟩

theorem Inv.readerStep (hc : IsStrict cmp) (h : s.Inv cmp kvs targets es lv done) (r : R) :
    ∃ s', s.readerStep (.ofInt cmp) r = .ok s' ∧ s'.Inv cmp kvs targets es lv done ∧
      s'.list = s.list ∧ s'.inserted = s.inserted := by
  have hclient := h.clients r
  obtain ⟨c, hcl⟩ : ∃ c, s.clients r = c := ⟨_, rfl⟩
  obtain ⟨todo, find⟩ := c
  rw [hcl] at hclient
  cases find with
  | none =>
      cases todo with
      | nil => exact ⟨s, by simp [Shared.readerStep, hcl], h, rfl, rfl⟩
      | cons t todo =>
          let f : Find Key :=
            { target := t, reader := ⟨.start, false⟩, since := s.inserted.length, loads := 0 }
          have hsub := List.cons_subset.1 hclient.todo
          refine ⟨s.put r { todo := todo, find := some f },
            by simp only [Shared.readerStep, hcl]; rfl, h.put ⟨hsub.2, ?_, ?_, ?_⟩, rfl, rfl⟩
          · exact fun g hg => Option.mem_some.1 hg ▸ hsub.1
          · exact fun g hg => Option.mem_some.1 hg ▸ Nat.le_refl _
          · exact fun g hg => Option.mem_some.1 hg ▸ .start rfl rfl
  | some f =>
      have hreads := hclient.reads f rfl
      have htarget := hclient.target f rfl
      have hsince := hclient.since f rfl
      cases hres : f.reader.result with
      | some node =>
          let a : Answer Key := { find := f, node := node, till := s.inserted.length }
          have hright := hreads.right hres h.length_le
          have hput := h.put (r := r) (c := { todo := todo, find := none })
            ⟨hclient.todo, nofun, nofun, nofun⟩
          refine ⟨{ s.put r { todo := todo, find := none } with answers := s.answers ++ [a] }, ?_,
            ⟨hput.writing, hput.linked, hput.inserted, hput.kvs_eq, hput.clients, fun b hb => ?_⟩,
            rfl, rfl⟩
          · simp only [Shared.readerStep, hcl, hres]
            rfl
          · rcases List.mem_append.1 hb with hb | hb
            · exact h.answers b hb
            · obtain rfl := List.mem_singleton.1 hb
              exact hright
      | none =>
          obtain ⟨reader, hstep, hreads'⟩ := hreads.step hc (h.view hc.toIsPreorder) h.keys hsince
            (fun hcalm => h.calm hc.toIsPreorder htarget hcalm) hres
          let f' : Find Key := { f with reader := reader, loads := f.loads + 1 }
          refine ⟨s.put r { todo := todo, find := some f' }, ?_,
            h.put ⟨hclient.todo, ?_, ?_, ?_⟩, rfl, rfl⟩
          · simp only [Shared.readerStep, hcl, hres, hstep, ok_bind]
            rfl
          · exact fun g hg => Option.mem_some.1 hg ▸ htarget
          · exact fun g hg => Option.mem_some.1 hg ▸ hsince
          · exact fun g hg => Option.mem_some.1 hg ▸ hreads'

theorem Inv.extends (hc : IsStrict cmp) (hnd : (kvs.map Prod.fst).Nodup) (hh : HeightsInRange kvs)
    (h : s.Inv cmp kvs targets es lv done) (i : Turn R) :
    ∃ s' es' lv' done', s.step (.ofInt cmp) i = .ok s' ∧ s'.Inv cmp kvs targets es' lv' done' ∧
      Extends s es lv s' es' lv' := by
  cases i with
  | writer => exact h.writerStep hc hnd hh
  | reader r =>
      obtain ⟨s', hstep, h', hlist, hins⟩ := h.readerStep hc r
      exact ⟨s', es, lv, done, hstep, h', .of_eq hlist hins⟩

theorem Inv.step (hc : IsStrict cmp) (hnd : (kvs.map Prod.fst).Nodup) (hh : HeightsInRange kvs)
    (s : Shared Key R) (i : Turn R) (h : ∃ es lv done, s.Inv cmp kvs targets es lv done) :
    ∃ s', s.step (.ofInt cmp) i = .ok s' ∧ ∃ es lv done, s'.Inv cmp kvs targets es lv done := by
  obtain ⟨es, lv, done, h⟩ := h
  obtain ⟨s', es', lv', done', hstep, h', -⟩ := h.extends hc hnd hh i
  exact ⟨s', hstep, es', lv', done', h'⟩

/-- A run of the schedule `sched` from a new list. -/
def run (compare_ : Compare Key) (kvs : List (Key × Nat)) (targets : R → List Key)
    (sched : List (Turn R)) : Except Fault (Shared Key R) := do
  let s ← start kvs targets
  sched.foldlM (step compare_) s

theorem run_inv (hc : IsStrict cmp) (hnd : (kvs.map Prod.fst).Nodup) (hh : HeightsInRange kvs)
    (targets : R → List Key) (sched : List (Turn R)) : ∃ s es lv done,
      run (.ofInt cmp) kvs targets sched = .ok s ∧ s.Inv cmp kvs targets es lv done := by
  obtain ⟨s₀, lv₀, hstart, h₀, -⟩ := start_inv cmp kvs targets
  obtain ⟨s, hrun, es, lv, done, h⟩ := Runs.foldlM_keeps (Inv.step hc hnd hh) sched s₀ ⟨_, _, _, h₀⟩
  refine ⟨s, es, lv, done, ?_, h⟩
  rw [run, hstart, ok_bind]
  exact hrun

end Shared

/-- **Searches are linearizable.**  In every run of one writer and any number of readers, every
search that has loaded stored slots only is right at a moment between its beginning and its return,
and every search that returns has done so within a bound.  Of a search that is `lost` it says
nothing: the code would dereference raw memory there. -/
theorem searches_linearize (cmp : Key → Key → Int) (hc : IsStrict cmp) (kvs : List (Key × Nat))
    (hnd : (kvs.map Prod.fst).Nodup) (hh : HeightsInRange kvs) [DecidableEq R]
    (targets : R → List Key) (sched : List (Turn R)) :
    ∃ s, Shared.run (.ofInt cmp) kvs targets sched = .ok s ∧ s.inserted <+: kvs.map Prod.fst ∧
      (∀ a ∈ s.answers, a.find.loads ≤ kMaxHeight + a.till + 2 ∧
        (a.find.reader.early = false → s.Linearizes cmp a ∧
          (a.find.target ∈ s.inserted.take a.find.since →
            Session.position s.list ⟨a.node⟩ = .ok (some a.find.target)))) ∧
      ∀ r, ∀ f ∈ (s.clients r).find, f.reader.early = false →
        f.loads ≤ kMaxHeight + s.inserted.length + 2 := by
  obtain ⟨s, es, lv, done, hrun, h⟩ := Shared.run_inv hc hnd hh targets sched
  refine ⟨s, hrun, ?_, fun a ha => ⟨(h.answers a ha).loads, fun hearly => ?_⟩,
    fun r f hf hearly => ?_⟩
  · rw [h.inserted, h.kvs_eq, List.map_append]
    exact List.prefix_append _ _
  · have hlin := h.linearizes hc.toIsPreorder ha hearly
    exact ⟨hlin, hlin.finds hc⟩
  · have hloads := ((h.clients r).reads f hf).loads_le hearly
    have hlen := h.length_le
    omega

/-- A search that begins before an insertion and ends after it. -/
theorem searches_linearize_overtaken :
    ∃ s, Shared.run (.ofInt ofLT) [((10 : Nat), 1)] (fun _ : Unit => [10])
        ([.reader (), .reader ()] ++ List.replicate 5 .writer ++ List.replicate 2 (.reader ())) =
      .ok s ∧
      s.answers.map (fun a => (a.find.since, a.till, a.find.reader.early)) = [(0, 1, false)] ∧
        ∀ a ∈ s.answers, a.find.reader.early = false → s.Linearizes ofLT a := by
  obtain ⟨s, hrun, hans⟩ : ∃ s, Shared.run (.ofInt ofLT) [((10 : Nat), 1)] (fun _ : Unit => [10])
        ([.reader (), .reader ()] ++ List.replicate 5 .writer ++ List.replicate 2 (.reader ())) =
      .ok s ∧
      s.answers.map (fun a => (a.find.since, a.till, a.find.reader.early)) = [(0, 1, false)] :=
    ⟨_, rfl, rfl⟩
  obtain ⟨s', hrun', -, hlin, -⟩ := searches_linearize ofLT isStrict_ofLT [((10 : Nat), 1)]
    (by decide) (by decide) (fun _ : Unit => [10])
    ([.reader (), .reader ()] ++ List.replicate 5 .writer ++ List.replicate 2 (.reader ()))
  obtain rfl : s = s' := Except.ok.inj (hrun.symm.trans hrun')
  exact ⟨s, hrun, hans, fun a ha hearly => ((hlin a ha).2 hearly).1⟩

end Leveldb.SkipList
