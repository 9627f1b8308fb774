import Mathlib.Data.Finmap
import Mathlib.Data.Fintype.EquivFin
import Mathlib.Data.Nat.Find
import Mathlib.Tactic.Common

/-!
# Support — Memory — Objects

A heap of whole objects, one at an address.  The allocator puts a new object anywhere no object is;
what it chooses may depend on how many it has put before.

* `read_create`, `write_spec`, `delete_spec`: what an operation leaves at every address.
* `Owned h own`: every object has one owner, and `own i` are the addresses of owner `i`'s.  It is
  kept when an owner creates an object, deletes its first one or writes to one.
* `Owned.read_create`, `Owned.ne_of_ne`: what one owner does leaves the objects of the others.
* `Owned.eq_empty`: where no owner has an object, there is none, so that nothing has leaked.
* `Represents P h a b`: owner `i` is `a i`, with objects in `h`, and stands for `b i`, as `P` says.
  Where `P` looks at nothing but the owner's objects, a change of one owner is a change of what it
  stands for and of nothing else (`Represents.set`).
-/

namespace Objects

universe u v w

variable {α : Type u} {ι : Type v} {σ τ : Type w}

structure Heap (α : Type u) where
  objects : Finmap fun _ : Nat => α
  /-- how many objects have been created -/
  created : Nat

/-- Where the `n`-th object goes, given the addresses of those there are. -/
structure Allocator where
  address : Nat → Finset Nat → Nat
  fresh : ∀ n live, address n live ∉ live

/-- The allocator that gives out the least address no object is at. -/
def firstFit : Allocator where
  address _ live := Nat.find (Infinite.exists_notMem_finset live)
  fresh _ live := Nat.find_spec (Infinite.exists_notMem_finset live)

namespace Heap

def empty : Heap α := { objects := ∅, created := 0 }

variable (new_ : Allocator) (h : Heap α) (p : Nat) (a : α)

/-- The address of the next object. -/
def address : Nat := new_.address h.created h.objects.keys

def create : Nat × Heap α :=
  (h.address new_, { objects := h.objects.insert (h.address new_) a, created := h.created + 1 })

def read : Option α := h.objects.lookup p

def write : Option (Heap α) :=
  if p ∈ h.objects then some { h with objects := h.objects.insert p a } else none

def delete : Option (Heap α) :=
  if p ∈ h.objects then some { h with objects := h.objects.erase p } else none

end Heap

variable {new_ : Allocator} {h h' : Heap α} {p q : Nat} {a b : α}

@[simp] theorem read_empty (p : Nat) : (Heap.empty : Heap α).read p = none :=
  Finmap.lookup_empty p

theorem read_address (new_ : Allocator) (h : Heap α) : h.read (h.address new_) = none := by
  rw [Heap.read, Finmap.lookup_eq_none, ← Finmap.mem_keys]
  exact new_.fresh _ _

theorem lookup_insert_eq (m : Finmap fun _ : Nat => α) (p q : Nat) (a : α) :
    (m.insert p a).lookup q = if q = p then some a else m.lookup q := by
  by_cases hq : q = p
  · rw [if_pos hq, hq, Finmap.lookup_insert]
  · rw [if_neg hq, Finmap.lookup_insert_of_ne _ hq]

theorem read_create (new_ : Allocator) (h : Heap α) (a : α) (q : Nat) :
    (h.create new_ a).2.read q = if q = h.address new_ then some a else h.read q :=
  lookup_insert_eq _ _ _ _

/-- A write where an object is. -/
theorem write_spec (a : α) (hp : h.read p = some b) :
    ∃ h', h.write p a = some h' ∧ ∀ q, h'.read q = if q = p then some a else h.read q :=
  ⟨_, if_pos (Finmap.mem_of_lookup_eq_some hp), fun q => lookup_insert_eq _ _ q _⟩

theorem delete_spec (hp : h.read p = some b) :
    ∃ h', h.delete p = some h' ∧ ∀ q, h'.read q = if q = p then none else h.read q := by
  refine ⟨_, if_pos (Finmap.mem_of_lookup_eq_some hp), fun q => ?_⟩
  show (h.objects.erase p).lookup q = _
  by_cases hq : q = p
  · rw [if_pos hq, hq, Finmap.lookup_erase]
  · rw [if_neg hq, Finmap.lookup_erase_ne hq]
    rfl

/-! ### Owners -/

/-- Every object has one owner, and `own i` are the addresses of owner `i`'s. -/
structure Owned (h : Heap α) (own : ι → List Nat) : Prop where
  live : ∀ p, (h.read p).isSome ↔ ∃ i, p ∈ own i
  nodup : ∀ i, (own i).Nodup
  apart : ∀ {i j p}, p ∈ own i → p ∈ own j → i = j

namespace Owned

variable {own : ι → List Nat} {i j : ι} {ps : List Nat}

theorem empty (ι : Type v) : Owned (Heap.empty : Heap α) fun _ : ι => [] :=
  ⟨fun p => by simp, fun _ => List.nodup_nil, fun hp => absurd hp List.not_mem_nil⟩

theorem exists_read (ho : Owned h own) (hp : p ∈ own i) : ∃ a, h.read p = some a :=
  Option.isSome_iff_exists.mp ((ho.live p).mpr ⟨i, hp⟩)

/-- Where no owner has an object, there is none. -/
theorem eq_empty (ho : Owned h own) (hown : ∀ i, own i = []) : h.objects = ∅ := by
  refine Finmap.ext_lookup fun p => ?_
  rw [Finmap.lookup_empty]
  by_contra hne
  obtain ⟨i, hi⟩ := (ho.live p).mp (Option.isSome_iff_ne_none.mpr hne)
  rw [hown i] at hi
  cases hi

/-- The objects of two owners are at different addresses. -/
theorem ne_of_ne (ho : Owned h own) (hp : p ∈ own i) (hq : q ∈ own j) (hij : i ≠ j) : p ≠ q := by
  rintro rfl
  exact hij (ho.apart hp hq)

theorem ne_address (ho : Owned h own) (new_ : Allocator) (hp : p ∈ own i) :
    p ≠ h.address new_ := by
  rintro rfl
  obtain ⟨a, ha⟩ := ho.exists_read hp
  rw [read_address] at ha
  cases ha

/-- The objects there are outlive a creation. -/
theorem read_create (ho : Owned h own) (new_ : Allocator) (a : α) (hp : p ∈ own i) :
    (h.create new_ a).2.read p = h.read p := by
  rw [Objects.read_create, if_neg (ho.ne_address new_ hp)]

/-- Only what is where matters. -/
theorem congr (ho : Owned h own) (hr : ∀ p, (h'.read p).isSome = (h.read p).isSome) :
    Owned h' own :=
  ⟨fun p => by rw [hr]; exact ho.live p, ho.nodup, ho.apart⟩

/-- A write creates and deletes nothing. -/
theorem write (ho : Owned h own) (hp : h.read p = some b)
    (hr : ∀ q, h'.read q = if q = p then some a else h.read q) : Owned h' own := by
  refine ho.congr fun q => ?_
  rw [hr]
  split_ifs with hq
  · rw [hq, hp]
    rfl
  · rfl

variable [DecidableEq ι]

/-- Owner `i` gets the address of an object that has no owner yet. -/
theorem create (ho : Owned h own) (new_ : Allocator) (a : α) (i : ι) :
    Owned (h.create new_ a).2 (Function.update own i (h.address new_ :: own i)) := by
  have hmem : ∀ j p, p ∈ Function.update own i (h.address new_ :: own i) j ↔
      (j = i ∧ p = h.address new_) ∨ p ∈ own j := by
    intro j p
    by_cases hj : j = i
    · subst hj
      rw [Function.update_self, List.mem_cons]
      tauto
    · rw [Function.update_of_ne hj]
      tauto
  refine ⟨fun p => ?_, fun j => ?_, fun {j k p} hj hk => ?_⟩
  · rw [Objects.read_create]
    simp only [hmem]
    by_cases hp : p = h.address new_
    · rw [if_pos hp]
      exact ⟨fun _ => ⟨i, .inl ⟨rfl, hp⟩⟩, fun _ => rfl⟩
    · rw [if_neg hp, ho.live p]
      exact exists_congr fun j => ⟨.inr, fun h => h.resolve_left fun h => hp h.2⟩
  · by_cases hj : j = i
    · subst hj
      rw [Function.update_self]
      exact List.nodup_cons.mpr ⟨fun hp => ho.ne_address new_ hp rfl, ho.nodup j⟩
    · rw [Function.update_of_ne hj]
      exact ho.nodup j
  · rcases (hmem j p).mp hj with ⟨hji, hp⟩ | hj'
    · rcases (hmem k p).mp hk with ⟨hki, -⟩ | hk'
      · exact hji.trans hki.symm
      · exact absurd hp (ho.ne_address new_ hk')
    · rcases (hmem k p).mp hk with ⟨-, hp⟩ | hk'
      · exact absurd hp (ho.ne_address new_ hj')
      · exact ho.apart hj' hk'

/-- The same, by what is found at every address afterwards. -/
theorem created (ho : Owned h own) (new_ : Allocator) (i : ι)
    (hr : ∀ q, h'.read q = if q = h.address new_ then some a else h.read q) :
    Owned h' (Function.update own i (h.address new_ :: own i)) := by
  refine (ho.create new_ a i).congr fun q => ?_
  rw [hr, Objects.read_create]

/-- Owner `i` deletes its first object. -/
theorem delete (ho : Owned h own) (hi : own i = p :: ps)
    (hr : ∀ q, h'.read q = if q = p then none else h.read q) :
    Owned h' (Function.update own i ps) := by
  obtain ⟨hp, hps⟩ := List.nodup_cons.mp (hi ▸ ho.nodup i)
  have hmem : ∀ j q, q ∈ Function.update own i ps j ↔ q ∈ own j ∧ q ≠ p := by
    intro j q
    by_cases hj : j = i
    · subst hj
      rw [Function.update_self, hi, List.mem_cons]
      refine ⟨fun hq => ⟨.inr hq, fun e => hp (e ▸ hq)⟩, fun hq => hq.1.resolve_left hq.2⟩
    · rw [Function.update_of_ne hj]
      refine ⟨fun hq => ⟨hq, ?_⟩, And.left⟩
      exact ho.ne_of_ne hq (show p ∈ own i by rw [hi]; exact List.mem_cons_self) hj
  refine ⟨fun q => ?_, fun j => ?_, fun {j k q} hj hk => ?_⟩
  · rw [hr]
    simp only [hmem]
    by_cases hq : q = p
    · rw [if_pos hq]
      simp [hq]
    · rw [if_neg hq, ho.live q]
      simp [hq]
  · by_cases hj : j = i
    · rw [hj, Function.update_self]
      exact hps
    · rw [Function.update_of_ne hj]
      exact ho.nodup j
  · exact ho.apart ((hmem j q).mp hj).1 ((hmem k q).mp hk).1

end Owned

/-! ### What the owners stand for -/

/-- `P` looks at nothing but the objects at the addresses it is given. -/
def Local (P : Heap α → σ → τ → List Nat → Prop) : Prop :=
  ∀ h h' x y ps, P h x y ps → (∀ q ∈ ps, h'.read q = h.read q) → P h' x y ps

/-- Owner `i` is `a i`, and stands for `b i`. -/
def Represents (P : Heap α → σ → τ → List Nat → Prop) (h : Heap α) (a : ι → σ) (b : ι → τ) : Prop :=
  ∃ own : ι → List Nat, Owned h own ∧ ∀ i, P h (a i) (b i) (own i)

namespace Represents

variable [DecidableEq ι] {P : Heap α → σ → τ → List Nat → Prop} {a : ι → σ} {b : ι → τ}
  {own : ι → List Nat} {i : ι} {x : σ} {y : τ} {ps : List Nat}

/-- A change of owner `i` that leaves the objects of the others. -/
theorem set (hP : Local P) (hs : ∀ j, P h (a j) (b j) (own j))
    (ho : Owned h' (Function.update own i ps)) (hi : P h' x y ps)
    (hr : ∀ j, j ≠ i → ∀ q ∈ own j, h'.read q = h.read q) :
    Represents P h' (Function.update a i x) (Function.update b i y) := by
  refine ⟨_, ho, fun j => ?_⟩
  by_cases hj : j = i
  · rw [hj, Function.update_self, Function.update_self, Function.update_self]
    exact hi
  · rw [Function.update_of_ne hj, Function.update_of_ne hj, Function.update_of_ne hj]
    exact hP _ _ _ _ _ (hs j) (hr j hj)

/-- A change of owner `i` that leaves all objects. -/
theorem set_same (hP : Local P) (ho : Owned h own) (hs : ∀ j, P h (a j) (b j) (own j))
    (hi : P h x y (own i)) :
    Represents P h (Function.update a i x) (Function.update b i y) := by
  refine set hP hs ?_ hi fun _ _ _ _ => rfl
  rw [Function.update_eq_self]
  exact ho

end Represents

end Objects
