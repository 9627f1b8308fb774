import Mathlib.Data.List.Basic
import Mathlib.Tactic.Common

/-!
# Support — Lists — Linked

A singly linked list in a store.  `link x p` says that the cell `x` stores the successor `p`,
`none` being the null pointer; `Chain link x xs` says that following the links from `x` visits
exactly `xs` and ends in null.

* `Chain.link_at`: at every cut `xs = as ++ bs` the last cell before the cut is linked to the
  first one after it.
* `Chain.exists_link`: every cell of a chain stores a successor.
* `Chain.congr`: a chain depends only on the links of its own cells.
* `Chain.splice`: re-linking the last cell before a cut to a new cell, and the new cell to the
  first one after it, inserts the new cell at the cut.

A link is a relation, not a function, so that a store may have cells that hold no successor at all:
a chain says which cells do, and nothing about the others.
-/

namespace Linked

universe u

variable {α : Type u}

/-- Following `link` from `x` visits `xs` and ends in null. -/
def Chain (link : α → Option α → Prop) : α → List α → Prop
  | x, []      => link x none
  | x, y :: ys => link x (some y) ∧ Chain link y ys

variable {link link' : α → Option α → Prop} {x n : α} {as bs xs ys : List α}

/-- The link across a cut: `getLastD x` is the last cell before it, or `x` itself at the start. -/
theorem Chain.link_at (h : Chain link x (as ++ bs)) : link (as.getLastD x) bs.head? := by
  induction as generalizing x with
  | nil =>
      cases bs with
      | nil => exact h
      | cons b bs => exact h.1
  | cons a as ih =>
      rw [List.getLastD_cons]
      exact ih h.2

/-- Every cell of a chain, the first one included, stores a successor. -/
theorem Chain.exists_link (h : Chain link x xs) : ∀ y ∈ x :: xs, ∃ p, link y p := by
  induction xs generalizing x with
  | nil =>
      intro y hy
      obtain rfl := List.mem_singleton.mp hy
      exact ⟨none, h⟩
  | cons z zs ih =>
      intro y hy
      rcases List.mem_cons.mp hy with rfl | hy
      · exact ⟨some z, h.1⟩
      · exact ih h.2 y hy

/-- A chain stays one in a store whose links of the chain's own cells are as they were. -/
theorem Chain.congr (h : Chain link x xs) (hl : ∀ y ∈ x :: xs, ∀ p, link y p → link' y p) :
    Chain link' x xs := by
  induction xs generalizing x with
  | nil => exact hl x (by simp) _ h
  | cons y ys ih =>
      refine ⟨hl x (by simp) _ h.1, ih h.2 fun z hz => hl z ?_⟩
      exact List.mem_cons_of_mem _ hz

/-- A new cell `n` goes in at a cut.  No cell may be twice in the old chain: the one that is linked
anew would otherwise end the chain earlier, or never. -/
theorem Chain.splice (h : Chain link x (as ++ bs)) (hnd : (x :: (as ++ bs)).Nodup)
    (hn : link' (as.getLastD x) (some n)) (hb : link' n bs.head?)
    (hl : ∀ y ∈ x :: (as ++ bs), y ≠ as.getLastD x → ∀ p, link y p → link' y p) :
    Chain link' x (as ++ n :: bs) := by
  induction as generalizing x with
  | nil =>
      -- the cut is right after `x`, and what is after the cut does not go through `x` again
      refine ⟨hn, ?_⟩
      cases bs with
      | nil => exact hb
      | cons b bs =>
          have hx : ∀ y ∈ b :: bs, y ≠ x := fun y hy e =>
            (List.nodup_cons.mp hnd).1 (e ▸ hy)
          exact ⟨hb, h.2.congr fun y hy => hl y (List.mem_cons_of_mem _ hy) (hx y hy)⟩
  | cons a as ih =>
      -- the cut is further on: `x` keeps its link, since it is not the cell before the cut
      rw [List.getLastD_cons] at hn hl
      have hmem : as.getLastD a ∈ a :: (as ++ bs) :=
        List.cons_subset_cons a (List.subset_append_left as bs) List.getLastD_mem_cons
      have hx : x ≠ as.getLastD a := fun e => (List.nodup_cons.mp hnd).1 (e ▸ hmem)
      refine ⟨hl x (by simp) hx _ h.1, ih h.2 (List.nodup_cons.mp hnd).2 hn fun y hy => ?_⟩
      exact hl y (List.mem_cons_of_mem _ hy)

end Linked
