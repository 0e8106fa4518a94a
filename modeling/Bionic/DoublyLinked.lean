import Mathlib

/-! Doubly linked lists. The links are two functions on addresses, and 0 is the end on both
sides. -/
namespace DoublyLinked

open List

/-- The nodes are linked both ways, the first to the node before the list and the last to the node
after it. -/
def Linked (next prev : ℕ → ℕ) : ℕ → List ℕ → ℕ → Prop
  | _, [], _ => True
  | before, x :: xs, after =>
    prev x = before ∧ next x = xs.headD after ∧ Linked next prev x xs after

variable {next prev next' prev' : ℕ → ℕ} {before after before' after' x : ℕ} {xs ys zs : List ℕ}

theorem linked_append : Linked next prev before (xs ++ ys) after ↔
    Linked next prev before xs (ys.headD after) ∧
      Linked next prev (xs.getLastD before) ys after := by
  induction xs generalizing before with
  | nil => exact ⟨fun h => ⟨trivial, h⟩, fun h => h.2⟩
  | cons x xs ih =>
    have hh : (xs ++ ys).headD after = xs.headD (ys.headD after) := by cases xs <;> rfl
    have hl : (x :: xs).getLastD before = xs.getLastD x := by cases xs <;> rfl
    rw [cons_append, Linked, Linked, hh, hl, ih]
    exact ⟨fun h => ⟨⟨h.1, h.2.1, h.2.2.1⟩, h.2.2.2⟩, fun h => ⟨h.1.1, h.1.2.1, h.1.2.2, h.2⟩⟩

variable (h : Linked next prev before xs after)
include h

theorem Linked.congr (hn : ∀ y ∈ xs, next' y = next y)
    (hp : ∀ y ∈ xs, prev' y = prev y) : Linked next' prev' before xs after := by
  induction xs generalizing before with
  | nil => trivial
  | cons y ys ih =>
    obtain ⟨hy, hy', hys⟩ := h
    refine ⟨(hp y mem_cons_self).trans hy, (hn y mem_cons_self).trans hy', ?_⟩
    exact ih hys (fun z hz => hn z (mem_cons_of_mem y hz)) fun z hz => hp z (mem_cons_of_mem y hz)

theorem Linked.set_after (hnd : xs.Nodup)
    (hnx : ∀ y ∈ xs, next' y = if y = xs.getLastD before then after' else next y)
    (hp : ∀ y ∈ xs, prev' y = prev y) : Linked next' prev' before xs after' := by
  induction xs generalizing before with
  | nil => trivial
  | cons x xs ih =>
    have hl : (x :: xs).getLastD before = xs.getLastD x := by cases xs <;> rfl
    rw [hl] at hnx
    obtain ⟨hx, hx', hxs⟩ := h
    obtain ⟨hn, hnd⟩ := List.nodup_cons.mp hnd
    refine ⟨(hp x mem_cons_self).trans hx, ?_, ih hxs hnd (fun y hy => hnx y (mem_cons_of_mem x hy))
        fun y hy => hp y (mem_cons_of_mem x hy)⟩
    rw [hnx x mem_cons_self]
    cases xs with
    | nil => exact if_pos rfl
    | cons y ys =>
      have hne : x ≠ (y :: ys).getLastD x := by
        rw [getLastD_cons]
        exact fun heq => hn (heq ▸ getLastD_mem_cons)
      rw [if_neg hne, hx']
      rfl

theorem Linked.set_before (hnd : xs.Nodup) (hnx : ∀ y ∈ xs, next' y = next y)
    (hp : ∀ y ∈ xs, prev' y = if y = xs.headD 0 then before' else prev y) :
    Linked next' prev' before' xs after := by
  cases xs with
  | nil => trivial
  | cons x xs =>
    obtain ⟨-, hx, hxs⟩ := h
    have hn := (List.nodup_cons.mp hnd).1
    refine ⟨?_, (hnx x mem_cons_self).trans hx, ?_⟩
    · rw [hp x mem_cons_self, headD_cons, if_pos rfl]
    refine hxs.congr (fun y hy => hnx y (mem_cons_of_mem x hy)) fun y hy => ?_
    have hne : y ≠ x := fun heq => hn (heq ▸ hy)
    rw [hp y (mem_cons_of_mem x hy), headD_cons, if_neg hne]

end DoublyLinked
