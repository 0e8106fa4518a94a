import Mathlib

/-!
# Walking the dependencies of a library

`walk_dependencies_tree` of the linker for any graph of soinfos and any action: it returns, and
the calls of the action are the breadth-first order of what the calls themselves lead to.
-/
namespace LinkerWalk

open List

inductive WalkActionResult where
  | kWalkStop
  | kWalkContinue
  | kWalkSkip
  deriving DecidableEq

open WalkActionResult

abbrev Calls (α : Type) := List (α × WalkActionResult)

/-- The loop. The action is a closure: its state is the calls made so far, and their soinfos are
`visited`. -/
def walkDependenciesTree {α} [DecidableEq α] (children : α → List α)
    (action : Calls α → α → WalkActionResult) : ℕ → List α → Calls α → Option (Bool × Calls α)
  | _, [], calls => some (true, calls)
  | 0, _ :: _, _ => none
  | fuel + 1, si :: visitList, calls =>
    if si ∈ calls.map Prod.fst then walkDependenciesTree children action fuel visitList calls
    else
      let result := action calls si
      if result = kWalkStop then some (false, calls ++ [(si, result)])
      else walkDependenciesTree children action fuel
        (visitList ++ if result ≠ kWalkSkip then children si else []) (calls ++ [(si, result)])

variable {α : Type} (children : α → List α) (action : Calls α → α → WalkActionResult)

def leads (c : α × WalkActionResult) : List α :=
  if c.2 = kWalkContinue then children c.1 else []

/-- In the order in which the root and the calls lead to them. -/
def led (root : α) (calls : Calls α) : List α := root :: calls.flatMap (leads children)

inductive Reachable (root : α) (calls : Calls α) : α → Prop where
  | root : Reachable root calls root
  | child {p c} : Reachable root calls p → (p, kWalkContinue) ∈ calls → c ∈ children p →
      Reachable root calls c

/-- The action's calls, each after the ones before it. -/
inductive Answered : Calls α → Prop where
  | nil : Answered []
  | snoc {calls} (si) : Answered calls → Answered (calls ++ [(si, action calls si)])

variable [DecidableEq α]

structure BreadthFirst (root : α) (done : Bool) (calls : Calls α) : Prop where
  answered : Answered action calls
  once : (calls.map Prod.fst).Nodup
  order : calls.map Prod.fst <+: (led children root calls).eraseDups
  reachable : ∀ x ∈ calls.map Prod.fst, Reachable children root calls x
  complete : done → (∀ c ∈ calls, c.2 ≠ kWalkStop) ∧
    ∀ x, Reachable children root calls x → x ∈ calls.map Prod.fst
  stopped : ¬ done → ∃ init si, calls = init ++ [(si, kWalkStop)] ∧ ∀ c ∈ init, c.2 ≠ kWalkStop

/-- The soinfos taken off the list, each at its first time, are those of the calls. -/
structure WalkInv (root : α) (visitList : List α) (calls : Calls α) : Prop where
  answered : Answered action calls
  once : (calls.map Prod.fst).Nodup
  order : ∃ popped, led children root calls = popped ++ visitList ∧
    calls.map Prod.fst = popped.eraseDups
  reachable : ∀ x ∈ led children root calls, Reachable children root calls x

theorem eraseDups_snoc (l : List α) (x) :
    (l ++ [x]).eraseDups = if x ∈ l then l.eraseDups else l.eraseDups ++ [x] := by
  rw [eraseDups_append]
  by_cases hx : x ∈ l <;> simp [removeAll, hx, eraseDups_cons]

variable {children action} {root si : α} {visitList : List α} {calls : Calls α}

omit [DecidableEq α] in
theorem Reachable.mono {calls'} (hs : calls ⊆ calls') {x} (h : Reachable children root calls x) :
    Reachable children root calls' x := by
  induction h with
  | root => exact .root
  | child _ hp hc ih => exact .child ih (hs hp) hc

theorem WalkInv.start : WalkInv children action root [root] [] := by
  refine ⟨.nil, nodup_nil, ⟨[], rfl, rfl⟩, fun x hx => ?_⟩
  rw [show x = root by simpa [led] using hx]
  exact .root

section
variable (h : WalkInv children action root (si :: visitList) calls)
include h

theorem WalkInv.visited (hs : si ∈ calls.map Prod.fst) :
    WalkInv children action root visitList calls := by
  obtain ⟨popped, hl, hp⟩ := h.order
  rw [hp, mem_eraseDups] at hs
  refine { h with order := ⟨popped ++ [si], by simp [hl], ?_⟩ }
  rw [eraseDups_snoc, if_pos hs, hp]

theorem WalkInv.call (hs : si ∉ calls.map Prod.fst) {r} (hr : r = action calls si) :
    WalkInv children action root (visitList ++ leads children (si, r)) (calls ++ [(si, r)]) := by
  obtain ⟨popped, hl, hp⟩ := h.order
  have hn : si ∉ popped := by rwa [hp, mem_eraseDups] at hs
  have hld : led children root (calls ++ [(si, r)]) =
      led children root calls ++ leads children (si, r) := by simp [led]
  refine ⟨hr ▸ h.answered.snoc si, ?_, ⟨popped ++ [si], by simp [hld, hl], ?_⟩, fun x hx => ?_⟩
  · rw [map_append, nodup_append']
    exact ⟨h.once, nodup_singleton _, by simpa using hs⟩
  · rw [eraseDups_snoc, if_neg hn, ← hp, map_append]
    rfl
  have hm := fun {y} (hy : y ∈ led children root calls) =>
    (h.reachable y hy).mono (subset_append_left calls [(si, r)])
  rw [hld] at hx
  rcases mem_append.mp hx with hx | hx
  · exact hm hx
  unfold leads at hx
  split at hx
  case isTrue hk => exact .child (hm (hl ▸ by simp)) (by simp [← hk]) hx
  case isFalse => cases hx

end

theorem WalkInv.breadthFirst (h : WalkInv children action root visitList calls) {done : Bool}
    (hd : done → visitList = [] ∧ ∀ c ∈ calls, c.2 ≠ kWalkStop)
    (hs : ¬ done → ∃ init si, calls = init ++ [(si, kWalkStop)] ∧ ∀ c ∈ init, c.2 ≠ kWalkStop) :
    BreadthFirst children action root done calls := by
  obtain ⟨popped, hl, hp⟩ := h.order
  refine ⟨h.answered, h.once, ?_, fun x hx => h.reachable x ?_, fun h => ⟨(hd h).2, ?_⟩, hs⟩
  · rw [hp, hl, eraseDups_append]
    exact prefix_append _ _
  · rw [hp, mem_eraseDups] at hx
    rw [hl]
    exact mem_append_left _ hx
  intro x hx
  rw [hp, mem_eraseDups, show popped = led children root calls by simp [hl, (hd h).1]]
  cases hx with
  | root => exact mem_cons_self
  | child _ hc hx => exact mem_cons_of_mem _ (mem_flatMap.mpr ⟨_, hc, by simpa [leads] using hx⟩)

theorem walkDependenciesTree_run [Fintype α] (fuel)
    (h : WalkInv children action root visitList calls) (hg : ∀ c ∈ calls, c.2 ≠ kWalkStop)
    (hf : visitList.length + ∑ x with x ∉ calls.map Prod.fst, (children x).length ≤ fuel) :
    ∃ done calls', walkDependenciesTree children action fuel visitList calls =
      some (done, calls') ∧ BreadthFirst children action root done calls' := by
  induction fuel generalizing visitList calls with
  | zero =>
    obtain rfl : visitList = [] := length_eq_zero_iff.mp (by omega)
    exact ⟨true, calls, rfl, h.breadthFirst (fun _ => ⟨rfl, hg⟩) (by simp)⟩
  | succ fuel ih =>
    cases visitList with
    | nil => exact ⟨true, calls, rfl, h.breadthFirst (fun _ => ⟨rfl, hg⟩) (by simp)⟩
    | cons si visitList =>
      rw [length_cons] at hf
      rw [walkDependenciesTree]
      by_cases hs : si ∈ calls.map Prod.fst
      · rw [if_pos hs]
        exact ih (h.visited hs) hg (by omega)
      rw [if_neg hs]
      have hc := h.call hs rfl
      have hl : (leads children (si, action calls si)).length ≤ (children si).length := by
        unfold leads
        split <;> simp
      have hsm : ∑ x with x ∉ calls.map Prod.fst, (children x).length =
          (children si).length + ∑ x with
            x ∉ (calls ++ [(si, action calls si)]).map Prod.fst, (children x).length := by
        rw [← Finset.add_sum_erase _ _ (Finset.mem_filter.mpr ⟨Finset.mem_univ si, hs⟩)]
        congr 2
        ext x
        simp [and_comm]
      dsimp only
      split
      case isTrue hk =>
        exact ⟨false, _, rfl, hc.breadthFirst (by simp) fun _ => ⟨calls, si, by rw [hk], hg⟩⟩
      case isFalse hk =>
        have hv : (if action calls si ≠ kWalkSkip then children si else []) =
            leads children (si, action calls si) := by
          cases ha : action calls si with
          | kWalkStop => exact absurd ha hk
          | _ => rfl
        rw [hv]
        refine ih hc ?_ (by rw [length_append]; omega)
        intro c hc
        rcases mem_append.mp hc with hc | hc
        · exact hg c hc
        · rwa [mem_singleton.mp hc]

/-- A walk over a finite graph, cycles and repeated edges included, ends. -/
theorem walkDependenciesTree_spec [Fintype α] (children : α → List α) (action) (root : α) :
    ∃ done calls, walkDependenciesTree children action (1 + ∑ x, (children x).length) [root] [] =
      some (done, calls) ∧ BreadthFirst children action root done calls :=
  walkDependenciesTree_run _ .start (by simp) (by simp)

end LinkerWalk
