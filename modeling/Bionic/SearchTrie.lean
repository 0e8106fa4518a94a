import Mathlib

/-! Tries whose siblings form search trees. A node has an address, a key and perhaps an item; on its
left and right are siblings with smaller and greater keys, below it the keys that may follow. Nodes
are only added at the empty end of a search, at addresses from an allocator that may refuse. -/
namespace SearchTrie

open List Function

inductive Side where
  | left
  | children
  | right
  deriving DecidableEq

inductive Trie (K V : Type) where
  | nil
  | node (addr : ℕ) (key : K) (item : Option V) (sub : Side → Trie K V)

namespace Trie

variable {K V : Type}

def addrs : Trie K V → List ℕ
  | nil => []
  | node a _ _ sub => a :: ((sub .left).addrs ++ (sub .children).addrs ++ (sub .right).addrs)

def items : Trie K V → List V
  | nil => []
  | node _ _ item sub =>
    (sub .left).items ++ item.toList ++ (sub .children).items ++ (sub .right).items

def root : Trie K V → Option ℕ
  | nil => none
  | node a _ _ _ => some a

variable {item : Option V} {sub : Side → Trie K V} {a : ℕ}

theorem mem_addrs_node {x key} :
    x ∈ (node a key item sub).addrs ↔ x = a ∨ ∃ side, x ∈ (sub side).addrs := by
  simp only [addrs, mem_cons, mem_append]
  constructor
  · rintro (h | (h | h) | h)
    · exact .inl h
    · exact .inr ⟨.left, h⟩
    · exact .inr ⟨.children, h⟩
    · exact .inr ⟨.right, h⟩
  · rintro (h | ⟨side, h⟩)
    · exact .inl h
    · cases side <;> simp [h]

/-- In a trie without repeated addresses the parts of a node have none in common. -/
structure Apart (a : ℕ) (sub : Side → Trie K V) : Prop where
  root : ∀ side, a ∉ (sub side).addrs
  sides : ∀ side side', side ≠ side' → ∀ x ∈ (sub side).addrs, x ∉ (sub side').addrs
  nodup : ∀ side, (sub side).addrs.Nodup

theorem apart_of_nodup {key} (h : (node a key item sub).addrs.Nodup) : Apart a sub := by
  simp only [addrs, nodup_cons, mem_append, not_or, nodup_append] at h
  obtain ⟨⟨⟨hl, hc⟩, hr⟩, ⟨nl, nc, hlc⟩, nr, hlr⟩ := h
  constructor
  · intro side
    cases side <;> assumption
  · intro side side' hn x hx hx'
    cases side <;> cases side'
    · exact hn rfl
    · exact hlc x hx x hx' rfl
    · exact hlr x (.inl hx) x hx' rfl
    · exact hlc x hx' x hx rfl
    · exact hn rfl
    · exact hlr x (.inr hx) x hx' rfl
    · exact hlr x (.inl hx') x hx rfl
    · exact hlr x (.inr hx') x hx rfl
    · exact hn rfl
  · intro side
    cases side <;> assumption

theorem Apart.nodup_node (h : Apart a sub) (key : K)
    (item) : (node a key item sub).addrs.Nodup := by
  simp only [addrs, nodup_cons, mem_append, not_or, nodup_append]
  refine ⟨⟨⟨h.root _, h.root _⟩, h.root _⟩, ⟨h.nodup _, h.nodup _, ?_⟩, h.nodup _, ?_⟩
  · rintro x hx _ hx' rfl
    exact h.sides .left .children (by decide) x hx hx'
  rintro x (hx | hx) _ hx' rfl
  · exact h.sides .left .right (by decide) x hx hx'
  · exact h.sides .children .right (by decide) x hx hx'

section
variable (cmp : K → K → Ordering)

/-- Where a search for `k` and then `ks` goes on from a node with this key, and for which keys;
nowhere if it has arrived. -/
def turn (k : K) (ks : List K) (key : K) : Option (Side × List K) :=
  match cmp k key with
  | .lt => some (.left, k :: ks)
  | .gt => some (.right, k :: ks)
  | .eq =>
    match ks with
    | [] => none
    | _ => some (.children, ks)

def locate : Trie K V → List K → Option ℕ
  | nil, _ => none
  | node _ _ _ _, [] => none
  | node a key _ sub, k :: ks =>
    match turn cmp k ks key with
    | none => some a
    | some (side, rest) => (sub side).locate rest

def lookup : Trie K V → List K → Option V
  | nil, _ => none
  | node _ _ _ _, [] => none
  | node _ key item sub, k :: ks =>
    match turn cmp k ks key with
    | none => item
    | some (side, rest) => (sub side).lookup rest

def setAt (v : V) : Trie K V → List K → Trie K V
  | nil, _ => nil
  | node a key item sub, [] => node a key item sub
  | node a key item sub, k :: ks =>
    match turn cmp k ks key with
    | none => node a key (some v) sub
    | some (side, rest) => node a key item (update sub side ((sub side).setAt v rest))

structure Grown (K V : Type) where
  trie : Trie K V
  used : ℕ
  found : Option ℕ

def chain (alloc : K → ℕ → Option (ℕ × ℕ)) : List K → ℕ → Grown K V
  | [], used => ⟨nil, used, none⟩
  | k :: ks, used =>
    match alloc k used with
    | none => ⟨nil, used, none⟩
    | some (a, used) =>
      match ks with
      | [] => ⟨node a k none fun _ => nil, used, some a⟩
      | _ :: _ =>
        let below := chain alloc ks used
        ⟨node a k none (update (fun _ => nil) .children below.trie), below.used, below.found⟩

def grow (alloc : K → ℕ → Option (ℕ × ℕ)) : Trie K V → List K → ℕ → Grown K V
  | nil, ks, used => chain alloc ks used
  | node a key item sub, [], used => ⟨node a key item sub, used, none⟩
  | node a key item sub, k :: ks, used =>
    match turn cmp k ks key with
    | none => ⟨node a key item sub, used, some a⟩
    | some (side, rest) =>
      let below := (sub side).grow alloc rest used
      ⟨node a key item (update sub side below.trie), below.used, below.found⟩

variable {cmp} {t : Trie K V} {k k' : K} {ks ks' rest : List K} {key : K} {side : Side} {v : V}

theorem turn_self_nil (hr : cmp k k = .eq) : turn cmp k [] k = none := by
  simp [turn, hr]

theorem turn_self_cons (hr : cmp k k = .eq) (k' : K) (ks) :
    turn cmp k (k' :: ks) k = some (.children, k' :: ks) := by
  simp [turn, hr]

theorem turn_inj (hc : ∀ a b, cmp a b = .eq → a = b)
    (h : turn cmp k ks key = turn cmp k' ks' key) : k :: ks = k' :: ks' := by
  cases hk : cmp k key with
  | lt =>
    cases hk' : cmp k' key with
    | lt => simpa [turn, hk, hk'] using h
    | gt => simp [turn, hk, hk'] at h
    | eq => cases ks' <;> simp [turn, hk, hk'] at h
  | gt =>
    cases hk' : cmp k' key with
    | lt => simp [turn, hk, hk'] at h
    | gt => simpa [turn, hk, hk'] using h
    | eq => cases ks' <;> simp [turn, hk, hk'] at h
  | eq =>
    have hky := hc k key hk
    cases hk' : cmp k' key with
    | lt | gt => cases ks <;> simp [turn, hk, hk'] at h
    | eq =>
      have hky' := hc k' key hk'
      have hks : ks = ks' := by
        cases ks <;> cases ks' <;> simp_all [turn]
      rw [hky, hky', hks]

theorem locate_mem (h : locate cmp t ks = some a) : a ∈ t.addrs := by
  induction t generalizing ks with
  | nil => cases h
  | node b key item sub ih =>
    cases ks with
    | nil => cases h
    | cons k ks =>
      rw [locate] at h
      rw [mem_addrs_node]
      split at h
      · cases h
        exact .inl rfl
      · exact .inr ⟨_, ih _ h⟩

theorem lookup_mem (h : lookup cmp t ks = some v) : v ∈ t.items := by
  induction t generalizing ks with
  | nil => cases h
  | node b key item sub ih =>
    cases ks with
    | nil => cases h
    | cons k ks =>
      rw [lookup] at h
      split at h
      · simp [items, h]
      rename_i side rest _
      have hv := ih side h
      cases side <;> simp [items, hv]

theorem lookup_setAt_self (hl : locate cmp t ks ≠ none) :
    lookup cmp (setAt cmp v t ks) ks = some v := by
  induction t generalizing ks with
  | nil => exact absurd rfl hl
  | node a key item sub ih =>
    cases ks with
    | nil => exact absurd rfl hl
    | cons k ks =>
      rw [locate] at hl
      rw [setAt]
      cases ht : turn cmp k ks key with
      | none => simp only [lookup, ht]
      | some next =>
        obtain ⟨side, rest⟩ := next
        simp only [ht] at hl
        simp only [lookup, ht, update_self, ih side hl]

theorem lookup_setAt_of_ne (hc : ∀ a b, cmp a b = .eq → a = b) (hn : ks' ≠ ks) :
    lookup cmp (setAt cmp v t ks) ks' = lookup cmp t ks' := by
  induction t generalizing ks ks' with
  | nil => rfl
  | node a key item sub ih =>
    cases ks with
    | nil => rfl
    | cons k ks =>
      cases ks' with
      | nil =>
        rw [setAt]
        split <;> rfl
      | cons k' ks' =>
        have ht : turn cmp k' ks' key ≠ turn cmp k ks key := fun h => hn (turn_inj hc h)
        rw [setAt]
        cases htn : turn cmp k ks key with
        | none =>
          rw [htn] at ht
          obtain ⟨next', htn'⟩ := Option.ne_none_iff_exists'.mp ht
          simp only [lookup, htn']
        | some next =>
          obtain ⟨side, rest⟩ := next
          cases htn' : turn cmp k' ks' key with
          | none => simp only [lookup, htn']
          | some next' =>
            obtain ⟨side', rest'⟩ := next'
            simp only [lookup, htn']
            by_cases hs : side' = side
            · subst hs
              rw [update_self]
              apply ih
              rintro rfl
              exact ht (htn'.trans htn.symm)
            · rw [update_of_ne hs]

theorem count_items_node [DecidableEq V] (x : V) (a) (key : K) (item)
    (sub : Side → Trie K V) : (node a key item sub).items.count x = (sub .left).items.count x +
      item.toList.count x + (sub .children).items.count x + (sub .right).items.count x := by
  rw [items, count_append, count_append, count_append]

theorem count_items_setAt [DecidableEq V] (hl : locate cmp t ks ≠ none)
    (hn : lookup cmp t ks = none) (x : V) :
    (setAt cmp v t ks).items.count x = t.items.count x + if v = x then 1 else 0 := by
  induction t generalizing ks with
  | nil => exact absurd rfl hl
  | node a key item sub ih =>
    cases ks with
    | nil => exact absurd rfl hl
    | cons k ks =>
      rw [locate] at hl
      rw [lookup] at hn
      rw [setAt]
      cases ht : turn cmp k ks key with
      | none =>
        simp only [ht] at hn
        simp only [count_items_node, hn, Option.toList_some, Option.toList_none,
          count_nil, count_singleton, beq_iff_eq]
        split <;> omega
      | some next =>
        obtain ⟨side, rest⟩ := next
        simp only [ht] at hl hn
        have hb := ih side hl hn
        simp only [count_items_node]
        cases side <;> simp only [update_self, ne_eq, reduceCtorEq, not_false_eq_true,
          update_of_ne] <;> omega

theorem addrs_setAt : (setAt cmp v t ks).addrs = t.addrs := by
  induction t generalizing ks with
  | nil => rfl
  | node a key item sub ih =>
    cases ks with
    | nil => rfl
    | cons k ks =>
      rw [setAt]
      split
      · rfl
      · rename_i side rest _
        cases side <;> simp [addrs, ih]

section
variable {alloc : K → ℕ → Option (ℕ × ℕ)} {used : ℕ}

theorem lookup_chain (ks ks' used) : lookup cmp (chain (V := V) alloc ks used).trie ks' = none := by
  induction ks generalizing ks' used with
  | nil => rfl
  | cons k ks ih =>
    rw [chain]
    split
    · rfl
    cases ks' with
    | nil => split <;> rfl
    | cons k' ks' =>
      split <;> simp only [lookup]
      · split <;> rfl
      · split
        · rfl
        · rename_i side rest _
          cases side <;> first | rfl | simp only [update_self, ih]

theorem lookup_grow (t : Trie K V) (ks ks') :
    lookup cmp (t.grow cmp alloc ks used).trie ks' = lookup cmp t ks' := by
  induction t generalizing ks ks' with
  | nil => exact lookup_chain ks ks' used
  | node a key item sub ih =>
    cases ks with
    | nil => rfl
    | cons k ks =>
      rw [grow]
      cases ht : turn cmp k ks key with
      | none => rfl
      | some next =>
        obtain ⟨side, rest⟩ := next
        cases ks' with
        | nil => rfl
        | cons k' ks' =>
          simp only [lookup]
          cases ht' : turn cmp k' ks' key with
          | none => rfl
          | some next' =>
            obtain ⟨side', rest'⟩ := next'
            dsimp only
            by_cases hs : side' = side
            · subst hs
              rw [update_self, ih]
            · rw [update_of_ne hs]

theorem items_chain (ks used) : (chain (V := V) alloc ks used).trie.items = [] := by
  induction ks generalizing used with
  | nil => rfl
  | cons k ks ih =>
    rw [chain]
    split
    · rfl
    split
    · simp [items]
    · simp [items, ih]

theorem items_grow (t : Trie K V) (ks) : (t.grow cmp alloc ks used).trie.items = t.items := by
  induction t generalizing ks with
  | nil => exact items_chain ks used
  | node a key item sub ih =>
    cases ks with
    | nil => rfl
    | cons k ks =>
      rw [grow]
      cases turn cmp k ks key with
      | none => rfl
      | some next =>
        obtain ⟨side, rest⟩ := next
        cases side <;> simp [items, ih]

theorem locate_chain (hr : ∀ k, cmp k k = .eq) (ks used)
    (h : (chain (V := V) alloc ks used).found = some a) :
    locate cmp (chain (V := V) alloc ks used).trie ks = some a := by
  induction ks generalizing used with
  | nil => cases h
  | cons k ks ih =>
    rw [chain] at h ⊢
    split at h
    · cases h
    cases ks with
    | nil =>
      rw [locate, turn_self_nil (hr k)]
      exact h
    | cons k' ks =>
      rw [locate, turn_self_cons (hr k)]
      dsimp only
      rw [update_self]
      exact ih _ h

theorem locate_grow (hr : ∀ k, cmp k k = .eq) (t : Trie K V) (ks)
    (h : (t.grow cmp alloc ks used).found = some a) :
    locate cmp (t.grow cmp alloc ks used).trie ks = some a := by
  induction t generalizing ks with
  | nil => exact locate_chain hr ks used h
  | node b key item sub ih =>
    cases ks with
    | nil => cases h
    | cons k ks =>
      rw [grow] at h ⊢
      cases ht : turn cmp k ks key with
      | none =>
        simp only [ht] at h
        simp only [locate, ht]
        exact h
      | some next =>
        obtain ⟨side, rest⟩ := next
        simp only [ht] at h
        simp only [locate, ht, update_self]
        exact ih side rest h

theorem grow_nil_keys (t : Trie K V) : t.grow cmp alloc [] used = ⟨t, used, none⟩ := by
  cases t <;> rfl

theorem grow_none (t : Trie K V) (ks) :
    t.grow cmp (fun _ _ => none) ks used = ⟨t, used, locate cmp t ks⟩ := by
  induction t generalizing ks with
  | nil => cases ks <;> rfl
  | node a key item sub ih =>
    cases ks with
    | nil => rfl
    | cons k ks =>
      rw [grow, locate]
      cases ht : turn cmp k ks key with
      | none => rfl
      | some next =>
        obtain ⟨side, rest⟩ := next
        simp only [ih, update_eq_self]

variable {P : ℕ → Prop}

section
variable (hal : ∀ k u a u', alloc k u = some (a, u') → P a)
include hal

theorem chain_forall (ks used) : ∀ x ∈ (chain (V := V) alloc ks used).trie.addrs, P x := by
  induction ks generalizing used with
  | nil => exact nofun
  | cons k ks ih =>
    rw [chain]
    split
    · exact nofun
    rename_i a used' h
    split <;> intro x hx
    · obtain rfl : x = a := by simpa [addrs] using hx
      exact hal _ _ _ _ h
    · rcases mem_addrs_node.mp hx with rfl | ⟨side, hx⟩
      · exact hal _ _ _ _ h
      · cases side with
        | left | right => cases hx
        | children =>
          exact ih used' x hx

theorem grow_forall (t : Trie K V) (ks) (ht : ∀ x ∈ t.addrs, P x) :
    ∀ x ∈ (t.grow cmp alloc ks used).trie.addrs, P x := by
  induction t generalizing ks with
  | nil => exact chain_forall hal ks used
  | node a key item sub ih =>
    cases ks with
    | nil => exact ht
    | cons k ks =>
      rw [grow]
      split
      · exact ht
      rename_i side rest _
      intro x hx
      rcases mem_addrs_node.mp hx with rfl | ⟨side', hx⟩
      · exact ht x (mem_addrs_node.mpr (.inl rfl))
      by_cases hs : side' = side
      · subst hs
        rw [update_self] at hx
        exact ih side' rest (fun y hy => ht y (mem_addrs_node.mpr (.inr ⟨side', hy⟩))) x hx
      · rw [update_of_ne hs] at hx
        exact ht x (mem_addrs_node.mpr (.inr ⟨side', hx⟩))

end

theorem chain_used_le {n} (hal : ∀ k u a u', alloc k u = some (a, u') → u' ≤ n)
    (ks used) (hu : used ≤ n) : (chain (V := V) alloc ks used).used ≤ n := by
  induction ks generalizing used with
  | nil => exact hu
  | cons k ks ih =>
    rw [chain]
    split
    · exact hu
    rename_i a used' h
    split
    · exact hal _ _ _ _ h
    · exact ih used' (hal _ _ _ _ h)

theorem grow_used_le {n} (hal : ∀ k u a u', alloc k u = some (a, u') → u' ≤ n)
    (t : Trie K V) (ks) (hu : used ≤ n) : (t.grow cmp alloc ks used).used ≤ n := by
  induction t generalizing ks with
  | nil => exact chain_used_le hal ks used hu
  | node a key item sub ih =>
    cases ks with
    | nil => exact hu
    | cons k ks =>
      rw [grow]
      split
      · exact hu
      · exact ih _ _

/-- The allocator hands out addresses at the end of the space in use. -/
def Fresh (alloc : K → ℕ → Option (ℕ × ℕ)) : Prop :=
  ∀ k used a used', alloc k used = some (a, used') → used ≤ a ∧ a < used'

variable (fresh : Fresh alloc)
include fresh

theorem chain_addrs (ks used) : used ≤ (chain (V := V) alloc ks used).used ∧
      (∀ x ∈ (chain (V := V) alloc ks used).trie.addrs,
        used ≤ x ∧ x < (chain (V := V) alloc ks used).used) ∧
      (chain (V := V) alloc ks used).trie.addrs.Nodup := by
  induction ks generalizing used with
  | nil => exact ⟨Nat.le_refl _, nofun, nodup_nil⟩
  | cons k ks ih =>
    rw [chain]
    split
    · exact ⟨Nat.le_refl _, nofun, nodup_nil⟩
    rename_i a used' hal
    obtain ⟨hl, hlt⟩ := fresh _ _ _ _ hal
    split
    · refine ⟨by dsimp only; omega, ?_, by simp [addrs]⟩
      intro x hx
      obtain rfl : x = a := by simpa [addrs] using hx
      exact ⟨hl, hlt⟩
    obtain ⟨hu, hb, hn⟩ := ih used'
    refine ⟨by dsimp only; omega, ?_, ?_⟩
    · intro x hx
      dsimp only at hx ⊢
      rcases mem_addrs_node.mp hx with rfl | ⟨side, hx⟩
      · omega
      cases side with
      | left | right => cases hx
      | children =>
        have hx := hb x hx
        omega
    · simp only [addrs, ne_eq, reduceCtorEq, not_false_eq_true, update_of_ne,
        update_self, nil_append, append_nil, nodup_cons]
      refine ⟨?_, hn⟩
      intro ha
      have ha := (hb a ha).1
      omega

theorem used_le_grow (t : Trie K V) (ks used) : used ≤ (t.grow cmp alloc ks used).used := by
  induction t generalizing ks with
  | nil => exact (chain_addrs fresh ks used).1
  | node a key item sub ih =>
    cases ks with
    | nil => exact Nat.le_refl _
    | cons k ks =>
      rw [grow]
      split
      · exact Nat.le_refl _
      · exact ih _ _

theorem mem_addrs_grow (t : Trie K V) (ks used x) (hx : x ∈ (t.grow cmp alloc ks used).trie.addrs) :
    x ∈ t.addrs ∨ used ≤ x ∧ x < (t.grow cmp alloc ks used).used := by
  induction t generalizing ks with
  | nil => exact .inr ((chain_addrs fresh ks used).2.1 x hx)
  | node a key item sub ih =>
    cases ks with
    | nil => exact .inl hx
    | cons k ks =>
      rw [grow] at hx ⊢
      cases ht : turn cmp k ks key with
      | none =>
        simp only [ht] at hx
        exact .inl hx
      | some next =>
        obtain ⟨side, rest⟩ := next
        simp only [ht] at hx
        rcases mem_addrs_node.mp hx with rfl | ⟨side', hx⟩
        · exact .inl (mem_addrs_node.mpr (.inl rfl))
        by_cases hs : side' = side
        · subst hs
          rw [update_self] at hx
          rcases ih side' rest hx with hx | hx
          · exact .inl (mem_addrs_node.mpr (.inr ⟨side', hx⟩))
          · exact .inr hx
        · rw [update_of_ne hs] at hx
          exact .inl (mem_addrs_node.mpr (.inr ⟨side', hx⟩))

theorem nodup_addrs_grow (t : Trie K V) (ks used) (hnd : t.addrs.Nodup)
    (hlt : ∀ x ∈ t.addrs, x < used) : (t.grow cmp alloc ks used).trie.addrs.Nodup := by
  induction t generalizing ks with
  | nil => exact (chain_addrs fresh ks used).2.2
  | node a key item sub ih =>
    cases ks with
    | nil => exact hnd
    | cons k ks =>
      rw [grow]
      cases ht : turn cmp k ks key with
      | none => exact hnd
      | some next =>
        obtain ⟨side, rest⟩ := next
        have hap := apart_of_nodup hnd
        have hltSub : ∀ side, ∀ x ∈ (sub side).addrs, x < used :=
          fun side x hx => hlt x (mem_addrs_node.mpr (.inr ⟨side, hx⟩))
        have hl : a < used := hlt a (mem_addrs_node.mpr (.inl rfl))
        have hg : ∀ x ∈ ((sub side).grow cmp alloc rest used).trie.addrs,
            x ∈ (sub side).addrs ∨ used ≤ x ∧ x < ((sub side).grow cmp alloc rest used).used :=
          fun x hx => mem_addrs_grow fresh (sub side) rest used x hx
        refine Apart.nodup_node ⟨?_, ?_, ?_⟩ key item
        · intro side'
          by_cases hs : side' = side
          · subst hs
            rw [update_self]
            intro ha
            rcases hg a ha with ha | ha
            · exact hap.root side' ha
            · omega
          · rw [update_of_ne hs]
            exact hap.root side'
        · intro side1 side2 hn x hx1 hx2
          by_cases h1 : side1 = side
          · subst h1
            rw [update_self] at hx1
            rw [update_of_ne hn.symm] at hx2
            have hx := hltSub side2 x hx2
            rcases hg x hx1 with hx1 | hx1
            · exact hap.sides side1 side2 hn x hx1 hx2
            · omega
          · rw [update_of_ne h1] at hx1
            by_cases h2 : side2 = side
            · subst h2
              rw [update_self] at hx2
              have hx := hltSub side1 x hx1
              rcases hg x hx2 with hx2 | hx2
              · exact hap.sides side1 side2 hn x hx1 hx2
              · omega
            · rw [update_of_ne h2] at hx2
              exact hap.sides side1 side2 hn x hx1 hx2
        · intro side'
          by_cases hs : side' = side
          · subst hs
            rw [update_self]
            exact ih side' rest (hap.nodup side') (hltSub side')
          · rw [update_of_ne hs]
            exact hap.nodup side'

end

end

end Trie

end SearchTrie
