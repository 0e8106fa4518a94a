import Mathlib

/-! Maps that are put together from the tiles of their owners. Every owner has a region and the
values it wants there; what belongs to nobody has a default. A map shows a set of owners when it
is exactly that. The rules say how it follows an owner that comes or goes. -/
namespace TiledMaps

open Set

variable {α κ β : Type*}

structure Tiling (α κ β : Type*) where
  region : α → Set κ
  value : α → κ → β
  default : β

structure Shows (T : Tiling α κ β) (A : Set α) (f : κ → β) : Prop where
  own : ∀ a ∈ A, ∀ c ∈ T.region a, f c = T.value a c
  rest : ∀ c, (∀ a ∈ A, c ∉ T.region a) → f c = T.default

variable {T : Tiling α κ β} {A B : Set α} {a : α} {f g : κ → β}

theorem Shows.empty : Shows T ∅ fun _ => T.default :=
  ⟨fun _ h => absurd h (notMem_empty _), fun _ _ => rfl⟩

section
variable (hf : Shows T A f)
include hf

theorem Shows.eq_at (hg : Shows T B g) {c}
    (h : ∀ a, c ∈ T.region a → (a ∈ A ↔ a ∈ B)) : f c = g c := by
  by_cases ho : ∃ a ∈ A, c ∈ T.region a
  · obtain ⟨a, ha, hc⟩ := ho
    rw [hf.own a ha c hc, hg.own a ((h a hc).mp ha) c hc]
  · have hn : ∀ a ∈ A, c ∉ T.region a := fun a ha hc => ho ⟨a, ha, hc⟩
    rw [hf.rest c hn, hg.rest c fun a ha hc => hn a ((h a hc).mpr ha) hc]

theorem Shows.unique (hg : Shows T A g) : f = g := by
  funext c
  exact hf.eq_at hg fun _ _ => Iff.rfl

variable (hap : (insert a A).PairwiseDisjoint T.region)
include hap

theorem Shows.before {c} (hc : c ∈ T.region a) : f c = T.value a c ∨ f c = T.default := by
  by_cases ha : a ∈ A
  · exact .inl (hf.own a ha c hc)
  refine .inr (hf.rest c fun b hb hbc => ?_)
  have hn : b ≠ a := fun h => ha (h ▸ hb)
  exact Set.disjoint_left.mp (hap (mem_insert_of_mem a hb) (mem_insert a A) hn) hbc hc

theorem Shows.add (hin : ∀ c ∈ T.region a, g c = T.value a c)
    (ho : ∀ c, c ∉ T.region a → g c = f c) : Shows T (insert a A) g := by
  constructor
  · intro b hb c hc
    by_cases hca : c ∈ T.region a
    · have hba : b = a := by
        by_contra hne
        exact Set.disjoint_left.mp (hap hb (mem_insert a A) hne) hc hca
      rw [hba]
      exact hin c hca
    · rw [ho c hca]
      refine hf.own b (mem_of_mem_insert_of_ne hb fun h => hca (h ▸ hc)) c hc
  · intro c hn
    have hca := hn a (mem_insert a A)
    rw [ho c hca]
    exact hf.rest c fun b hb => hn b (mem_insert_of_mem a hb)

theorem Shows.remove (hin : ∀ c ∈ T.region a, g c = T.default)
    (ho : ∀ c, c ∉ T.region a → g c = f c) : Shows T (A \ {a}) g := by
  constructor
  · intro b hb c hc
    have hca : c ∉ T.region a := Set.disjoint_left.mp
      (hap (mem_insert_of_mem a hb.1) (mem_insert a A) hb.2) hc
    rw [ho c hca]
    exact hf.own b hb.1 c hc
  intro c hn
  by_cases hca : c ∈ T.region a
  · exact hin c hca
  rw [ho c hca]
  apply hf.rest c
  intro b hb hc
  exact hn b ⟨hb, fun h => hca (h ▸ hc)⟩ hc

end

end TiledMaps
