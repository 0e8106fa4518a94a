import Mathlib

/-! Taking a rooted graph apart: the root goes first, and a member goes once it has lost all
its parents. On a finite set of members that all have a parent among the members, everything
goes exactly when no cycle of members avoids the root. -/
namespace GraphCollapse

variable {V : Type*} {edge : V → V → Prop} {member : V → Prop} {root : V}

/-- `edge p x` reads: `p` is a parent of `x`. -/
inductive Collapsed (edge : V → V → Prop) (member : V → Prop) (root : V) : V → Prop where
  | root : Collapsed edge member root root
  | last {x} : member x → (∃ p, edge p x) → (∀ p, edge p x → Collapsed edge member root p) →
      Collapsed edge member root x

def Inner (edge : V → V → Prop) (member : V → Prop) (root : V) (p x : V) : Prop :=
  edge p x ∧ (member p ∧ p ≠ root) ∧ (member x ∧ x ≠ root)

def CyclesMeetRoot (edge : V → V → Prop) (member : V → Prop) (root : V) : Prop :=
  ∀ x, ¬ Relation.TransGen (Inner edge member root) x x

variable {x : V} {member' : V → Prop}

theorem CyclesMeetRoot.mono {edge'}
    (hee : ∀ p x, member' x → edge' p x → edge p x) (hm : ∀ x, member' x → member x)
    (h : CyclesMeetRoot edge member root) : CyclesMeetRoot edge' member' root := by
  intro x hx
  refine h x (Relation.TransGen.mono (fun p y hpy => ?_) _ _ hx)
  obtain ⟨he, hp, hy⟩ := hpy
  exact ⟨hee p y hy.1 he, ⟨hm p hp.1, hp.2⟩, ⟨hm y hy.1, hy.2⟩⟩

theorem cyclesMeetRoot_of_no_inner (h : ∀ p x, ¬ Inner edge member root p x) :
    CyclesMeetRoot edge member root := by
  intro x hx
  obtain ⟨p, -, hp⟩ := Relation.TransGen.tail'_iff.mp hx
  exact h p x hp

theorem Collapsed.member_or_root (h : Collapsed edge member root x) : x = root ∨ member x := by
  cases h with
  | root => exact .inl rfl
  | last hm _ _ => exact .inr hm

/-- The collapsed nodes are the least set with the root and every member that has parents
and all of them in the set. -/
theorem Collapsed.mem_of_closed {S : V → Prop} (hr : S root)
    (hc : ∀ x, member x → (∃ p, edge p x) → (∀ p, edge p x → S p) → S x)
    (h : Collapsed edge member root x) : S x := by
  induction h with
  | root => exact hr
  | last hm hp _ ih => exact hc _ hm hp ih

theorem Collapsed.congr_member (hm : ∀ y, Collapsed edge member root y → y ≠ root → member' y)
    (h : Collapsed edge member root x) : Collapsed edge member' root x := by
  induction h with
  | root => exact .root
  | @last y hmy hp ha ih =>
    by_cases hy : y = root
    · subst hy; exact .root
    · exact .last (hm y (.last hmy hp ha) hy) hp ih

theorem Collapsed.acc (h : Collapsed edge member root x) : Acc (Inner edge member root) x := by
  induction h with
  | root => exact ⟨_, fun p hp => absurd rfl hp.2.2.2⟩
  | last _ _ _ ih => exact ⟨_, fun p hp => ih p hp.1⟩

theorem not_transGen_self_of_acc {r} (h : Acc r x) : ¬ Relation.TransGen r x x := by
  have ht := h.transGen
  induction ht with
  | intro y _ ih => exact fun hy => ih y hy (h.inv_of_transGen hy) hy

theorem acc_of_cyclesMeetRoot (hf : {x | member x}.Finite)
    (h : CyclesMeetRoot edge member root) (x : V) : Acc (Inner edge member root) x := by
  have hw : WellFounded fun a b : {x | member x} =>
      Relation.TransGen (Inner edge member root) a b := by
    have : Finite {x | member x} := hf
    have : IsTrans {x | member x} fun a b => Relation.TransGen (Inner edge member root) a b :=
      ⟨fun _ _ _ => Relation.TransGen.trans⟩
    have : Std.Irrefl fun a b : {x | member x} =>
        Relation.TransGen (Inner edge member root) a b := ⟨fun a => h a⟩
    exact Finite.wellFounded_of_trans_of_irrefl _
  have ha : ∀ y : {x | member x}, Acc (Inner edge member root) y := by
    intro y
    induction hw.apply y with
    | intro y _ ih => exact ⟨_, fun p hp => ih ⟨p, hp.2.1.1⟩ (.single hp)⟩
  exact ⟨_, fun p hp => ha ⟨p, hp.2.1.1⟩⟩

theorem all_collapsed_iff (hf : {x | member x}.Finite)
    (hpa : ∀ y, member y → y ≠ root → ∃ p, edge p y)
    (hc : ∀ y, member y → y ≠ root → ∀ p, edge p y → member p) :
    (∀ x, member x → Collapsed edge member root x) ↔ CyclesMeetRoot edge member root := by
  constructor
  · intro ha x hx
    obtain ⟨y, hxy, -⟩ := Relation.TransGen.head'_iff.mp hx
    exact not_transGen_self_of_acc (ha x hxy.2.1.1).acc hx
  intro h x hx
  induction (acc_of_cyclesMeetRoot hf h x) with
  | intro y _ ih =>
    by_cases hy : y = root
    · subst hy; exact .root
    refine .last hx (hpa y hx hy) ?_
    intro p hp
    have hm := hc y hx hy p hp
    by_cases hpr : p = root
    · subst hpr; exact .root
    · exact ih p ⟨hp, ⟨hm, hpr⟩, ⟨hx, hy⟩⟩ hm

end GraphCollapse
