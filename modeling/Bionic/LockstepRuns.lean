import Mathlib

/-! Two runs in lockstep. A run is a state transformer that may stop with an error and keeps the
state it stopped in; two of them agree along a relation of their states when they stop or go on
together, with the same value, in related states. -/
namespace LockstepRuns

universe u

variable {ε σ τ ι α β : Type u} {R : σ → τ → Prop}

variable {m : EStateM ε ι α} {f : EStateM ε σ α} {g : EStateM ε τ α} {put : ι → σ → σ} {s : σ}
  {view : σ → ι}

theorem bind_of_ok {s' a} (h : f s = .ok a s')
    (rest : α → EStateM ε σ β) : (f >>= rest) s = rest a s' := by
  change EStateM.bind f rest s = _
  rw [EStateM.bind, h]

theorem bind_of_error {s' e} (h : f s = .error e s')
    (rest : α → EStateM ε σ β) : (f >>= rest) s = .error e s' := by
  change EStateM.bind f rest s = _
  rw [EStateM.bind, h]

theorem bind_ok_inv {rest s''} {b : β}
    (h : (f >>= rest) s = .ok b s'') : ∃ a s', f s = .ok a s' ∧ rest a s' = .ok b s'' := by
  cases hf : f s with
  | ok a s' =>
    rw [bind_of_ok hf] at h
    exact ⟨a, s', rfl, h⟩
  | error e s' =>
    rw [bind_of_error hf] at h
    cases h

inductive SameResult (R : σ → τ → Prop) : EStateM.Result ε σ α → EStateM.Result ε τ α → Prop
  | ok {s : σ} {t : τ} (a : α) (related : R s t) : SameResult R (.ok a s) (.ok a t)
  | error {s : σ} {t : τ} (e : ε) (related : R s t) : SameResult R (.error e s) (.error e t)

def Agrees (R : σ → τ → Prop) (f : EStateM ε σ α) (g : EStateM ε τ α) : Prop :=
  ∀ s t, R s t → SameResult R (f s) (g t)

theorem Agrees.pure (a : α) : Agrees (ε := ε) R (Pure.pure a) (Pure.pure a) :=
  fun _ _ h => .ok a h

theorem Agrees.throw (e : ε) : Agrees (α := α) R (MonadExcept.throw e) (MonadExcept.throw e) :=
  fun _ _ h => .error e h

theorem Agrees.bind {f'}
    {g' : α → EStateM ε τ β} (first : Agrees R f g) (rest : ∀ a, Agrees R (f' a) (g' a)) :
    Agrees R (f >>= f') (g >>= g') := by
  intro s t h
  change SameResult R (EStateM.bind f f' s) (EStateM.bind g g' t)
  have hf := first s t h
  unfold EStateM.bind
  revert hf
  generalize f s = x
  generalize g t = y
  intro hf
  cases hf with
  | ok a related => exact rest a _ _ related
  | error e related => exact .error e related

theorem Agrees.ite {c : Prop} [Decidable c] {f' g'}
    (yes : c → Agrees R f g) (no : ¬c → Agrees R f' g') :
    Agrees R (if c then f else f') (if c then g else g') := by
  by_cases h : c
  · rw [if_pos h, if_pos h]
    exact yes h
  · rw [if_neg h, if_neg h]
    exact no h

theorem Agrees.forM {f} {g : α → EStateM ε τ PUnit}
    (body : ∀ a, Agrees R (f a) (g a)) (l : List α) : Agrees R (l.forM f) (l.forM g) := by
  induction l with
  | nil => exact .pure _
  | cons a l ih => exact .bind (body a) fun _ => ih

def zoom (view : σ → ι) (put : ι → σ → σ) (m : EStateM ε ι α) : EStateM ε σ α := fun s =>
  match m (view s) with
  | .ok a i => .ok a (put i s)
  | .error e i => .error e (put i s)

theorem zoom_of_ok {a i} (h : m (view s) = .ok a i) : zoom view put m s = .ok a (put i s) := by
  rw [zoom, h]

theorem zoom_of_error {e i}
    (h : m (view s) = .error e i) : zoom view put m s = .error e (put i s) := by
  rw [zoom, h]

theorem Agrees.zoom {view' put'}
    (same : ∀ s t, R s t → view s = view' t) (kept : ∀ i s t, R s t → R (put i s) (put' i t))
    (m : EStateM ε ι α) :
    Agrees R (LockstepRuns.zoom view put m) (LockstepRuns.zoom view' put' m) := by
  intro s t h
  unfold LockstepRuns.zoom
  rw [same s t h]
  cases m (view' t) with
  | ok a i => exact .ok a (kept i s t h)
  | error e i => exact .error e (kept i s t h)

end LockstepRuns
