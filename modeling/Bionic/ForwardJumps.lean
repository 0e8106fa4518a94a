import Mathlib

/-! Programs whose jumps all go forward: a statement returns, or goes on with a number of the
statements after it skipped. A piece of such a program runs the same wherever it stands. -/
namespace ForwardJumps

inductive Next (σ ρ : Type) where
  | ret (r : ρ)
  | go (s : σ) (skip : ℕ)

inductive Outcome (σ ρ : Type) where
  | ret (r : ρ)
  | pastEnd (s : σ)
  | outOfProgram
  deriving DecidableEq

variable {ι σ ρ : Type} {step : ι → σ → Next σ ρ}

def run (step : ι → σ → Next σ ρ) : List ι → ℕ → σ → Outcome σ ρ
  | [], 0, s => .pastEnd s
  | [], _ + 1, _ => .outOfProgram
  | _ :: rest, skip + 1, s => run step rest skip s
  | i :: rest, 0, s =>
    match step i s with
    | .ret r => .ret r
    | .go s skip => run step rest skip s

variable {xs ys : List ι} {s : σ} {n : ℕ}

theorem run_cons_of_go {i rest s' skip}
    (h : step i s = .go s' skip) : run step (i :: rest) 0 s = run step rest skip s' := by
  rw [run, h]

theorem run_append_of_ret {r} (h : run step xs n s = .ret r) :
    run step (xs ++ ys) n s = .ret r := by
  fun_induction run step xs n s with
  | case1 => cases h
  | case2 => cases h
  | case3 _ _ _ _ ih => exact ih h
  | case4 _ _ _ _ hi =>
    rw [List.cons_append, run, hi]
    exact h
  | case5 _ _ _ _ _ hi ih => exact (run_cons_of_go hi).trans (ih h)

theorem run_append_of_pastEnd {s'} (h : run step xs n s = .pastEnd s') :
    run step (xs ++ ys) n s = run step ys 0 s' := by
  fun_induction run step xs n s with
  | case1 =>
    cases h
    rfl
  | case2 => cases h
  | case3 _ _ _ _ ih => exact ih h
  | case4 => cases h
  | case5 _ _ _ _ _ hi ih => exact (run_cons_of_go hi).trans (ih h)

theorem run_append_skip (h : n = xs.length) : run step (xs ++ ys) n s = run step ys 0 s := by
  subst h
  induction xs with
  | nil => rfl
  | cons i rest ih => exact ih

end ForwardJumps
