import Mathlib

/-!
# The statistics of the operations of a memory trace

`OpMinMaxAnalysis` and `OpAverageAnalysis` of `memory_trace_analysis`: what they gather from the
entries of a trace, what they print, and for which traces the numbers printed are the true ones.
-/
namespace TraceAnalysis

open List

inductive TypeEnum where
  | malloc | calloc | memalign | realloc | free | threadDone | unknown
  deriving DecidableEq

structure Entry where
  type : TypeEnum
  startNs : UInt64
  endNs : UInt64

/-- Entries of 56 bytes each in the address space of a process. -/
structure TraceInfo where
  entries : List Entry
  fits : entries.length * 56 ≤ 2 ^ 56

def outputOrder : List TypeEnum := [.malloc, .calloc, .memalign, .realloc, .free]

/-- `operator[]` of the map adds a pair of zeros for a new type. -/
abbrev Stats := TypeEnum → ℕ × ℕ

/-- The loop of both functions. -/
def gather (add : ℕ × ℕ → ℕ → ℕ × ℕ) (stats : Stats) (info : TraceInfo) : Stats :=
  info.entries.foldl (fun stats e => Function.update stats e.type
    (add (stats e.type) (e.endNs - e.startNs).toNat)) stats

/-- `stats_` after the trace files of one run: it is not cleared between them. -/
def gatherAll (add : ℕ × ℕ → ℕ → ℕ × ℕ) (infos : List TraceInfo) : Stats :=
  infos.foldl (gather add) fun _ => (0, 0)

structure Line where
  type : TypeEnum
  shown : ℕ × ℕ

def OpMinMaxAnalysis.add (iter : ℕ × ℕ) (period : ℕ) : ℕ × ℕ :=
  (if iter.1 = 0 then period else min iter.1 period, max iter.2 period)

def OpMinMaxAnalysis.streamResult (stats : Stats) : List Line :=
  outputOrder.map fun t => ⟨t, stats t⟩

def OpAverageAnalysis.add (iter : ℕ × ℕ) (period : ℕ) : ℕ × ℕ :=
  ((iter.1 + period) % 2 ^ 64, (iter.2 + 1) % 2 ^ 64)

def average (totalTime totalCount : ℕ) : ℕ × ℕ :=
  if totalCount = 0 then (0, 0)
  else (totalTime / totalCount, totalTime % totalCount * 1000 % 2 ^ 64 / totalCount)

def OpAverageAnalysis.streamResult (stats : Stats) : List Line :=
  outputOrder.map fun t => ⟨t, average (stats t).1 (stats t).2⟩

def durations (info : TraceInfo) (t : TypeEnum) : List ℕ :=
  (info.entries.filter (·.type = t)).map fun e => e.endNs.toNat - e.startNs.toNat

/-- The second number is read as decimal places. -/
def Line.value (l : Line) : ℚ := l.shown.1 + l.shown.2 / 10 ^ (Nat.log 10 l.shown.2 + 1)

def Prints (lines : List Line) (t : TypeEnum) (P : Line → Prop) : Prop :=
  ∃ l ∈ lines, l.type = t ∧ P l

theorem prints_iff {t} {f : TypeEnum → ℕ × ℕ} {P} (ht : t ∈ outputOrder) :
    Prints (outputOrder.map fun t => ⟨t, f t⟩) t P ↔ P ⟨t, f t⟩ := by
  constructor
  · rintro ⟨l, hl, rfl, hp⟩
    obtain ⟨u, _, rfl⟩ := mem_map.mp hl
    exact hp
  · exact fun hp => ⟨_, mem_map_of_mem ht, rfl, hp⟩

theorem foldl_update_apply (add : ℕ × ℕ → ℕ → ℕ × ℕ) (t) (es : List Entry) (stats : Stats) :
    es.foldl (fun stats e => Function.update stats e.type
      (add (stats e.type) (e.endNs - e.startNs).toNat)) stats t =
    ((es.filter (·.type = t)).map fun e => (e.endNs - e.startNs).toNat).foldl add (stats t) := by
  induction es generalizing stats with
  | nil => rfl
  | cons e es ih =>
    rw [foldl_cons, ih]
    by_cases he : e.type = t
    · subst he
      simp
    · simp [he, Function.update_of_ne (Ne.symm he)]

theorem foldl_gather_of_absent (add) {infos : List TraceInfo} {t}
    (h : ∀ info ∈ infos, durations info t = []) (stats : Stats) :
    infos.foldl (gather add) stats t = stats t := by
  induction infos generalizing stats with
  | nil => rfl
  | cons info infos ih =>
    obtain ⟨hi, hs⟩ := forall_mem_cons.mp h
    rw [foldl_cons, ih hs, gather, foldl_update_apply, map_eq_nil_iff.mp hi]
    rfl

theorem gatherAll_apply (add) {earlier : List TraceInfo} {info t}
    (he : ∀ info ∈ earlier, durations info t = [])
    (ho : ∀ e ∈ info.entries, e.type = t → e.startNs ≤ e.endNs) :
    gatherAll add (earlier ++ [info]) t = (durations info t).foldl add (0, 0) := by
  rw [gatherAll, foldl_append, foldl_cons, foldl_nil, gather, foldl_update_apply,
    foldl_gather_of_absent add he, durations]
  congr 1
  apply map_congr_left
  intro e he
  obtain ⟨hm, ht⟩ := mem_filter.mp he
  exact UInt64.toNat_sub_of_le _ _ (ho e hm (of_decide_eq_true ht))

namespace OpMinMaxAnalysis

def fold (ds : List ℕ) : ℕ × ℕ := ds.foldl add (0, 0)

@[simp] theorem fold_snoc (ds) (d : ℕ) : fold (ds ++ [d]) = add (fold ds) d := by simp [fold]

theorem fst_eq_zero (ds) (d : ℕ) : (fold (ds ++ [d])).1 = 0 ↔ d = 0 := by
  rw [fold_snoc, add]
  dsimp only
  split <;> omega

variable {ds : List ℕ}

theorem fst_spec (hn : ds ≠ []) : (fold ds).1 ∈ ds ∧ (0 ∉ ds → ∀ d ∈ ds, (fold ds).1 ≤ d) := by
  induction ds using reverseRecOn with
  | nil => exact absurd rfl hn
  | append_singleton ds d ih =>
    rw [fold_snoc, add]
    by_cases hd : ds = []
    · simp [hd, fold]
    obtain ⟨hm, hl⟩ := ih hd
    have h0 : 0 ∉ ds → (fold ds).1 ≠ 0 := fun hz h => hz (h ▸ hm)
    constructor
    · rcases min_choice (fold ds).1 d with h | h <;> grind
    · grind

theorem fst_isLeast (hn : ds ≠ []) :
    IsLeast {d | d ∈ ds} (fold ds).1 ↔ (0 ∈ ds → ds.getLast? = some 0) := by
  obtain ⟨init, d, rfl⟩ := (eq_nil_or_concat' ds).resolve_left hn
  have hl : (init ++ [d]).getLast? = some 0 ↔ d = 0 := by simp
  rw [hl, ← fst_eq_zero init d]
  constructor
  · intro h hz
    exact Nat.le_zero.mp (h.2 hz)
  intro h
  refine ⟨(fst_spec hn).1, fun x hx => ?_⟩
  by_cases hz : 0 ∈ init ++ [d]
  · rw [h hz]
    exact Nat.zero_le x
  · exact (fst_spec hn).2 hz x hx

theorem snd_isGreatest (hn : ds ≠ []) : IsGreatest {d | d ∈ ds} (fold ds).2 := by
  induction ds using reverseRecOn with
  | nil => exact absurd rfl hn
  | append_singleton ds d ih =>
    rw [fold_snoc, add]
    by_cases hd : ds = []
    · simp [hd, IsGreatest, upperBounds, fold]
    obtain ⟨hm, hu⟩ := ih hd
    constructor
    · rcases max_choice (fold ds).2 d with h | h <;> simp_all
    intro x hx
    rcases mem_append.mp hx with hx | hx
    · exact (hu hx).trans (le_max_left _ _)
    · exact mem_singleton.mp hx ▸ le_max_right _ _

end OpMinMaxAnalysis

theorem average_foldl (ds : List ℕ) :
    ds.foldl OpAverageAnalysis.add (0, 0) = (ds.sum % 2 ^ 64, ds.length % 2 ^ 64) := by
  induction ds using reverseRecOn with
  | nil => rfl
  | append_singleton ds d ih => simp [ih, OpAverageAnalysis.add]

theorem places_iff {m : ℕ} (hm : m < 1000) :
    (m : ℚ) / 10 ^ (Nat.log 10 m + 1) = m / 1000 ↔ m = 0 ∨ 100 ≤ m := by
  rcases Nat.lt_or_ge m 10 with h | h
  · rw [Nat.log_of_lt h]
    interval_cases m <;> norm_num
  rcases Nat.lt_or_ge m 100 with h' | h'
  · rw [Nat.log_eq_of_pow_le_of_lt_pow (m := 1) (by omega) (by omega)]
    have hp : (0 : ℚ) < m := by exact_mod_cast (by omega : 0 < m)
    constructor
    · intro he
      norm_num at he
      linarith
    · omega
  · rw [Nat.log_eq_of_pow_le_of_lt_pow (m := 2) (by omega) (by omega)]
    norm_num
    omega

theorem places_lt_one (m : ℕ) : (m : ℚ) / 10 ^ (Nat.log 10 m + 1) < 1 := by
  rw [div_lt_one (by positivity)]
  exact_mod_cast Nat.lt_pow_succ_log_self (by norm_num) m

theorem thousandths {s n : ℕ} (hn : 0 < n) : s * 1000 / n = s / n * 1000 + s % n * 1000 / n := by
  conv_lhs => rw [← Nat.div_add_mod s n]
  rw [Nat.add_mul, Nat.mul_assoc, Nat.mul_add_div hn]

theorem average_value_iff {s n : ℕ} {t} (hn : 0 < n) (hf : n * 56 ≤ 2 ^ 56) :
    (Line.mk t (average (s % 2 ^ 64) (n % 2 ^ 64))).value = (⌊(s : ℚ) / n * 1000⌋₊ : ℚ) / 1000 ↔
      s < 2 ^ 64 ∧ (s % n * 1000 / n = 0 ∨ 100 ≤ s % n * 1000 / n) := by
  have hfl : ⌊(s : ℚ) / n * 1000⌋₊ = s / n * 1000 + s % n * 1000 / n := by
    rw [← thousandths hn, ← Nat.floor_div_eq_div (K := ℚ)]
    push_cast
    ring_nf
  have hm : s % n * 1000 / n < 1000 := by
    rw [Nat.div_lt_iff_lt_mul hn]
    have := Nat.mod_lt s hn
    omega
  rw [hfl, Nat.mod_eq_of_lt (by omega : n < 2 ^ 64), average, if_neg hn.ne', Line.value]
  rw [Nat.cast_add, Nat.cast_mul, Nat.cast_ofNat, add_div, mul_div_cancel_right₀ _ (by norm_num)]
  by_cases hs : s < 2 ^ 64
  · have hw : s % n * 1000 < 2 ^ 64 := by
      have := Nat.mod_lt s hn
      omega
    rw [Nat.mod_eq_of_lt hs, Nat.mod_eq_of_lt hw, add_right_inj, places_iff hm]
    exact (and_iff_right hs).symm
  have hq : s % 2 ^ 64 / n + 1 ≤ s / n := by
    rw [← Nat.add_div_right _ hn]
    exact Nat.div_le_div_right (by omega)
  refine iff_of_false (fun h => ?_) fun h => hs h.1
  have hq' : ((s % 2 ^ 64 / n : ℕ) : ℚ) + 1 ≤ (s / n : ℕ) := by exact_mod_cast hq
  have hp := places_lt_one (s % 2 ^ 64 % n * 1000 % 2 ^ 64 / n)
  have h0 : (0 : ℚ) ≤ ((s % n * 1000 / n : ℕ) : ℚ) / 1000 := by positivity
  linarith

/-- For which durations of a type its lines are right: if a zero occurs, the last is zero; the sum
does not wrap, and the decimals need no leading zero. -/
def Showable (ds : List ℕ) : Prop :=
  (0 ∈ ds → ds.getLast? = some 0) ∧ ds.sum < 2 ^ 64 ∧
    (ds.sum % ds.length * 1000 / ds.length = 0 ∨ 100 ≤ ds.sum % ds.length * 1000 / ds.length)

/-- After the earlier files, the lines of a type show the least, the greatest and the mean duration
of its entries in this one, cut after three decimals. -/
def PrintsTrue (earlier : List TraceInfo) (info : TraceInfo) (t : TypeEnum) : Prop :=
  Prints (OpMinMaxAnalysis.streamResult (gatherAll OpMinMaxAnalysis.add (earlier ++ [info]))) t
    (fun l => IsLeast {d | d ∈ durations info t} l.shown.1 ∧
      IsGreatest {d | d ∈ durations info t} l.shown.2) ∧
  Prints (OpAverageAnalysis.streamResult (gatherAll OpAverageAnalysis.add (earlier ++ [info]))) t
    fun l => l.value = ⌊((durations info t).sum : ℚ) / (durations info t).length * 1000⌋₊ / 1000

theorem printsTrue_iff {earlier info t} (he : ∀ info ∈ earlier, durations info t = [])
    (ht : t ∈ outputOrder) (hn : durations info t ≠ [])
    (ho : ∀ e ∈ info.entries, e.type = t → e.startNs ≤ e.endNs) :
    PrintsTrue earlier info t ↔ Showable (durations info t) := by
  have hl : (durations info t).length * 56 ≤ 2 ^ 56 := by
    have := length_filter_le (·.type = t) info.entries
    have := info.fits
    simp only [durations, length_map]
    omega
  rw [PrintsTrue, OpMinMaxAnalysis.streamResult, prints_iff ht, OpAverageAnalysis.streamResult,
    prints_iff ht, gatherAll_apply _ he ho, gatherAll_apply _ he ho, average_foldl,
    average_value_iff (length_pos_iff.mpr hn) hl]
  exact and_congr_left' ((and_iff_left (OpMinMaxAnalysis.snd_isGreatest hn)).trans
    (OpMinMaxAnalysis.fst_isLeast hn))

/-- Two calls of malloc, the first of no measurable duration. -/
def zeroThenFive : TraceInfo := ⟨[⟨.malloc, 7, 7⟩, ⟨.malloc, 10, 15⟩], by decide⟩

theorem printsTrue_zeroThenFive :
    PrintsTrue [⟨[⟨.free, 1, 2⟩], by decide⟩] zeroThenFive .malloc ↔
      Showable (durations zeroThenFive .malloc) :=
  printsTrue_iff (by decide) (by decide) (by decide) (by decide)

theorem zeroThenFive_min : durations zeroThenFive .malloc = [0, 5] ∧
    ((OpMinMaxAnalysis.streamResult (gatherAll OpMinMaxAnalysis.add [zeroThenFive])).map
      (·.shown)).head? = some (5, 5) := by
  decide

example : gatherAll OpMinMaxAnalysis.add
    [⟨[⟨.free, 1, 4⟩], by decide⟩, ⟨[⟨.free, 5, 10⟩], by decide⟩] .free = (3, 5) := by
  decide

end TraceAnalysis
