import Mathlib

/-!
# The seccomp filter generator

`construct_bpf` of `libc/tools/genseccomp.py` turns the allowed system calls into a BPF program: a
test that the number is not below the first range, tests for the prioritized calls, a binary tree of
comparisons over the ranges of the other numbers, and a return. Jump distances are placeholders
until the size of the tree is known.
-/

namespace GenSeccomp

open List Nat
open Option (bind_eq_bind bind_eq_some_iff bind_some)

/-- The statements of a `sock_filter` array that are generated. -/
inductive SockFilter where
  | jge (k : BitVec 32) (jt jf : BitVec 8)
  | jeq (k : BitVec 32) (jt jf : BitVec 8)
  | retAllow
deriving DecidableEq

inductive Outcome where
  | allow
  | pastEnd
  | outOfProgram
deriving DecidableEq

/-- Execution with accumulator `a`, skipping the next `skip` statements; all jumps are forward.
Reaching the end exactly is falling through to what the user puts there. -/
def run (a : BitVec 32) : List SockFilter → ℕ → Outcome
  | [], 0 => .pastEnd
  | [], _ + 1 => .outOfProgram
  | _ :: rest, skip + 1 => run a rest skip
  | .jge k jt jf :: rest, 0 => run a rest (if k.toNat ≤ a.toNat then jt.toNat else jf.toNat)
  | .jeq k jt jf :: rest, 0 => run a rest (if a.toNat = k.toNat then jt.toNat else jf.toNat)
  | .retAllow :: _, 0 => .allow

abbrev Syscall := String × ℕ

structure SyscallRange where
  names : List String
  begin : ℕ
  stop : ℕ
deriving DecidableEq

def SyscallRange.new (name : String) (value : ℕ) : SyscallRange :=
  { names := [name], begin := value, stop := value + 1 }

def SyscallRange.add (r : SyscallRange) (name : String) : SyscallRange :=
  { r with names := r.names ++ [name], stop := r.stop + 1 }

/-- `syscall_dict[name]`: a later entry replaces an earlier one. -/
def syscallDict (syscalls : List Syscall) (name : String) : Option ℕ :=
  (syscalls.reverse.find? fun s => s.1 == name).map Prod.snd

def extractPrioritySyscalls (syscalls : List Syscall) (priorities : List String) :
    List Syscall × List Syscall :=
  (priorities.filterMap fun name => (syscallDict syscalls name).map fun nr => (name, nr),
    syscalls.filter fun s => !priorities.contains s.1)

/-- The body of the loop of `convert_NRs_to_ranges`. -/
def extendRanges (ranges : List SyscallRange) (s : Syscall) : List SyscallRange :=
  match ranges.getLast? with
  | none => [.new s.1 s.2]
  | some last =>
    if last.stop = s.2 then ranges.dropLast ++ [last.add s.1] else ranges ++ [.new s.1 s.2]

def convertNRsToRanges (syscalls : List Syscall) : List SyscallRange :=
  (syscalls.mergeSort fun s t => s.2 ≤ t.2).foldl extendRanges []

inductive Distance where
  | fail
  | allow
  | const (n : ℕ)
deriving DecidableEq

def Distance.format (fail allow : ℕ) : Distance → ℕ
  | .fail => fail
  | .allow => allow
  | .const n => n

/-- A statement of the generated text, with distances of type `δ`. -/
inductive Statement (δ : Type) where
  | jge (k : ℕ) (jt jf : δ)
  | jeq (k : ℕ) (jt jf : δ)
  | retAllow
deriving DecidableEq

def Statement.format (fail allow : ℕ) : Statement Distance → Statement ℕ
  | .jge k jt jf => .jge k (jt.format fail allow) (jf.format fail allow)
  | .jeq k jt jf => .jeq k (jt.format fail allow) (jf.format fail allow)
  | .retAllow => .retAllow

/-- Both halves are shorter, except of the empty list, whose first half is the empty list again: the
generator never returns. The first argument bounds the depth. -/
def convertToIntermediateBpf : ℕ → List SyscallRange → Option (List (Statement Distance))
  | 0, _ => none
  | depth + 1, ranges =>
    match ranges with
    | [r] => some [.jge r.stop .fail .allow]
    | _ => do
      let half := (ranges.length + 1) / 2
      let first ← convertToIntermediateBpf depth (ranges.take half)
      let second ← convertToIntermediateBpf depth (ranges.drop half)
      let middle ← ranges[half]?
      some (.jge middle.begin (.const first.length) (.const 0) :: first ++ second)

def convertPriorityToIntermediateBpf (prioritySyscalls : List Syscall) :
    List (Statement Distance) :=
  prioritySyscalls.map fun s => .jeq s.2 .allow (.const 0)

def substitutePlaceholders (bpf : List (Statement Distance)) : List (Statement ℕ) :=
  bpf.mapIdx fun i statement => statement.format (bpf.length - i) (bpf.length - i - 1)

def convertRangesToBpf (ranges : List SyscallRange) (prioritySyscalls : List Syscall) :
    Option (List (Statement ℕ)) := do
  let tree ← convertToIntermediateBpf (ranges.length + 1) ranges
  let bpf := substitutePlaceholders (convertPriorityToIntermediateBpf prioritySyscalls ++ tree)
    ++ [.retAllow]
  let bottom ← ranges.head?
  some (.jge bottom.begin 0 bpf.length :: bpf)

/-- The array that `construct_bpf` prints; `none` if it never returns. -/
def constructBpf (syscalls : List Syscall) (priorities : List String) :
    Option (List (Statement ℕ)) :=
  let (prioritySyscalls, otherSyscalls) := extractPrioritySyscalls syscalls priorities
  convertRangesToBpf (convertNRsToRanges otherSyscalls) prioritySyscalls

/-- The initializers of the `sock_filter` array narrow to its field types, which the compiler
refuses for a constant that does not fit. -/
def narrow (w n : ℕ) : Option (BitVec w) :=
  if n < 2 ^ w then some (BitVec.ofNat w n) else none

def Statement.compile : Statement ℕ → Option SockFilter
  | .jge k jt jf => do some (.jge (← narrow 32 k) (← narrow 8 jt) (← narrow 8 jf))
  | .jeq k jt jf => do some (.jeq (← narrow 32 k) (← narrow 8 jt) (← narrow 8 jf))
  | .retAllow => some .retAllow

def compile (bpf : List (Statement ℕ)) : Option (List SockFilter) :=
  bpf.mapM Statement.compile

/-- Runs the statements before they are narrowed. -/
def exec (a : ℕ) : List (Statement ℕ) → ℕ → Outcome
  | [], 0 => .pastEnd
  | [], _ + 1 => .outOfProgram
  | _ :: rest, skip + 1 => exec a rest skip
  | .jge k jt jf :: rest, 0 => exec a rest (if k ≤ a then jt else jf)
  | .jeq k jt jf :: rest, 0 => exec a rest (if a = k then jt else jf)
  | .retAllow :: _, 0 => .allow

variable {tree : List (Statement Distance)} {name : String} {s : Syscall}
  {bottom middle : SyscallRange} {depth n : ℕ}

theorem narrow_toNat {w b} (h : narrow w n = some b) : b.toNat = n := by
  unfold narrow at h
  split at h
  · rename_i hn
    cases h
    rw [BitVec.toNat_ofNat, mod_eq_of_lt hn]
  · cases h

theorem run_compile {a bpf code}
    (h : compile bpf = some code) (skip) : run a code skip = exec a.toNat bpf skip := by
  induction bpf generalizing code skip with
  | nil =>
    cases h
    cases skip <;> rfl
  | cons st bpf ih =>
    simp only [compile, mapM_cons, bind_eq_bind, bind_eq_some_iff,
      Option.pure_def, Option.some.injEq] at h
    obtain ⟨i, hi, rest, hr, rfl⟩ := h
    cases skip with
    | succ skip => simpa only [run, exec] using ih hr skip
    | zero =>
      cases st with
      | retAllow =>
        cases hi
        rfl
      | jge k jt jf | jeq k jt jf =>
        simp only [Statement.compile, bind_eq_bind, bind_eq_some_iff, Option.some.injEq] at hi
        obtain ⟨bk, hk, bt, ht, bf, hf, rfl⟩ := hi
        simp only [run, exec, narrow_toNat hk, narrow_toNat ht, narrow_toNat hf]
        exact ih hr _

theorem exec_append_length (a seg rest n) :
    exec a (seg ++ rest) (seg.length + n) = exec a rest n := by
  induction seg with
  | nil => rw [nil_append, length_nil, zero_add]
  | cons st seg ih =>
    rw [cons_append, length_cons, add_right_comm]
    simpa only [exec] using ih

/-- The return statement follows the rest of the filter: `{allow}` is the length of that rest and
`{fail}` one more. -/
def patch : List (Statement Distance) → List (Statement ℕ)
  | [] => []
  | st :: rest => st.format (rest.length + 1) rest.length :: patch rest

theorem patch_append (seg rest) : ∃ done : List (Statement ℕ), done.length = seg.length ∧
      patch (seg ++ rest) = done ++ patch rest := by
  induction seg with
  | nil => exact ⟨[], rfl, rfl⟩
  | cons st seg ih =>
    obtain ⟨done, hl, hd⟩ := ih
    refine ⟨st.format ((seg ++ rest).length + 1) (seg ++ rest).length :: done, ?_, ?_⟩
    · rw [length_cons, length_cons, hl]
    · rw [cons_append, patch, hd, cons_append]

def closed (bpf : List (Statement Distance)) : List (Statement ℕ) :=
  patch bpf ++ [.retAllow]

section
variable (bpf : List (Statement Distance))
include bpf

theorem substitutePlaceholders_eq_patch : substitutePlaceholders bpf = patch bpf := by
  induction bpf with
  | nil => rfl
  | cons st bpf ih =>
    rw [patch, ← ih]
    unfold substitutePlaceholders
    rw [mapIdx_cons]
    simp

@[simp] theorem length_patch : (patch bpf).length = bpf.length := by
  induction bpf with
  | nil => rfl
  | cons st bpf ih => rw [patch, length_cons, length_cons, ih]

@[simp] theorem length_closed : (closed bpf).length = bpf.length + 1 := by
  rw [closed, length_append, length_patch, length_singleton]

end

theorem closed_cons (st bpf) :
    closed (st :: bpf) = st.format (bpf.length + 1) bpf.length :: closed bpf := rfl

theorem exec_allow (a bpf) : exec a (closed bpf) bpf.length = .allow := by
  have h := exec_append_length a (patch bpf) [.retAllow] 0
  rw [length_patch] at h
  exact h

theorem exec_fail (a bpf) : exec a (closed bpf) (bpf.length + 1) = .pastEnd := by
  have h := exec_append_length a (patch bpf) [.retAllow] 1
  rw [length_patch] at h
  exact h

theorem exec_skip (a seg rest) :
    exec a (closed (seg ++ rest)) seg.length = exec a (closed rest) 0 := by
  obtain ⟨done, hl, hd⟩ := patch_append seg rest
  have h := exec_append_length a done (closed rest) 0
  rw [hl, closed, ← append_assoc, ← hd] at h
  exact h

theorem exec_priority (a prioritySyscalls tree) :
    exec a (closed (convertPriorityToIntermediateBpf prioritySyscalls ++ tree)) 0 =
      if ∃ s ∈ prioritySyscalls, s.2 = a then .allow else exec a (closed tree) 0 := by
  induction prioritySyscalls with
  | nil => rfl
  | cons s prios ih =>
    have hsp : exec a (closed (convertPriorityToIntermediateBpf (s :: prios) ++ tree)) 0 =
        exec a (closed (convertPriorityToIntermediateBpf prios ++ tree))
          (if a = s.2 then (convertPriorityToIntermediateBpf prios ++ tree).length else 0) := rfl
    rw [hsp]
    by_cases hs : a = s.2
    · rw [if_pos hs, exec_allow, if_pos ⟨s, mem_cons_self, hs.symm⟩]
    have hif : (∃ t ∈ s :: prios, t.2 = a) ↔ ∃ t ∈ prios, t.2 = a := by
      rw [exists_mem_cons_iff]
      exact or_iff_right (Ne.symm hs)
    rw [if_neg hs, ih]
    simp only [hif]

def InRanges (ranges : List SyscallRange) (a : ℕ) : Prop :=
  ∃ r ∈ ranges, r.begin ≤ a ∧ a < r.stop

instance (ranges : List SyscallRange) (a : ℕ) : Decidable (InRanges ranges a) :=
  inferInstanceAs (Decidable (∃ r ∈ ranges, r.begin ≤ a ∧ a < r.stop))

/-- Ranges in the order of their first numbers. The last number of one may be the first of the next.
-/
structure Ordered (ranges : List SyscallRange) : Prop where
  begins : ranges.Pairwise fun r r' => r.begin ≤ r'.begin ∧ r.stop ≤ r'.begin + 1
  nonempty : ∀ r ∈ ranges, r.begin < r.stop

structure Ranged (ranges : List SyscallRange) (seen : List ℕ) : Prop where
  ordered : Ordered ranges
  last : ∀ r ∈ ranges, ∃ n ∈ seen, r.stop = n + 1
  mem_iff : ∀ a, InRanges ranges a ↔ a ∈ seen

variable {ranges : List SyscallRange}

theorem Ordered.append_singleton {r} (h : Ordered ranges) (hr : r.begin < r.stop)
    (hl : ∀ q ∈ ranges, q.stop ≤ r.begin + 1) : Ordered (ranges ++ [r]) := by
  constructor
  · refine List.pairwise_append.mpr ⟨h.begins, pairwise_singleton _ _, ?_⟩
    intro q hq r' hr'
    rw [mem_singleton.mp hr']
    have := h.nonempty q hq
    have := hl q hq
    exact ⟨by omega, by omega⟩
  · intro q hq
    rcases mem_append.mp hq with hq | hq
    · exact h.nonempty q hq
    · rw [mem_singleton.mp hq]
      exact hr

theorem inRanges_append (front r a) :
    InRanges (front ++ [r]) a ↔ InRanges front a ∨ (r.begin ≤ a ∧ a < r.stop) := by
  simp only [InRanges, mem_append, mem_singleton, or_and_right, exists_or, exists_eq_left]

variable {seen : List ℕ}

theorem Ranged.new (h : Ranged ranges seen) (s : Syscall) (hl : ∀ n ∈ seen, n ≤ s.2) :
    Ranged (ranges ++ [.new s.1 s.2]) (seen ++ [s.2]) := by
  constructor
  · apply h.ordered.append_singleton
    · exact lt_succ_self s.2
    · intro q hq
      obtain ⟨n, hn, hs⟩ := h.last q hq
      rw [hs]
      exact succ_le_succ (hl n hn)
  · intro r hr
    rcases mem_append.mp hr with hr | hr
    · obtain ⟨n, hn, hs⟩ := h.last r hr
      exact ⟨n, mem_append_left _ hn, hs⟩
    · rw [mem_singleton.mp hr]
      exact ⟨s.2, by simp, rfl⟩
  intro a
  rw [inRanges_append, h.mem_iff, mem_append, mem_singleton]
  have hnw : (SyscallRange.new s.1 s.2).begin ≤ a ∧ a < (SyscallRange.new s.1 s.2).stop ↔
      a = s.2 := by
    simp only [SyscallRange.new]
    omega
  rw [hnw]

theorem Ranged.add {front last}
    (h : Ranged (front ++ [last]) seen) (s : Syscall) (hs : last.stop = s.2) :
    Ranged (front ++ [last.add s.1]) (seen ++ [s.2]) := by
  have hl : last.begin < last.stop := h.ordered.nonempty last (by simp)
  obtain ⟨hf, -, hc⟩ := List.pairwise_append.mp h.ordered.begins
  have hm : ∀ q ∈ front, q ∈ front ++ [last] := fun q => mem_append_left _
  constructor
  · apply Ordered.append_singleton ⟨hf, fun q hq => h.ordered.nonempty q (hm q hq)⟩
    · exact lt_succ_of_lt hl
    · intro q hq
      exact (hc q hq last mem_cons_self).2
  · intro r hr
    rcases mem_append.mp hr with hr | hr
    · obtain ⟨n, hn, hn'⟩ := h.last r (hm r hr)
      exact ⟨n, mem_append_left _ hn, hn'⟩
    · rw [mem_singleton.mp hr]
      exact ⟨s.2, by simp, congrArg (· + 1) hs⟩
  intro a
  rw [inRanges_append, mem_append, mem_singleton, ← h.mem_iff, inRanges_append, or_assoc]
  have ha : (last.add s.1).begin ≤ a ∧ a < (last.add s.1).stop ↔
      (last.begin ≤ a ∧ a < last.stop) ∨ a = s.2 := by
    simp only [SyscallRange.add]
    omega
  rw [ha]

theorem Ranged.extend (h : Ranged ranges seen) (s : Syscall) (hl : ∀ n ∈ seen, n ≤ s.2) :
    Ranged (extendRanges ranges s) (seen ++ [s.2]) := by
  unfold extendRanges
  split
  · rename_i hn
    rw [List.getLast?_eq_none_iff] at hn
    subst hn
    exact h.new s hl
  rename_i last hs
  split
  · rename_i hsp
    rw [← dropLast_append_getLast? last hs] at h
    exact h.add s hsp
  · exact h.new s hl

variable {syscalls : List Syscall} {a : ℕ}

theorem ranged_foldl (h : Ranged ranges seen) (hs : syscalls.Pairwise fun s t => s.2 ≤ t.2)
    (hl : ∀ n ∈ seen, ∀ s ∈ syscalls, n ≤ s.2) :
    Ranged (syscalls.foldl extendRanges ranges) (seen ++ syscalls.map Prod.snd) := by
  induction syscalls generalizing ranges seen with
  | nil => simpa using h
  | cons s syscalls ih =>
    obtain ⟨hf, hr⟩ := List.pairwise_cons.mp hs
    have hnx := h.extend s fun n hn => hl n hn s mem_cons_self
    have := ih hnx hr (by
      intro n hn t ht
      rcases mem_append.mp hn with hn | hn
      · exact hl n hn t (mem_cons_of_mem s ht)
      · rw [mem_singleton.mp hn]
        exact hf t ht)
    simpa using this

theorem ranged_convertNRsToRanges (syscalls) : Ordered (convertNRsToRanges syscalls) ∧
      ∀ a, InRanges (convertNRsToRanges syscalls) a ↔ ∃ s ∈ syscalls, s.2 = a := by
  have hs : (syscalls.mergeSort fun s t => decide (s.2 ≤ t.2)).Pairwise
      fun s t => decide (s.2 ≤ t.2) := by
    apply pairwise_mergeSort
    · simpa using fun _ _ _ => le_trans
    · simpa using le_total
  have hep : Ranged [] [] := ⟨⟨List.Pairwise.nil, by simp⟩, by simp, by simp [InRanges]⟩
  have h := ranged_foldl hep (by simpa using hs) (by simp)
  refine ⟨h.ordered, ?_⟩
  intro a
  rw [convertNRsToRanges, h.mem_iff]
  simp

theorem convertToIntermediateBpf_nil (depth) : convertToIntermediateBpf depth [] = none := by
  induction depth with
  | zero => rfl
  | succ depth ih => simp [convertToIntermediateBpf, ih]

theorem half_bounds (h : 2 ≤ n) : 0 < (n + 1) / 2 ∧ (n + 1) / 2 < n := by
  omega

theorem convertToIntermediateBpf_returns (hn : ranges ≠ []) (hd : ranges.length ≤ depth) :
    ∃ tree, convertToIntermediateBpf depth ranges = some tree := by
  induction depth generalizing ranges with
  | zero => exact absurd (List.length_eq_zero_iff.mp (le_zero.mp hd)) hn
  | succ depth ih =>
    match ranges with
    | [] => exact absurd rfl hn
    | [r] => exact ⟨_, rfl⟩
    | r :: q :: rest =>
      obtain ⟨hp, hl⟩ := half_bounds (n := (r :: q :: rest).length) (by simp)
      generalize hh : ((r :: q :: rest).length + 1) / 2 = half at hp hl
      obtain ⟨first, hf⟩ :
          ∃ tree, convertToIntermediateBpf depth ((r :: q :: rest).take half) = some tree := by
        apply ih
        · rw [← length_pos_iff, length_take]
          omega
        · rw [length_take]
          omega
      obtain ⟨second, hs⟩ :
          ∃ tree, convertToIntermediateBpf depth ((r :: q :: rest).drop half) = some tree := by
        apply ih
        · rw [← length_pos_iff, length_drop]
          omega
        · rw [length_drop]
          omega
      refine ⟨.jge ((r :: q :: rest)[half]).begin (.const first.length) (.const 0) ::
        first ++ second, ?_⟩
      simp only [convertToIntermediateBpf, hh, hf, hs, bind_eq_bind,
        bind_some, List.getElem?_eq_getElem hl]

theorem convertToIntermediateBpf_cases
    (h : convertToIntermediateBpf (depth + 1) ranges = some tree) :
    (∃ r, ranges = [r] ∧ tree = [.jge r.stop .fail .allow]) ∨
    ∃ half first second middle, ranges[half]? = some middle ∧ 0 < half ∧
      convertToIntermediateBpf depth (ranges.take half) = some first ∧
      convertToIntermediateBpf depth (ranges.drop half) = some second ∧
      tree = .jge middle.begin (.const first.length) (.const 0) :: first ++ second := by
  match ranges with
  | [] =>
    rw [convertToIntermediateBpf_nil] at h
    cases h
  | [r] => exact .inl ⟨r, rfl, (Option.some.inj h).symm⟩
  | r :: q :: rest =>
    right
    simp only [convertToIntermediateBpf, bind_eq_bind, bind_eq_some_iff, Option.some.injEq] at h
    obtain ⟨first, hf, second, hs, middle, hm, ht⟩ := h
    exact ⟨_, first, second, middle, hm, (half_bounds (by simp)).1, hf, hs, ht.symm⟩

theorem Ordered.take (h : Ordered ranges) (n) : Ordered (ranges.take n) :=
  ⟨h.begins.sublist (take_sublist n ranges), fun r hr => h.nonempty r (mem_of_mem_take hr)⟩

theorem Ordered.drop (h : Ordered ranges) (n) : Ordered (ranges.drop n) :=
  ⟨h.begins.sublist (drop_sublist n ranges), fun r hr => h.nonempty r (mem_of_mem_drop hr)⟩

theorem drop_eq_cons
    (h : ranges[n]? = some middle) : ranges.drop n = middle :: ranges.drop (n + 1) := by
  obtain ⟨hn, hg⟩ := List.getElem?_eq_some_iff.mp h
  rw [drop_eq_getElem_cons hn, hg]

theorem Ordered.inRanges_drop (h : Ordered ranges) (hmd : ranges[n]? = some middle)
    (ha : middle.begin ≤ a) : InRanges ranges a ↔ InRanges (ranges.drop n) a := by
  constructor
  · rintro ⟨r, hr, hb, hs⟩
    rw [← take_append_drop n ranges] at hr
    rcases mem_append.mp hr with hr | hr
    · have hm : middle ∈ ranges.drop n := by
        rw [drop_eq_cons hmd]
        exact mem_cons_self
      have hc := h.begins
      rw [← take_append_drop n ranges] at hc
      have hl := ((List.pairwise_append.mp hc).2.2 r hr middle hm).2
      have hn := h.nonempty middle (mem_of_mem_drop hm)
      exact ⟨middle, hm, ha, by omega⟩
    · exact ⟨r, hr, hb, hs⟩
  · rintro ⟨r, hr, hin⟩
    exact ⟨r, mem_of_mem_drop hr, hin⟩

theorem Ordered.inRanges_take (h : Ordered ranges) (hm : ranges[n]? = some middle)
    (ha : a < middle.begin) : InRanges ranges a ↔ InRanges (ranges.take n) a := by
  constructor
  · rintro ⟨r, hr, hb, hs⟩
    rw [← take_append_drop n ranges] at hr
    rcases mem_append.mp hr with hr | hr
    · exact ⟨r, hr, hb, hs⟩
    have ho := (h.drop n).begins
    rw [drop_eq_cons hm] at hr ho
    rcases mem_cons.mp hr with rfl | hr
    · omega
    · have := (rel_of_pairwise_cons ho hr).1
      omega
  · rintro ⟨r, hr, hin⟩
    exact ⟨r, mem_of_mem_take hr, hin⟩

/-- From the first number of the first range on, the tree decides membership, whatever stands
between it and the return statement. -/
theorem exec_tree (ht : convertToIntermediateBpf depth ranges = some tree) (h : Ordered ranges)
    (hb : ∀ r ∈ ranges.head?, r.begin ≤ a) (rest) :
    exec a (closed (tree ++ rest)) 0 = if InRanges ranges a then .allow else .pastEnd := by
  induction depth generalizing ranges tree rest with
  | zero => cases ht
  | succ depth ih =>
    rcases convertToIntermediateBpf_cases ht with ⟨r, rfl, rfl⟩ |
      ⟨half, first, second, middle, hm, hp, hf, hs, rfl⟩
    · have hr : r.begin ≤ a := hb r rfl
      have hif : InRanges [r] a ↔ a < r.stop := by simp [InRanges, hr]
      simp only [hif, singleton_append, closed_cons, Statement.format, Distance.format, exec]
      by_cases hsp : r.stop ≤ a
      · rw [if_pos hsp, exec_fail, if_neg (not_lt.mpr hsp)]
      · rw [if_neg hsp, exec_allow, if_pos (not_le.mp hsp)]
    have hst : exec a (closed ((.jge middle.begin (.const first.length) (.const 0) ::
          first ++ second) ++ rest)) 0 =
        exec a (closed (first ++ (second ++ rest)))
          (if middle.begin ≤ a then first.length else 0) := by
      rw [← append_assoc]
      rfl
    rw [hst]
    by_cases hg : middle.begin ≤ a
    · rw [if_pos hg, exec_skip, ih hs (h.drop half) (by
        rw [drop_eq_cons hm]
        rintro r hr
        cases hr
        exact hg)]
      simp only [h.inRanges_drop hm hg]
    · rw [if_neg hg, ih hf (h.take half) (by
        rw [head?_take, if_neg (pos_iff_ne_zero.mp hp)]
        exact hb)]
      simp only [h.inRanges_take hm (not_le.mp hg)]

/-- No later entry of the dictionary has the name. -/
def LastEntry (syscalls : List Syscall) (name : String) (nr : ℕ) : Prop :=
  ∃ before after, syscalls = before ++ (name, nr) :: after ∧ ∀ s ∈ after, s.1 ≠ name

theorem syscallDict_eq_some_iff {nr} :
    syscallDict syscalls name = some nr ↔ LastEntry syscalls name nr := by
  unfold syscallDict LastEntry
  rw [Option.map_eq_some_iff]
  constructor
  · rintro ⟨⟨name', nr'⟩, hf, hn⟩
    obtain ⟨hnm, after, before, hsl, ha⟩ := List.find?_eq_some_iff_append.mp hf
    cases eq_of_beq hnm
    cases hn
    refine ⟨before.reverse, after.reverse, ?_, ?_⟩
    · rw [← reverse_reverse syscalls, hsl]
      simp
    · intro s hs
      simpa using ha s (List.mem_reverse.mp hs)
  · rintro ⟨before, after, rfl, ha⟩
    refine ⟨(name, nr), List.find?_eq_some_iff_append.mpr
      ⟨by simp, after.reverse, before.reverse, by simp, ?_⟩, rfl⟩
    intro s hs
    simpa using ha s (List.mem_reverse.mp hs)

theorem exec_convertRangesToBpf (prios) (ho : Ordered ranges) (hb : ranges.head? = some bottom) :
    ∃ bpf, convertRangesToBpf ranges prios = some bpf ∧ exec a bpf 0 =
        if bottom.begin ≤ a ∧ (InRanges ranges a ∨ ∃ s ∈ prios, s.2 = a)
        then .allow else .pastEnd := by
  obtain ⟨tree, ht⟩ : ∃ tree, convertToIntermediateBpf (ranges.length + 1) ranges = some tree :=
    convertToIntermediateBpf_returns (by rintro rfl; cases hb) (le_succ _)
  have hbf : convertRangesToBpf ranges prios =
      some (.jge bottom.begin 0 (closed (convertPriorityToIntermediateBpf prios ++ tree)).length ::
        closed (convertPriorityToIntermediateBpf prios ++ tree)) := by
    simp only [convertRangesToBpf, ht, hb, substitutePlaceholders_eq_patch, bind_eq_bind, bind_some]
    rfl
  refine ⟨_, hbf, ?_⟩
  by_cases ha : bottom.begin ≤ a
  · have hec := exec_tree ht ho (by rw [hb]; rintro r ⟨⟩; exact ha) ([] : List (Statement Distance))
    rw [append_nil] at hec
    simp only [exec, if_pos ha, exec_priority, hec]
    by_cases hp : ∃ s ∈ prios, s.2 = a
    · rw [if_pos hp, if_pos ⟨ha, .inr hp⟩]
    · simp only [ha, hp, true_and, or_false, if_false]
  · have hf := exec_fail a (convertPriorityToIntermediateBpf prios ++ tree)
    simp only [exec, length_closed, hf, ha, false_and, if_false]

theorem Ordered.bottom_le (h : Ordered ranges) (hbt : ranges.head? = some bottom) :
    bottom.begin ≤ a ↔ ∃ n, InRanges ranges n ∧ n ≤ a := by
  obtain ⟨rest, rfl⟩ := head?_eq_some_iff.mp hbt
  constructor
  · intro ha
    exact ⟨bottom.begin, ⟨bottom, mem_cons_self, le_rfl, h.nonempty bottom mem_cons_self⟩, ha⟩
  rintro ⟨n, ⟨r, hr, hb, -⟩, hn⟩
  rcases mem_cons.mp hr with rfl | hr
  · exact hb.trans hn
  · exact ((rel_of_pairwise_cons h.begins hr).1.trans hb).trans hn

variable {priorities : List String}

theorem mem_prioritySyscalls : (∃ s ∈ (extractPrioritySyscalls syscalls priorities).1, s.2 = a) ↔
      ∃ name ∈ priorities, LastEntry syscalls name a := by
  simp only [extractPrioritySyscalls, mem_filterMap, Option.map_eq_some_iff,
    ← syscallDict_eq_some_iff]
  constructor
  · rintro ⟨s, ⟨name, hn, nr, hnr, rfl⟩, rfl⟩
    exact ⟨name, hn, hnr⟩
  · rintro ⟨name, hn, hnr⟩
    exact ⟨(name, a), ⟨name, hn, a, hnr, rfl⟩, rfl⟩

theorem mem_otherSyscalls :
    s ∈ (extractPrioritySyscalls syscalls priorities).2 ↔ s ∈ syscalls ∧ s.1 ∉ priorities := by
  simp [extractPrioritySyscalls]

def OtherNumber (syscalls : List Syscall) (priorities : List String) (n : ℕ) : Prop :=
  ∃ s ∈ syscalls, s.1 ∉ priorities ∧ s.2 = n

theorem constructBpf_eq_none
    (h : ¬∃ n, OtherNumber syscalls priorities n) : constructBpf syscalls priorities = none := by
  have hep : (extractPrioritySyscalls syscalls priorities).2 = [] := by
    rw [eq_nil_iff_forall_not_mem]
    intro s hs
    obtain ⟨hm, hn⟩ := mem_otherSyscalls.mp hs
    exact h ⟨s.2, s, hm, hn, rfl⟩
  have hr : convertNRsToRanges [] = [] := by simp [convertNRsToRanges]
  simp only [constructBpf, hep, hr, convertRangesToBpf, convertToIntermediateBpf_nil,
    bind_eq_bind, Option.bind_none]

/-- The numbers that pass the lower-bound test and then another one. -/
def Accepts (syscalls : List Syscall) (priorities : List String) (a : ℕ) : Prop :=
  (∃ n, OtherNumber syscalls priorities n ∧ n ≤ a) ∧
    (OtherNumber syscalls priorities a ∨ ∃ name ∈ priorities, LastEntry syscalls name a)

theorem exec_constructBpf (h : ∃ n, OtherNumber syscalls priorities n) :
    ∃ bpf, constructBpf syscalls priorities = some bpf ∧ ∀ a,
      (Accepts syscalls priorities a → exec a bpf 0 = .allow) ∧
      (¬Accepts syscalls priorities a → exec a bpf 0 = .pastEnd) := by
  obtain ⟨ho, hm⟩ :=
    ranged_convertNRsToRanges (extractPrioritySyscalls syscalls priorities).2
  simp only [mem_otherSyscalls, and_assoc] at hm
  obtain ⟨bottom, hbt⟩ : ∃ bottom, (convertNRsToRanges
      (extractPrioritySyscalls syscalls priorities).2).head? = some bottom := by
    obtain ⟨n, hn⟩ := h
    obtain ⟨r, hr, -⟩ := (hm n).mpr hn
    exact ⟨_, head?_eq_some_head (ne_nil_of_mem hr)⟩
  have hec := fun a => exec_convertRangesToBpf (a := a)
    (extractPrioritySyscalls syscalls priorities).1 ho hbt
  obtain ⟨bpf, hb, -⟩ := hec 0
  refine ⟨bpf, hb, ?_⟩
  intro a
  obtain ⟨bpf', hb', ha⟩ := hec a
  cases hb.symm.trans hb'
  have hif : (bottom.begin ≤ a ∧
      (InRanges (convertNRsToRanges (extractPrioritySyscalls syscalls priorities).2) a ∨
        ∃ s ∈ (extractPrioritySyscalls syscalls priorities).1, s.2 = a)) ↔
      Accepts syscalls priorities a := by
    rw [ho.bottom_le hbt, hm, mem_prioritySyscalls]
    simp only [hm]
    rfl
  constructor
  · intro hac
    rw [ha, if_pos (hif.mpr hac)]
  · intro hac
    rw [ha, if_neg fun h => hac (hif.mp h)]

/-- The allowed calls are allowed, all others fall through. -/
def Exact (syscalls : List Syscall) (code : List SockFilter) : Prop :=
  ∀ a : BitVec 32, run a code 0 =
    if ∃ s ∈ syscalls, s.2 = a.toNat then .allow else .pastEnd

/-- No prioritized call is cut off by the lower-bound test: one of the other calls has a number not
above each prioritized number that the accumulator can hold. -/
structure PrioritiesReached (syscalls : List Syscall) (priorities : List String) : Prop where
  other : ∃ s ∈ syscalls, s.1 ∉ priorities
  above : ∀ s ∈ syscalls, s.1 ∈ priorities → s.2 < 2 ^ 32 →
    ∃ o ∈ syscalls, o.1 ∉ priorities ∧ o.2 ≤ s.2
  kept : ∀ s ∈ syscalls, s.1 ∈ priorities → s.2 < 2 ^ 32 →
    OtherNumber syscalls priorities s.2 ∨ ∃ name ∈ priorities, LastEntry syscalls name s.2

theorem LastEntry.mem {nr} (h : LastEntry syscalls name nr) : (name, nr) ∈ syscalls := by
  obtain ⟨before, after, rfl, -⟩ := h
  simp

theorem Accepts.allowed (h : Accepts syscalls priorities a) : ∃ s ∈ syscalls, s.2 = a := by
  obtain ⟨-, ⟨s, hs, -, ha⟩ | ⟨name, -, hl⟩⟩ := h
  · exact ⟨s, hs, ha⟩
  · exact ⟨(name, a), hl.mem, rfl⟩

theorem prioritiesReached_of_accepts (hoh : ∃ n, OtherNumber syscalls priorities n)
    (h : ∀ s ∈ syscalls, s.2 < 2 ^ 32 → Accepts syscalls priorities s.2) :
    PrioritiesReached syscalls priorities := by
  constructor
  · obtain ⟨n, s, hs, hn, -⟩ := hoh
    exact ⟨s, hs, hn⟩
  · intro s hs _ hf
    obtain ⟨⟨n, ⟨o, ho, hn, rfl⟩, hl⟩, -⟩ := h s hs hf
    exact ⟨o, ho, hn, hl⟩
  · intro s hs _ hf
    exact (h s hs hf).2

theorem PrioritiesReached.accepts (h : PrioritiesReached syscalls priorities) (hs : s ∈ syscalls)
    (hf : s.2 < 2 ^ 32) : Accepts syscalls priorities s.2 := by
  by_cases hn : s.1 ∈ priorities
  · obtain ⟨o, ho, hoa, hl⟩ := h.above s hs hn hf
    exact ⟨⟨o.2, ⟨o, ho, hoa, rfl⟩, hl⟩, h.kept s hs hn hf⟩
  · have hoh : OtherNumber syscalls priorities s.2 := ⟨s, hs, hn, rfl⟩
    exact ⟨⟨s.2, hoh, le_rfl⟩, .inl hoh⟩

/-- A list of calls whose array compiles (all jump distances fit into their 8 bits) is
filtered exactly if and only if its prioritized calls are not cut off. -/
theorem constructBpf_exact_iff (syscalls : List Syscall) (priorities : List String)
    (hfit : ∀ bpf, constructBpf syscalls priorities = some bpf → ∃ code, compile bpf = some code) :
    (∃ bpf code, constructBpf syscalls priorities = some bpf ∧ compile bpf = some code ∧
      Exact syscalls code) ↔ PrioritiesReached syscalls priorities := by
  by_cases ho : ∃ n, OtherNumber syscalls priorities n
  · obtain ⟨bpf, hb, hec⟩ := exec_constructBpf ho
    obtain ⟨code, hc⟩ := hfit bpf hb
    constructor
    · rintro ⟨bpf', code', hb', hc', hea⟩
      cases hb.symm.trans hb'
      cases hc.symm.trans hc'
      refine prioritiesReached_of_accepts ho ?_
      intro s hs hl
      by_contra hac
      have hn : (BitVec.ofNat 32 s.2).toNat = s.2 := by
        rw [BitVec.toNat_ofNat, mod_eq_of_lt hl]
      have hal := hea (BitVec.ofNat 32 s.2)
      rw [run_compile hc, hn, (hec s.2).2 hac, if_pos ⟨s, hs, rfl⟩] at hal
      cases hal
    · intro h
      refine ⟨bpf, code, hb, hc, ?_⟩
      intro a
      rw [run_compile hc]
      split <;> rename_i haw
      · obtain ⟨s, hs, ha⟩ := haw
        rw [← ha]
        exact (hec s.2).1 (h.accepts hs (ha ▸ a.isLt))
      · exact (hec _).2 fun hac => haw hac.allowed
  · constructor
    · rintro ⟨bpf, code, hb, -⟩
      rw [constructBpf_eq_none ho] at hb
      cases hb
    · intro h
      obtain ⟨s, hs, hnm⟩ := h.other
      exact absurd ⟨s.2, s, hs, hnm, rfl⟩ ho

def aboveOthers : List Syscall := [("read", 0), ("write", 1), ("futex", 98), ("exit", 93)]

theorem constructBpf_aboveOthers : constructBpf aboveOthers ["futex", "exit"] = some
    [.jge 0 0 4, .jeq 98 2 0, .jeq 93 1 0, .jge 2 1 0, .retAllow] := by
  simp [constructBpf, aboveOthers, extractPrioritySyscalls, syscallDict, convertNRsToRanges,
    extendRanges, convertRangesToBpf, convertToIntermediateBpf, substitutePlaceholders,
    convertPriorityToIntermediateBpf, Statement.format, Distance.format, SyscallRange.new,
    SyscallRange.add, List.mergeSort]

theorem constructBpf_exact_iff_aboveOthers :
    ∃ bpf code, constructBpf aboveOthers ["futex", "exit"] = some bpf ∧
      compile bpf = some code ∧ Exact aboveOthers code := by
  refine (constructBpf_exact_iff aboveOthers ["futex", "exit"] ?_).mpr ⟨?_, ?_, ?_⟩
  · intro bpf hb
    cases constructBpf_aboveOthers.symm.trans hb
    exact ⟨_, rfl⟩
  · exact ⟨("read", 0), by decide⟩
  · intro s _ _ _
    exact ⟨("read", 0), by decide, by decide, zero_le _⟩
  have hl : LastEntry aboveOthers "futex" 98 ∧ LastEntry aboveOthers "exit" 93 :=
    ⟨⟨[("read", 0), ("write", 1)], [("exit", 93)], rfl, by decide⟩,
      ⟨[("read", 0), ("write", 1), ("futex", 98)], [], rfl, by decide⟩⟩
  intro s hs hn _
  simp only [aboveOthers, mem_cons, not_mem_nil, or_false] at hs
  rcases hs with rfl | rfl | rfl | rfl
  · exact absurd hn (by decide)
  · exact absurd hn (by decide)
  · exact .inr ⟨"futex", by decide, hl.1⟩
  · exact .inr ⟨"exit", by decide, hl.2⟩

/-- The prioritized call 98 is below the only other call 211: the first test sends it past
the end. -/
theorem constructBpf_cuts_off_priority :
    ∃ bpf code, constructBpf [("futex", 98), ("sendmsg", 211)] ["futex"] = some bpf ∧
      compile bpf = some code ∧ run 98 code 0 = .pastEnd := by
  refine ⟨[.jge 211 0 3, .jeq 98 1 0, .jge 212 1 0, .retAllow], _, ?_, rfl, by decide⟩
  simp [constructBpf, extractPrioritySyscalls, syscallDict, convertNRsToRanges,
    extendRanges, convertRangesToBpf, convertToIntermediateBpf, substitutePlaceholders,
    convertPriorityToIntermediateBpf, Statement.format, Distance.format, SyscallRange.new]

end GenSeccomp
