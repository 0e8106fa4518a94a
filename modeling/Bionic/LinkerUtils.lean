import Mathlib

/-! `format_string`: tokens in a string are replaced in place, at a position that wraps at the size
of a `size_t`. `normalize_path`: a path is copied, and at ".." the copy is backed up. -/
namespace LinkerUtils

open List Option Nat

abbrev Str := List Char

/-- Pairs of a token and its replacement. -/
abbrev Params := List (Str × Str)

def sizeMax : ℕ := 2 ^ 64

def find (str : Str) (pos : ℕ) : Option ℕ :=
  ((str.drop pos).findIdx? (· = '$')).map (pos + ·)

def substr (str : Str) (pos n : ℕ) : Str := (str.drop pos).take n

def replace (str : Str) (pos n : ℕ) (replacement : Str) : Str :=
  str.take pos ++ replacement ++ str.drop (pos + n)

/-- `pos += replacement.size() - 1` -/
def advance (pos : ℕ) (replacement : Str) : ℕ :=
  (pos + (replacement.length + (sizeMax - 1)) % sizeMax) % sizeMax

/-- The inner loop, up to the pair that matches. -/
def substitute (str : Str) (pos : ℕ) : Params → Str × ℕ
  | [] => (str, pos)
  | (token, replacement) :: params =>
    if substr str (pos + 1) token.length = token then
      (replace str pos (token.length + 1) replacement, advance pos replacement)
    else if substr str (pos + 1) (token.length + 2) = '\x7b' :: token ++ ['\x7d'] then
      (replace str pos (token.length + 3) replacement, advance pos replacement)
    else substitute str pos params

def formatLoop (params : Params) : ℕ → Str → ℕ → Option Str
  | 0, _, _ => none
  | k + 1, str, pos =>
    if pos < str.length then
      match find str pos with
      | none => some str
      | some pos =>
        let (str, pos) := substitute str pos params
        formatLoop params k str ((pos + 1) % sizeMax)
    else some str

/-- `format_string`, in at most `k` iterations. -/
def formatString (params : Params) (k : ℕ) (str : Str) : Option Str := formatLoop params k str 0

/-- How many characters after a dollar sign a pair replaces. -/
def matches? (text : Str) (param : Str × Str) : Option (ℕ × Str) :=
  if param.1 <+: text then some (param.1.length, param.2)
  else if '\x7b' :: param.1 ++ ['\x7d'] <+: text then some (param.1.length + 2, param.2)
  else none

/-- From left to right, the first `skip` characters being replaced already. -/
def scan (params : Params) : ℕ → Str → Str
  | _, [] => []
  | skip + 1, _ :: text => scan params skip text
  | 0, c :: text =>
    if c = '$' then
      match params.findSome? (matches? text) with
      | some (n, replacement) => replacement ++ scan params n text
      | none => c :: scan params 0 text
    else c :: scan params 0 text

variable {params : Params} {text front : Str}

theorem scan_skip (n) (text : Str) : scan params n text = scan params 0 (text.drop n) := by
  induction n generalizing text with
  | zero => rfl
  | succ n ih =>
    cases text with
    | nil => rfl
    | cons c text => exact ih text

theorem scan_append (hf : '$' ∉ front) (text : Str) :
    scan params 0 (front ++ text) = front ++ scan params 0 text := by
  induction front with
  | nil => rfl
  | cons c front ih =>
    rw [mem_cons, not_or] at hf
    rw [cons_append, scan, if_neg (Ne.symm hf.1), ih hf.2, cons_append]

theorem substitute_eq (front text : Str) :
    substitute (front ++ '$' :: text) front.length params =
      match params.findSome? (matches? text) with
      | some (n, replacement) =>
        (front ++ replacement ++ text.drop n, advance front.length replacement)
      | none => (front ++ '$' :: text, front.length) := by
  have hd (n : ℕ) : (front ++ '$' :: text).drop (front.length + (n + 1)) = text.drop n := by
    rw [← drop_drop, drop_left, drop_succ_cons]
  have hp (t : Str) :
      substr (front ++ '$' :: text) (front.length + 1) t.length = t ↔ t <+: text := by
    rw [substr, hd 0, drop_zero, prefix_iff_eq_take, eq_comm]
  induction params with
  | nil => rfl
  | cons param params ih =>
    obtain ⟨token, replacement⟩ := param
    have hb := hp ('\x7b' :: token ++ ['\x7d'])
    rw [length_append, length_cons, length_singleton] at hb
    simp only [substitute, hp, hb, findSome?_cons, matches?, replace, take_left, ih]
    split_ifs
    · rw [hd]
    · rw [hd]
    · rfl

theorem advance_eq {pos replacement} (h : pos + replacement.length < sizeMax) :
    (advance pos replacement + 1) % sizeMax = pos + replacement.length := by
  unfold advance
  unfold sizeMax at h ⊢
  omega

theorem find_of_not_mem (front : Str) (h : '$' ∉ text) :
    find (front ++ text) front.length = none := by
  rw [find, drop_left, findIdx?_eq_none_iff.mpr, map_none]
  rintro c hc
  exact decide_eq_false fun heq => h (heq ▸ hc)

theorem find_append {l} (front r : Str) (h : '$' ∉ l) :
    find (front ++ l ++ '$' :: r) front.length = some (front ++ l).length := by
  have hl : l.findIdx? (· = '$') = none :=
    findIdx?_eq_none_iff.mpr fun c hc => decide_eq_false fun heq => h (heq ▸ hc)
  rw [find, append_assoc, drop_left, findIdx?_append, hl, findIdx?_cons]
  simp

theorem substitute_spec (front text : Str)
    (h : (front ++ scan params 0 ('$' :: text)).length < sizeMax) :
    ∃ written rest pos, substitute (front ++ '$' :: text) front.length params =
        (front ++ written ++ rest, pos) ∧ (pos + 1) % sizeMax = (front ++ written).length ∧
      scan params 0 ('$' :: text) = written ++ scan params 0 rest ∧ rest.length ≤ text.length := by
  rw [scan, if_pos rfl] at h ⊢
  rw [substitute_eq]
  cases hm : params.findSome? (matches? text) with
  | none =>
    rw [hm] at h
    simp only [length_append, length_cons] at h
    refine ⟨['$'], text, front.length, ?_, ?_, rfl, le_rfl⟩
    · rw [append_assoc, singleton_append]
    · rw [length_append, length_singleton, mod_eq_of_lt (by omega)]
  | some m =>
    obtain ⟨n, replacement⟩ := m
    rw [hm] at h
    simp only [length_append] at h
    refine ⟨replacement, text.drop n, _, rfl, ?_, ?_, ?_⟩
    · rw [advance_eq (by omega), length_append]
    · exact congrArg _ (scan_skip n text)
    · rw [length_drop]
      exact sub_le _ _

theorem formatLoop_eq (params : Params) (front text : Str)
    (h : (front ++ scan params 0 text).length < sizeMax) :
    ∃ k, formatLoop params k (front ++ text) front.length = some (front ++ scan params 0 text) := by
  induction hn : text.length using Nat.strongRecOn generalizing front text with
  | ind n ih =>
    by_cases hm : '$' ∈ text
    · obtain ⟨l, r, rfl, hl⟩ := eq_append_cons_of_mem hm
      have hlt : front.length < (front ++ l ++ '$' :: r).length := by
        rw [length_append, length_append, length_cons]
        omega
      rw [scan_append hl, ← append_assoc] at h ⊢
      obtain ⟨written, rest, pos, hs, hp, hsc, hr⟩ := substitute_spec _ _ h
      rw [hsc, ← append_assoc] at h
      rw [length_append, length_cons] at hn
      obtain ⟨k, hk⟩ := ih rest.length (by omega) (front ++ l ++ written) rest h rfl
      refine ⟨k + 1, ?_⟩
      rw [formatLoop, if_pos hlt, find_append front r hl, hsc]
      simp only [hs, hp]
      rw [hk, append_assoc, append_assoc]
    · refine ⟨1, ?_⟩
      have hsc : scan params 0 (text ++ []) = text ++ [] := scan_append hm []
      rw [append_nil] at hsc
      rw [formatLoop, find_of_not_mem front hm, hsc, ite_self]

/-- `format_string` returns the scan of the string, if that has a size. -/
theorem formatString_eq_scan (params : Params) (str : Str)
    (h : (scan params 0 str).length < sizeMax) :
    ∃ k, formatString params k str = some (scan params 0 str) :=
  formatLoop_eq params [] str h

theorem formatString_lib : ∃ k, formatString [("LIB".toList, "$lib".toList), ("X".toList, [])] k
    "$X/$\x7bLIB\x7d$".toList = some "/$lib$".toList :=
  formatString_eq_scan _ _ (by decide)

section

/-- The inner loop, over what stands before `out_ptr`, backwards. -/
def backUp : Str → Str
  | [] => []
  | c :: out => if c = '/' then out else backUp out

/-- A write at `out_ptr`, which is inside of `buf` or fails. -/
def put (len : ℕ) (out : Str) (c : Char) : Option Str :=
  if out.length < len then some (c :: out) else none

def normalizeLoop (len : ℕ) : Str → Str → Option Str
  | [], out => some out
  | '/' :: '.' :: '/' :: path, out => normalizeLoop len ('/' :: path) out
  | ['/', '.', '.'], out => put len (backUp out) '/'
  | '/' :: '.' :: '.' :: '/' :: path, out => normalizeLoop len ('/' :: path) (backUp out)
  | '/' :: '/' :: path, out => normalizeLoop len ('/' :: path) out
  | c :: path, out => (put len out c).bind (normalizeLoop len path)
termination_by path => path.length

/-- `none` inside is its false, outside a write behind its buffer. -/
def normalizePath (path : Str) : Option (Option Str) :=
  if path.head? = some '/' then
    let len := path.length + 1
    do
      let out ← normalizeLoop len path []
      let _ ← put len out '\x00'
      some (some out.reverse)
  else some none

def components : Str → List Str
  | [] => [[]]
  | c :: path => if c = '/' then [] :: components path else (components path).modifyHead (c :: ·)

def join (comps : List Str) : Str := comps.flatMap ('/' :: ·)

def SlashFree (comps : List Str) : Prop := ∀ comp ∈ comps, '/' ∉ comp

def push (stack : List Str) (comp : Str) (final : Bool) : List Str :=
  if comp = ['.', '.'] then if final then [] :: stack.tail else stack.tail
  else if !final && (comp = [] || comp = ['.']) then stack
  else comp :: stack

def process : List Str → List Str → List Str
  | [], stack => stack
  | comp :: comps, stack => process comps (push stack comp comps.isEmpty)

def normalized (comps : List Str) : List Str := (process comps []).reverse

/-- The last component is empty if the path ends in a slash. -/
structure Normal (comps : List Str) : Prop where
  inner : ∀ comp ∈ comps.dropLast, comp ≠ [] ∧ comp ≠ ['.']
  noDotDot : ['.', '.'] ∉ comps

/-- What stands before `out_ptr` when the stack has been written. -/
def written (stack : List Str) : Str := (join stack.reverse).reverse

@[simp] theorem join_cons (comp : Str) (comps) :
    join (comp :: comps) = '/' :: (comp ++ join comps) := rfl

@[simp] theorem written_cons (comp : Str) (stack) :
    written (comp :: stack) = comp.reverse ++ '/' :: written stack := by
  simp [written, join]

theorem components_spec (path : Str) :
    join (components path) = '/' :: path ∧ SlashFree (components path) := by
  rw [SlashFree]
  induction path with
  | nil => exact ⟨rfl, by simp [components]⟩
  | cons c path ih =>
    rw [components]
    obtain ⟨hj, hs⟩ := ih
    split_ifs with hc
    · rw [join_cons, hj, hc]
      exact ⟨rfl, forall_mem_cons.2 ⟨not_mem_nil, hs⟩⟩
    cases hcm : components path with
    | nil => rw [hcm] at hj; cases hj
    | cons comp comps =>
      rw [hcm] at hj hs
      rw [forall_mem_cons] at hs
      rw [join_cons, cons.injEq] at hj
      refine ⟨by simp [hj.2], forall_mem_cons.2 ⟨?_, hs.2⟩⟩
      rw [mem_cons, not_or]
      exact ⟨Ne.symm hc, hs.1⟩

variable {len : ℕ} {comp : Str} {comps stack : List Str}

theorem backUp_written (h : SlashFree stack) : backUp (written stack) = written stack.tail := by
  cases stack with
  | nil => rfl
  | cons comp stack =>
    have hc : ∀ out, '/' ∉ out → backUp (out ++ '/' :: written stack) = written stack := by
      intro out
      induction out with
      | nil => exact fun _ => if_pos rfl
      | cons c out ih =>
        intro ho
        rw [mem_cons, not_or] at ho
        rw [cons_append, backUp, if_neg (Ne.symm ho.1), ih ho.2]
    rw [written_cons]
    exact hc _ (by simpa using h comp mem_cons_self)

theorem normalizeLoop_copy (path : Str) (h : '/' ∉ comp) (out : Str)
    (hl : out.length + comp.length ≤ len) :
    normalizeLoop len (comp ++ path) out = normalizeLoop len path (comp.reverse ++ out) := by
  induction comp generalizing out with
  | nil => rfl
  | cons c comp ih =>
    rw [mem_cons, not_or] at h
    rw [length_cons] at hl
    rw [cons_append, normalizeLoop, put, if_pos (by omega)]
    · rw [bind_some, ih h.2 _ (by rw [length_cons]; omega)]
      simp
    all_goals simp [Ne.symm h.1]

theorem length_written_tail (stack) : (written stack.tail).length ≤ (written stack).length := by
  cases stack with
  | nil => exact le_rfl
  | cons comp stack => simp; omega

theorem normalizeLoop_component (hc : '/' ∉ comp) (hs : SlashFree stack)
    (hl : (written stack).length + (join (comp :: comps)).length < len) :
    normalizeLoop len (join (comp :: comps)) (written stack) =
      normalizeLoop len (join comps) (written (push stack comp comps.isEmpty)) := by
  have ht := length_written_tail stack
  rw [push]
  split_ifs with hdt hf hd
  · subst hdt
    obtain rfl := List.isEmpty_iff.1 hf
    rw [show join [['.', '.']] = ['/', '.', '.'] from rfl, normalizeLoop, put,
      backUp_written hs, if_pos (by omega), join, flatMap_nil, normalizeLoop, written_cons]
    rfl
  · subst hdt
    cases comps with
    | nil => exact absurd rfl hf
    | cons comp comps =>
      rw [join_cons, join_cons, cons_append, cons_append, nil_append, normalizeLoop,
        backUp_written hs]
  · cases comps with
    | nil => simp at hd
    | cons comp' comps =>
      simp at hd
      rcases hd with rfl | rfl
      · rw [join_cons, join_cons, nil_append, normalizeLoop]
      · rw [join_cons, join_cons, cons_append, nil_append, normalizeLoop]
  · rw [join_cons, length_cons, length_append] at hl
    rw [join_cons, normalizeLoop, put, if_pos (by omega), bind_some,
      normalizeLoop_copy _ hc _ (by rw [length_cons]; omega), written_cons]
    all_goals
      rcases comp with _ | ⟨a, _ | ⟨b, _ | ⟨c, comp⟩⟩⟩ <;> cases comps <;> grind [join]

theorem push_spec (final) (hc : '/' ∉ comp) (hs : SlashFree stack) :
    SlashFree (push stack comp final) ∧
      (written (push stack comp final)).length ≤ (written stack).length + comp.length + 1 := by
  have ht := length_written_tail stack
  have hr : SlashFree stack.tail := fun comp hm => hs comp (mem_of_mem_tail hm)
  rw [push]
  split_ifs
  · exact ⟨forall_mem_cons.2 ⟨not_mem_nil, hr⟩, by simp; omega⟩
  · exact ⟨hr, by omega⟩
  · exact ⟨hs, by omega⟩
  · exact ⟨forall_mem_cons.2 ⟨hc, hs⟩, by simp; omega⟩

theorem normalizeLoop_join (hc : SlashFree comps) (hs : SlashFree stack)
    (hl : (written stack).length + (join comps).length < len) :
    normalizeLoop len (join comps) (written stack) = some (written (process comps stack)) ∧
      (written (process comps stack)).length < len ∧ SlashFree (process comps stack) := by
  induction comps generalizing stack with
  | nil =>
    rw [join, flatMap_nil, normalizeLoop, process]
    exact ⟨rfl, by simpa [join] using hl, hs⟩
  | cons comp comps ih =>
    rw [SlashFree, forall_mem_cons] at hc
    obtain ⟨hsa, hp⟩ := push_spec comps.isEmpty hc.1 hs
    rw [normalizeLoop_component hc.1 hs hl]
    rw [join_cons, length_cons, length_append] at hl
    exact ih hc.2 hsa (by omega)

theorem head_join (hn : comps ≠ []) : (join comps).head? = some '/' := by
  cases comps with
  | nil => exact absurd rfl hn
  | cons comp comps => rfl

theorem normalizePath_join (hne : comps ≠ []) (hc : SlashFree comps) :
    SlashFree (normalized comps) ∧
      normalizePath (join comps) = some (some (join (normalized comps))) := by
  have hn : SlashFree [] := nofun
  obtain ⟨hlp, hl, hf⟩ :=
    normalizeLoop_join hc hn (lt_succ_of_le (zero_add (join comps).length).le)
  refine ⟨fun comp hm => hf comp (mem_reverse.1 hm), ?_⟩
  rw [show written [] = [] from rfl] at hlp
  rw [normalizePath, if_pos (head_join hne)]
  simp only [hlp, put, bind_eq_bind, bind_some, if_pos hl]
  rw [written, reverse_reverse, normalized]

def Plain (comp : Str) : Prop := (comp ≠ [] ∧ comp ≠ ['.']) ∧ comp ≠ ['.', '.']

theorem normal_cons (hc : comp ≠ ['.', '.']) (hs : ∀ comp ∈ stack, Plain comp) :
    Normal (comp :: stack).reverse := by
  rw [reverse_cons]
  refine ⟨fun c hm => ?_, fun hm => ?_⟩
  · rw [dropLast_concat, mem_reverse] at hm
    exact (hs c hm).1
  · rw [mem_append, mem_reverse, mem_singleton] at hm
    exact hm.elim (fun hm => (hs _ hm).2 rfl) hc.symm

theorem normal_process (comps stack) (hn : comps ≠ []) (hs : ∀ comp ∈ stack, Plain comp) :
    process comps stack ≠ [] ∧ Normal (process comps stack).reverse := by
  induction comps generalizing stack with
  | nil => exact absurd rfl hn
  | cons comp comps ih =>
    have ht : ∀ comp ∈ stack.tail, Plain comp := fun c hm => hs c (mem_of_mem_tail hm)
    rw [process, push]
    cases comps with
    | nil =>
      simp only [isEmpty_nil, if_true, Bool.not_true, Bool.false_and, Bool.false_eq_true, if_false]
      split_ifs with hdt
      · exact ⟨nofun, normal_cons (by decide) ht⟩
      · exact ⟨nofun, normal_cons hdt hs⟩
    | cons next comps =>
      simp only [isEmpty_cons, Bool.false_eq_true, if_false, Bool.not_false, Bool.true_and,
        Bool.or_eq_true, decide_eq_true_eq]
      refine ih _ nofun ?_
      split_ifs with hdt hd
      · exact ht
      · exact hs
      · exact forall_mem_cons.2 ⟨⟨not_or.1 hd, hdt⟩, hs⟩

theorem process_of_normal (h : Normal comps) (stack) :
    process comps stack = comps.reverse ++ stack := by
  induction comps generalizing stack with
  | nil => rfl
  | cons comp comps ih =>
    obtain ⟨hin, hd⟩ := h
    rw [mem_cons, not_or] at hd
    have hp : push stack comp comps.isEmpty = comp :: stack := by
      rw [push, if_neg (Ne.symm hd.1), if_neg]
      cases comps with
      | nil => simp
      | cons next comps =>
        have hc := hin comp mem_cons_self
        simp [hc]
    rw [process, hp, reverse_cons, append_assoc, singleton_append]
    refine ih ⟨fun c hm => hin c ?_, hd.2⟩ _
    cases comps with
    | nil => exact absurd hm not_mem_nil
    | cons next comps => exact mem_cons_of_mem _ hm

/-- `normalize_path` of an absolute path. -/
theorem normalizePath_spec (path : Str) :
    let comps := normalized (components path)
    normalizePath ('/' :: path) = some (some (join comps)) ∧ (join comps).head? = some '/' ∧
      SlashFree comps ∧ Normal comps ∧ normalizePath (join comps) = some (some (join comps)) := by
  intro comps
  obtain ⟨hj, hs⟩ := components_spec path
  have hne : components path ≠ [] := fun hnl => by simp [hnl, join] at hj
  obtain ⟨hk, hn⟩ : _ ∧ Normal comps := normal_process (components path) [] hne nofun
  obtain ⟨hf, hp⟩ := normalizePath_join hne hs
  have hc : comps ≠ [] := mt reverse_eq_nil_iff.1 hk
  have ha := (normalizePath_join hc hf).2
  rw [hj] at hp
  rw [normalized, process_of_normal hn, append_nil, reverse_reverse] at ha
  exact ⟨hp, head_join hc, hf, hn, ha⟩

end

end LinkerUtils
