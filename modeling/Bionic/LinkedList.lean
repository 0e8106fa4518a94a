import Mathlib

/-!
# The linked list of the linker

`LinkedList` of `linked_list.h` over a memory of entries, with an allocator that may reuse what
was freed: it is a sequence, its tail is the last entry, and what it drops it frees once.
-/
namespace LinkedList

open List Function

/-- The entries in memory, head and tail once the header is allocated, and the calls of the
allocator. The null pointer is 0. -/
structure State (α : Type) where
  next : ℕ → ℕ
  element : ℕ → α
  header : Option (ℕ × ℕ)
  allocs : List ℕ
  frees : List ℕ

variable {α : Type}

def State.head (s : State α) : ℕ := (s.header.getD (0, 0)).1

def State.tail (s : State α) : ℕ := (s.header.getD (0, 0)).2

/-- Hands out unused entries, and leaves anything in one it gets back. -/
structure Allocator (α : Type) where
  alloc : State α → ℕ
  junk : State α → ℕ → ℕ × α
  fresh : ∀ s, alloc s ≠ 0 ∧ s.allocs.count (alloc s) = s.frees.count (alloc s)

instance : Inhabited (Allocator α) where
  default :=
    { alloc := fun s => (s.allocs ++ s.frees).sum + 1
      junk := fun s e => (0, s.element e)
      fresh := fun s => by
        have hs : (s.allocs ++ s.frees).sum + 1 ∉ s.allocs ++ s.frees := fun h => by
          have := le_sum_of_mem h
          omega
        rw [mem_append, not_or] at hs
        exact ⟨by omega, by rw [count_eq_zero_of_not_mem hs.1, count_eq_zero_of_not_mem hs.2]⟩ }

variable (A : Allocator α)

def Allocator.free (s : State α) (e : ℕ) : State α :=
  { s with
    next := update s.next e (A.junk s e).1
    element := update s.element e (A.junk s e).2
    frees := s.frees ++ [e] }

def pushFront (s : State α) (x : α) : State α :=
  let p := A.alloc s
  { next := update s.next p s.head
    element := update s.element p x
    header := some (p, if s.tail = 0 then p else s.tail)
    allocs := s.allocs ++ [p]
    frees := s.frees }

def pushBack (s : State α) (x : α) : State α :=
  let p := A.alloc s
  let next := update s.next p 0
  { next := if s.tail = 0 then next else update next s.tail p
    element := update s.element p x
    header := some (if s.tail = 0 then p else s.head, p)
    allocs := s.allocs ++ [p]
    frees := s.frees }

def popFront (s : State α) : State α × Option α :=
  if s.head = 0 then (s, none)
  else
    let e := s.head
    let s' := A.free { s with header := some (s.next e, s.tail) } e
    (if s'.head = 0 then { s' with header := some (0, 0) } else s', some (s.element e))

def clearLoop : ℕ → State α → State α
  | 0, s => s
  | n + 1, s =>
    if s.head = 0 then s
    else clearLoop n (A.free { s with header := some (s.next s.head, s.tail) } s.head)

/-- There are at most as many entries as allocations. -/
def clear (s : State α) : State α :=
  if s.head = 0 then s
  else
    let s' := clearLoop A s.allocs.length s
    { s' with header := some (s'.head, 0) }

/-- `e` leaves the entry `p` before it, or the head. -/
def unlink (s : State α) (p e : ℕ) : State α :=
  let head := if p = 0 then s.next e else s.head
  { s with
    next := if p = 0 then s.next else update s.next p (s.next e)
    header := some (head, if s.tail = e then p else s.tail) }

def removeLoop (predicate : α → Bool) : ℕ → ℕ → ℕ → State α → State α
  | 0, _, _, s => s
  | n + 1, e, p, s =>
    if e = 0 then s
    else if predicate (s.element e) then
      removeLoop predicate n (s.next e) p (A.free (unlink s p e) e)
    else removeLoop predicate n (s.next e) e s

def removeIf (s : State α) (predicate : α → Bool) : State α :=
  if s.head = 0 then s else removeLoop A predicate s.allocs.length s.head 0 s

def findLoop [DecidableEq α] (s : State α) (value : α) : ℕ → ℕ → ℕ
  | 0, e => e
  | n + 1, e =>
    if e = 0 then 0 else if s.element e = value then e else findLoop s value n (s.next e)

/-- The entry of the iterator; `end()` is the null pointer. -/
def find [DecidableEq α] (s : State α) (value : α) : ℕ := findLoop s value s.allocs.length s.head

/-- The elements that an iterator comes to. -/
def readFrom (s : State α) : ℕ → ℕ → List α
  | 0, _ => []
  | n + 1, e => if e = 0 then [] else s.element e :: readFrom s n (s.next e)

inductive Op (α : Type) where
  | pushFront (x : α)
  | pushBack (x : α)
  | popFront
  | removeIf (predicate : α → Bool)
  | clear
  | find (value : α)

/-- An operation with what it returns; an iterator is read through. -/
def step [DecidableEq α] (s : State α) : Op α → State α × List α
  | .pushFront x => (pushFront A s x, [])
  | .pushBack x => (pushBack A s x, [])
  | .popFront => ((popFront A s).1, (popFront A s).2.toList)
  | .removeIf predicate => (removeIf A s predicate, [])
  | .clear => (clear A s, [])
  | .find value => (s, readFrom s s.allocs.length (find s value))

def seqStep [DecidableEq α] (xs : List α) : Op α → List α × List α
  | .pushFront x => (x :: xs, [])
  | .pushBack x => (xs ++ [x], [])
  | .popFront => (xs.drop 1, xs.head?.toList)
  | .removeIf predicate => (xs.filter (!predicate ·), [])
  | .clear => ([], [])
  | .find value => (xs, xs.dropWhile (· ≠ value))

def run {σ : Type} (f : σ → Op α → σ × List α) : σ → List (Op α) → σ × List (List α)
  | s, [] => (s, [])
  | s, op :: ops => ((run f (f s op).1 ops).1, (f s op).2 :: (run f (f s op).1 ops).2)

/-- The entries from the address `a` on, up to the address `b`. -/
def Seg (next : ℕ → ℕ) : ℕ → List ℕ → ℕ → Prop
  | a, [], b => a = b
  | a, e :: es, b => a = e ∧ Seg next (next e) es b

structure Linked (s : State α) (es : List ℕ) : Prop where
  seg : Seg s.next s.head es 0
  nodup : es.Nodup
  null : 0 ∉ es
  freed : s.allocs.Perm (s.frees ++ es)

/-- Its entries are all that was allocated and not freed, and the tail is the last of them or null.
-/
def Holds (s : State α) (xs : List α) : Prop :=
  ∃ es, Linked s es ∧ s.tail = es.getLastD 0 ∧ es.map s.element = xs

section
variable {next : ℕ → ℕ} {a b c e v : ℕ} {es fs : List ℕ}

theorem seg_append : Seg next a (es ++ fs) c ↔ ∃ b, Seg next a es b ∧ Seg next b fs c := by
  induction es generalizing a with
  | nil => exact ⟨fun h => ⟨a, rfl, h⟩, fun ⟨_, hb, h⟩ => hb ▸ h⟩
  | cons e es ih =>
    rw [cons_append, Seg, ih]
    exact ⟨fun ⟨h, b, hb⟩ => ⟨b, ⟨h, hb.1⟩, hb.2⟩, fun ⟨b, hb, h⟩ => ⟨hb.1, b, hb.2, h⟩⟩

theorem Seg.update (h : Seg next a es b) (he : e ∉ es) : Seg (update next e v) a es b := by
  induction es generalizing a with
  | nil => exact h
  | cons f fs ih =>
    rw [mem_cons, not_or] at he
    refine ⟨h.1, ?_⟩
    rw [update_of_ne (Ne.symm he.1)]
    exact ih h.2 he.2

theorem Seg.redirect (h : Seg next a (es ++ [e]) b) (he : e ∉ es) :
    Seg (Function.update next e c) a (es ++ [e]) c := by
  obtain ⟨d, hd, rfl, -⟩ := seg_append.mp h
  exact seg_append.mpr ⟨d, hd.update he, rfl, update_self ..⟩

theorem Seg.head_eq (h : Seg next a es 0) : a = es.headD 0 := by
  cases es with
  | nil => exact h
  | cons e es => exact h.1

end

variable {A} {s : State α} {es pre rest : List ℕ} {e : ℕ} {x : α}

theorem Linked.head_eq_zero (h : Linked s es) : s.head = 0 ↔ es = [] := by
  rw [h.seg.head_eq]
  cases es with
  | nil => simp
  | cons e es => simpa using fun he : e = 0 => h.null (he ▸ mem_cons_self)

theorem Linked.fresh (h : Linked s es) : A.alloc s ∉ es := by
  have hc := h.freed.count_eq (A.alloc s)
  rw [count_append, (A.fresh s).2] at hc
  exact count_eq_zero.mp (by omega)

theorem Linked.length_le (h : Linked s es) : es.length ≤ s.allocs.length := by
  rw [h.freed.length_eq, length_append]
  omega

theorem Linked.tail_eq_zero (h : Linked s es) (ht : s.tail = es.getLastD 0) :
    s.tail = 0 ↔ es = [] := by
  rw [ht]
  rcases eq_nil_or_concat' es with rfl | ⟨init, t, rfl⟩
  · simp
  · simpa using fun h0 : t = 0 => h.null (by simp [h0])

theorem map_update {f : ℕ → α} (h : e ∉ es) : es.map (update f e x) = es.map f :=
  map_congr_left fun _ he => update_of_ne (ne_of_mem_of_not_mem he h) ..

theorem Linked.freed_snoc (h : Linked s es) (p) : (s.allocs ++ [p]).Perm (s.frees ++ p :: es) :=
  (perm_append_singleton p _).trans ((h.freed.cons p).trans perm_middle.symm)

theorem holds_pushFront {xs} (h : Holds s xs) : Holds (pushFront A s x) (x :: xs) := by
  obtain ⟨es, hl, ht, rfl⟩ := h
  have hn := hl.fresh (A := A)
  refine ⟨A.alloc s :: es, ⟨⟨rfl, ?_⟩, hl.nodup.cons hn, ?_, hl.freed_snoc _⟩, ?_, ?_⟩
  · change Seg (update s.next (A.alloc s) s.head) (update s.next (A.alloc s) s.head _) es 0
    rw [update_self]
    exact hl.seg.update hn
  · exact fun h0 => (mem_cons.mp h0).elim (fun h => (A.fresh s).1 h.symm) hl.null
  · change (if s.tail = 0 then A.alloc s else s.tail) = _
    split
    case isTrue h => rw [(hl.tail_eq_zero ht).mp h]; rfl
    case isFalse h =>
      cases es with
      | nil => exact absurd ht h
      | cons => exact ht
  · change update s.element (A.alloc s) x (A.alloc s) :: map (update s.element (A.alloc s) x) es = _
    rw [update_self, map_update hn]

theorem holds_pushBack {xs} (h : Holds s xs) : Holds (pushBack A s x) (xs ++ [x]) := by
  obtain ⟨es, hl, ht, rfl⟩ := h
  have hn := hl.fresh (A := A)
  refine ⟨es ++ [A.alloc s], ⟨?_, ?_, ?_, ?_⟩, by simp [pushBack, State.tail], ?_⟩
  · change Seg (if s.tail = 0 then _ else _) (if s.tail = 0 then _ else _) _ _
    simp only [hl.tail_eq_zero ht]
    split
    case isTrue he => simp [he, Seg]
    case isFalse he =>
      obtain ⟨init, t, rfl⟩ := (eq_nil_or_concat' es).resolve_left he
      rw [getLastD_concat] at ht
      rw [ht]
      have hd : t ∉ init := fun hm => (nodup_append.mp hl.nodup).2.2 t hm t (by simp) rfl
      have hp : A.alloc s ≠ t := fun h => hn (by simp [h])
      exact seg_append.mpr ⟨_, (hl.seg.update hn).redirect hd, rfl, by simp [hp, Seg]⟩
  · exact nodup_append.mpr ⟨hl.nodup, nodup_singleton _, by simp; grind⟩
  · simpa using ⟨hl.null, (A.fresh s).1.symm⟩
  · exact append_assoc s.frees .. ▸ hl.freed.append_right [A.alloc s]
  · change map (update s.element (A.alloc s) x) _ = _
    rw [map_append, map_update hn, map_singleton, update_self]

theorem Linked.pop (h : Linked s (e :: es)) (t) :
    Linked (A.free { s with header := some (s.next e, t) } e) es := by
  obtain ⟨hn, hd⟩ := nodup_cons.mp h.nodup
  refine ⟨h.seg.2.update hn, hd, fun h0 => h.null (mem_cons_of_mem e h0), ?_⟩
  exact h.freed.trans (by simp [Allocator.free])

theorem Linked.unlink (h : Linked s (pre ++ e :: rest)) :
    Linked (A.free (unlink s (pre.getLastD 0) e) e) (pre ++ rest) := by
  obtain ⟨f, hp, rfl, hr⟩ := seg_append.mp h.seg
  obtain ⟨hn, hd⟩ := nodup_cons.mp (nodup_middle.mp h.nodup)
  refine ⟨Seg.update ?_ hn, hd, fun h0 => h.null (by grind), ?_⟩
  · change Seg (if _ then _ else _) (if _ then _ else _) _ _
    rcases eq_nil_or_concat' pre with rfl | ⟨init, p, rfl⟩
    · exact hr
    have h0 : p ≠ 0 := fun h0 => h.null (by simp [h0])
    have hi : p ∉ init ∧ p ∉ rest := by grind
    rw [getLastD_concat, if_neg h0, if_neg h0]
    exact seg_append.mpr ⟨_, hp.redirect hi.1, hr.update hi.2⟩
  · refine h.freed.trans ?_
    simpa [Allocator.free, LinkedList.unlink] using perm_middle.append_left s.frees

theorem unlink_tail (hd : (pre ++ e :: rest).Nodup) (ht : s.tail = (pre ++ e :: rest).getLastD 0) :
    (LinkedList.unlink s (pre.getLastD 0) e).tail = (pre ++ rest).getLastD 0 := by
  change (if s.tail = e then _ else s.tail) = _
  rcases eq_nil_or_concat' rest with rfl | ⟨init, t, rfl⟩
  · rw [getLastD_concat] at ht
    rw [if_pos ht, append_nil]
  rw [← cons_append, ← append_assoc, getLastD_concat] at ht
  have hn : t ≠ e := by grind
  rw [ht, if_neg hn, ← append_assoc, getLastD_concat]

theorem holds_popFront {xs} (h : Holds s xs) :
    Holds (popFront A s).1 (xs.drop 1) ∧ (popFront A s).2 = xs.head? := by
  obtain ⟨es, hl, ht, rfl⟩ := h
  unfold popFront
  cases es with
  | nil =>
    rw [if_pos (hl.head_eq_zero.mpr rfl)]
    exact ⟨⟨[], hl, ht, rfl⟩, rfl⟩
  | cons e es =>
    rw [if_neg (hl.head_eq_zero.not.mpr (by simp)), hl.seg.1]
    refine ⟨?_, rfl⟩
    have hp := hl.pop (A := A)
    dsimp only
    split
    case isTrue h0 =>
      obtain rfl := (hp s.tail).head_eq_zero.mp h0
      exact ⟨[], ⟨by rfl, nodup_nil, (hp 0).null, (hp 0).freed⟩, rfl, rfl⟩
    case isFalse h0 =>
      refine ⟨es, hp s.tail, ?_, map_update (nodup_cons.mp hl.nodup).1⟩
      cases es with
      | nil => exact absurd ((hp s.tail).head_eq_zero.mpr rfl) h0
      | cons => exact ht

theorem linked_clearLoop {n} (h : Linked s es) (hn : es.length ≤ n) :
    Linked (clearLoop A n s) [] := by
  induction n generalizing s es with
  | zero => exact eq_nil_of_length_eq_zero (Nat.le_zero.mp hn) ▸ h
  | succ n ih =>
    unfold clearLoop
    cases es with
    | nil => rwa [if_pos (h.head_eq_zero.mpr rfl)]
    | cons e es =>
      rw [if_neg (h.head_eq_zero.not.mpr (by simp)), h.seg.1]
      exact ih (h.pop s.tail) (Nat.le_of_succ_le_succ hn)

theorem Holds.eq_nil {xs} (h : Holds s xs) (h0 : s.head = 0) : xs = [] := by
  obtain ⟨es, hl, -, rfl⟩ := h
  rw [hl.head_eq_zero.mp h0]
  rfl

theorem holds_clear {xs} (h : Holds s xs) : Holds (clear A s) [] := by
  unfold clear
  split
  case isTrue h0 => exact h.eq_nil h0 ▸ h
  case isFalse =>
    obtain ⟨es, hl, -, -⟩ := h
    have hc := linked_clearLoop (A := A) hl hl.length_le
    exact ⟨[], ⟨hc.seg, hc.nodup, hc.null, hc.freed⟩, rfl, rfl⟩

theorem holds_removeLoop (pre) {n} {f : α → Bool} (hl : Linked s (pre ++ es))
    (ht : s.tail = (pre ++ es).getLastD 0) (hn : es.length ≤ n) :
    Holds (removeLoop A f n (es.headD 0) (pre.getLastD 0) s)
      (pre.map s.element ++ (es.map s.element).filter (!f ·)) := by
  induction n generalizing s pre es with
  | zero =>
    obtain rfl := eq_nil_of_length_eq_zero (Nat.le_zero.mp hn)
    exact ⟨pre ++ [], hl, ht, by simp [removeLoop]⟩
  | succ n ih =>
    unfold removeLoop
    cases es with
    | nil => exact ⟨pre ++ [], hl, ht, by simp⟩
    | cons e es =>
      have h0 : e ≠ 0 := fun h0 => hl.null (by simp [h0])
      obtain ⟨_, -, rfl, hr⟩ := seg_append.mp hl.seg
      have hle := Nat.le_of_succ_le_succ hn
      rw [headD_cons, if_neg h0, hr.head_eq, map_cons, filter_cons]
      split
      case isTrue hp =>
        have hi := ih pre (hl.unlink (A := A)) (unlink_tail hl.nodup ht) hle
        have he := (nodup_cons.mp (nodup_middle.mp hl.nodup)).1
        rw [mem_append, not_or] at he
        rw [Allocator.free, map_update he.1, map_update he.2] at hi
        rwa [hp]
      case isFalse hp =>
        rw [eq_false_of_ne_true hp]
        rw [append_cons] at hl ht
        simpa using ih _ hl ht hle

theorem holds_removeIf {xs} (h : Holds s xs) (f : α → Bool) :
    Holds (removeIf A s f) (xs.filter (!f ·)) := by
  unfold removeIf
  split
  case isTrue h0 =>
    obtain rfl := h.eq_nil h0
    exact h
  case isFalse =>
    obtain ⟨es, hl, ht, rfl⟩ := h
    rw [hl.seg.head_eq]
    exact holds_removeLoop [] hl ht hl.length_le

theorem readFrom_eq {n a} (h : Seg s.next a es 0) (h0 : 0 ∉ es) (hn : es.length ≤ n) :
    readFrom s n a = es.map s.element := by
  induction es generalizing n a with
  | nil => cases n <;> simp_all [Seg, readFrom]
  | cons e es ih =>
    obtain ⟨rfl, h⟩ := h
    rw [mem_cons, not_or] at h0
    obtain ⟨n, rfl⟩ : ∃ k, n = k + 1 := Nat.exists_eq_succ_of_ne_zero (by simp at hn; omega)
    rw [readFrom, if_neg (Ne.symm h0.1), ih h h0.2 (Nat.le_of_succ_le_succ hn), map_cons]

variable [DecidableEq α]

theorem findLoop_seg {n a} {value : α} (h : Seg s.next a es 0) (h0 : 0 ∉ es)
    (hn : es.length ≤ n) :
    Seg s.next (findLoop s value n a) (es.dropWhile (s.element · ≠ value)) 0 := by
  induction es generalizing n a with
  | nil => cases n <;> simp_all [Seg, findLoop]
  | cons e es ih =>
    obtain ⟨rfl, h⟩ := h
    rw [mem_cons, not_or] at h0
    obtain ⟨n, rfl⟩ : ∃ k, n = k + 1 := Nat.exists_eq_succ_of_ne_zero (by simp at hn; omega)
    rw [findLoop, if_neg (Ne.symm h0.1)]
    by_cases hv : s.element a = value
    · simp [hv, Seg, h]
    · simpa [hv] using ih h h0.2 (Nat.le_of_succ_le_succ hn)

theorem holds_step {xs} (h : Holds s xs) (op : Op α) :
    Holds (step A s op).1 (seqStep xs op).1 ∧ (step A s op).2 = (seqStep xs op).2 := by
  cases op with
  | pushFront x => exact ⟨holds_pushFront h, rfl⟩
  | pushBack x => exact ⟨holds_pushBack h, rfl⟩
  | popFront => exact (holds_popFront h).imp_right (congrArg Option.toList)
  | removeIf f => exact ⟨holds_removeIf h f, rfl⟩
  | clear => exact ⟨holds_clear h, rfl⟩
  | find value =>
    obtain ⟨es, hl, ht, rfl⟩ := h
    have hsl := dropWhile_sublist (l := es) (s.element · ≠ value)
    have hr := readFrom_eq (findLoop_seg hl.seg hl.null hl.length_le)
      (fun h0 => hl.null (hsl.subset h0)) (hsl.length_le.trans hl.length_le)
    have hm : (es.map s.element).dropWhile (· ≠ value) = _ := dropWhile_map
    exact ⟨⟨es, hl, ht, rfl⟩, hr.trans hm.symm⟩

theorem holds_run {xs} (h : Holds s xs) (ops : List (Op α)) :
    Holds (run (step A) s ops).1 (run seqStep xs ops).1 ∧
      (run (step A) s ops).2 = (run seqStep xs ops).2 := by
  induction ops generalizing s xs with
  | nil => exact ⟨h, rfl⟩
  | cons op ops ih =>
    obtain ⟨hs, hr⟩ := holds_step (A := A) h op
    obtain ⟨hi, hj⟩ := ih hs
    exact ⟨hi, by rw [run, run, hr, hj]⟩

/-- A new list behaves as a sequence, whatever the memory and the allocator. -/
theorem run_is_sequence (A : Allocator α) (next : ℕ → ℕ) (element : ℕ → α) (ops : List (Op α)) :
    Holds (run (step A) ⟨next, element, none, [], []⟩ ops).1 (run seqStep [] ops).1 ∧
      (run (step A) ⟨next, element, none, [], []⟩ ops).2 = (run seqStep [] ops).2 :=
  holds_run ⟨[], ⟨by rfl, nodup_nil, by simp, .refl []⟩, rfl, rfl⟩ ops

end LinkedList
