import Bionic.PropArea

/-! Sequences of calls of `add` on a new property area. A property stays the one that the first
successful call of its name has made, whatever the later calls are and wherever the space ends. -/
namespace PropAreaRuns

open PropArea SearchTrie Prod
open SystemPropertyUpdate (Byte)
open List Option

structure Call where
  name : List Byte
  value : ℕ → Byte
  valuelen : BitVec 32

structure History where
  area : Area
  log : List (Call × Option ℕ)

def Short (name : List Byte) : Prop := ∀ part ∈ name.splitOn 46, part.length < 2 ^ 32

instance (name : List Byte) : Decidable (Short name) :=
  inferInstanceAs (Decidable (∀ part ∈ name.splitOn 46, part.length < 2 ^ 32))

/-- No length of a part and no size of the value overflows. -/
def Call.Careful (c : Call) : Prop := Short c.name ∧ c.valuelen ≠ BitVec.allOnes 32

instance (c : Call) : Decidable c.Careful :=
  inferInstanceAs (Decidable (Short c.name ∧ c.valuelen ≠ BitVec.allOnes 32))

def firstAdd (name : List Byte) (log : List (Call × Option ℕ)) : Option (Call × ℕ) :=
  log.findSome? fun e => if e.1.name = name then e.2.map (e.1, ·) else none

section
variable (paDataSize : ℕ)

def History.call (h : History) (c : Call) : Except Fault History :=
  match add paDataSize h.area c.name c.value c.valuelen with
  | .error e => .error e
  | .ok (area, r) => .ok ⟨area, h.log ++ [(c, r)]⟩

def run (calls : List Call) : Except Fault History :=
  calls.foldlM (History.call paDataSize) ⟨emptyArea, []⟩

end

theorem substrs_eq_splitOn {name} (h : Short name) : substrs name = name.splitOn 46 := by
  rw [substrs]
  refine (map_congr_left ?_).trans (map_id _)
  intro part hp
  rw [substr, Nat.mod_eq_of_lt (h part hp), take_length, id_eq]

theorem eq_of_substrs_eq {n m} (hn : Short n) (hm : Short m)
    (h : substrs n = substrs m) : n = m := by
  rw [substrs_eq_splitOn hn, substrs_eq_splitOn hm] at h
  calc n = [46].intercalate (n.splitOn 46) := (intercalate_splitOn 46).symm
    _ = [46].intercalate (m.splitOn 46) := by rw [h]
    _ = m := intercalate_splitOn 46

theorem firstAdd_append (name log c r) : firstAdd name (log ++ [(c, r)]) =
      (firstAdd name log).or (if c.name = name then r.map (c, ·) else none) := by
  rw [firstAdd, findSome?_append]
  congr 1
  rw [findSome?_singleton]

structure Inv (paDataSize : ℕ) (h : History) (t : Trie (List Byte) ℕ) : Prop where
  built : Built paDataSize h.area t
  lookup : ∀ n, Short n → WellFormed n →
    t.lookup cmpPropName (substrs n) = (firstAdd n h.log).map snd
  malformed : ∀ n, ¬WellFormed n → firstAdd n h.log = none
  recorded : ∀ n c p, firstAdd n h.log = some (c, p) → Recorded h.area p n c.value c.valuelen
  nodup : t.items.Nodup
  items : ∀ p, p ∈ t.items ↔ ∃ n c, firstAdd n h.log = some (c, p)

variable {paDataSize : ℕ} {h h' : History} {t t' : Trie (List Byte) ℕ} {c : Call}

theorem inv_init (paDataSize) : Inv paDataSize ⟨emptyArea, []⟩ .nil where
  built := built_emptyArea
  lookup _ _ _ := rfl
  malformed _ _ := rfl
  recorded _ _ _ hf := by cases hf
  nodup := nodup_nil
  items p := by
    constructor
    · exact nofun
    · rintro ⟨n, c, hf⟩
      cases hf

section
variable (hi : Inv paDataSize h t)
include hi

theorem Inv.firstAdd_unchanged {r} (hc : Short c.name) (hs : Unchanged t t' c.name r) (n) :
    firstAdd n (h.log ++ [(c, r)]) = firstAdd n h.log := by
  rw [firstAdd_append]
  by_cases hn : c.name = n
  · subst hn
    rw [if_pos rfl]
    rcases hs.result with rfl | ⟨hnm, hr⟩
    · rw [map_none, or_none]
    rw [hi.lookup _ hc hnm] at hr
    rw [hr]
    cases firstAdd c.name h.log <;> rfl
  · rw [if_neg hn, or_none]

theorem Inv.firstAdd_inserted {p} (hc : Short c.name)
    (hin : Inserted h.area t t' c.name p) (n) : firstAdd n (h.log ++ [(c, some p)]) =
      if c.name = n then some (c, p) else firstAdd n h.log := by
  rw [firstAdd_append]
  by_cases hn : c.name = n
  · subst hn
    have ha := hin.absent
    rw [hi.lookup _ hc hin.wellFormed, map_eq_none_iff] at ha
    rw [if_pos rfl, if_pos rfl, ha]
    rfl
  · rw [if_neg hn, if_neg hn, or_none]

theorem Inv.call (hc : c.Careful) : ∃ a' r t', h.call paDataSize c = .ok ⟨a', h.log ++ [(c, r)]⟩ ∧
      Inv paDataSize ⟨a', h.log ++ [(c, r)]⟩ t' := by
  obtain ⟨a', r, t', had, hb, het, hcs⟩ := hi.built.add c.name c.value hc.2
  have hcl : h.call paDataSize c = .ok ⟨a', h.log ++ [(c, r)]⟩ := by
    rw [History.call, had]
  refine ⟨a', r, t', hcl, ?_⟩
  rcases hcs with hs | ⟨p, rfl, hin, hr⟩
  · have hf := hi.firstAdd_unchanged hc.1 hs
    refine ⟨hb, ?_, ?_, ?_, ?_, ?_⟩
    · intro n hn hnm
      rw [hs.lookup, hf]
      exact hi.lookup n hn hnm
    · intro n hnm
      rw [hf]
      exact hi.malformed n hnm
    · intro n d p hd
      rw [hf] at hd
      exact (hi.recorded n d p hd).extends het
    · rw [hs.items]
      exact hi.nodup
    · intro p
      simp only [hs.items, hf]
      exact hi.items p
  have hf := hi.firstAdd_inserted hc.1 hin
  have hnw : p ∉ t.items := fun hp =>
    lt_irrefl _ (lt_of_lt_of_le (hi.built.items p hp).1 hin.fresh)
  refine ⟨hb, ?_, ?_, ?_, hin.nodup hnw hi.nodup, ?_⟩
  · intro n hn hnm
    rw [hf]
    by_cases hcn : c.name = n
    · rw [if_pos hcn, ← hcn]
      exact hin.self
    · rw [if_neg hcn, hin.others (substrs n) fun heq => hcn (eq_of_substrs_eq hn hc.1 heq).symm]
      exact hi.lookup n hn hnm
  · intro n hnm
    rw [hf, if_neg ?_]
    · exact hi.malformed n hnm
    · rintro rfl
      exact hnm hin.wellFormed
  · intro n d q hd
    rw [hf] at hd
    split at hd
    · rename_i hcn
      cases hd
      rw [← hcn]
      exact hr
    · exact (hi.recorded n d q hd).extends het
  intro q
  rw [hin.mem_items, hi.items]
  constructor
  · rintro (rfl | ⟨n, d, hd⟩)
    · exact ⟨c.name, c, by rw [hf, if_pos rfl]⟩
    · refine ⟨n, d, ?_⟩
      rw [hf, if_neg ?_, hd]
      rintro rfl
      have ha := hin.absent
      rw [hi.lookup _ hc.1 hin.wellFormed, hd] at ha
      cases ha
  · rintro ⟨n, d, hd⟩
    rw [hf] at hd
    split at hd
    · cases hd
      exact .inl rfl
    · exact .inr ⟨n, d, hd⟩

end

theorem Inv.calls (calls) (hc : ∀ c ∈ calls, c.Careful) (hi : Inv paDataSize h t) :
    ∃ h' t', calls.foldlM (History.call paDataSize) h = .ok h' ∧ Inv paDataSize h' t' ∧
      h'.log.map fst = h.log.map fst ++ calls := by
  induction calls generalizing h t with
  | nil => exact ⟨h, t, rfl, hi, (append_nil _).symm⟩
  | cons c calls ih =>
    obtain ⟨a', r, t', hcl, hi'⟩ := hi.call (hc c mem_cons_self)
    obtain ⟨h'', t'', hr, hi'', hl⟩ :=
      ih (fun d hd => hc d (mem_cons_of_mem c hd)) hi'
    refine ⟨h'', t'', ?_, hi'', ?_⟩
    · rw [foldlM_cons, hcl]
      exact hr
    · rw [hl, map_append, append_assoc]
      rfl

theorem Inv.find (hi : Inv paDataSize h t) {n} (hn : Short n) :
    find paDataSize h.area n = .ok ((firstAdd n h.log).map snd) := by
  rw [hi.built.find]
  by_cases hnm : WellFormed n
  · rw [if_pos hnm, hi.lookup n hn hnm]
  · rw [if_neg hnm, hi.malformed n hnm]
    rfl

/-- What `find` and `foreach` give after any sequence of calls, on an area of any size. -/
theorem area_holds_first_adds (paDataSize : ℕ) (calls : List Call)
    (hcalls : ∀ c ∈ calls, c.Careful) :
    ∃ h, run paDataSize calls = .ok h ∧ h.log.map fst = calls ∧ (∀ n, Short n →
        PropArea.find paDataSize h.area n = .ok ((firstAdd n h.log).map snd)) ∧
      (∀ n c p, firstAdd n h.log = some (c, p) → Recorded h.area p n c.value c.valuelen) ∧
      (∀ (c : Call) a', c.Careful →
        add paDataSize h.area c.name c.value c.valuelen = .ok (a', none) →
        ∀ n, PropArea.find paDataSize a' n = PropArea.find paDataSize h.area n) ∧
      ∃ visited, foreach paDataSize h.area = .ok (true, visited) ∧ visited.Nodup ∧
        ∀ p, p ∈ visited ↔ ∃ n c, firstAdd n h.log = some (c, p) := by
  obtain ⟨h, t, hr, hi, hl⟩ := Inv.calls calls hcalls (inv_init paDataSize)
  refine ⟨h, hr, hl, fun n hn => hi.find hn, hi.recorded, ?_, t.items,
    hi.built.foreach, hi.nodup, hi.items⟩
  intro c a' hc ha n
  obtain ⟨a'', r, t', ha', hb, -, hcs⟩ := hi.built.add c.name c.value hc.2
  cases ha.symm.trans ha'
  rcases hcs with hs | ⟨p, hp, -⟩
  · rw [hi.built.find, hb.find, hs.lookup]
  · cases hp

/-- A property, one below it, a name with an empty part, and the first name again. -/
theorem area_holds_first_adds_four :
    ∃ h, run 130944 [⟨[97, 46, 98], fun _ => 120, 1⟩, ⟨[97], fun _ => 121, 100⟩,
        ⟨[97, 46, 46, 98], fun _ => 120, 1⟩, ⟨[97, 46, 98], fun _ => 122, 2⟩] = .ok h ∧
      PropArea.find 130944 h.area [97, 46, 98] = .ok ((firstAdd [97, 46, 98] h.log).map snd) := by
  obtain ⟨h, hr, -, hf, -⟩ := area_holds_first_adds 130944
    [⟨[97, 46, 98], fun _ => 120, 1⟩, ⟨[97], fun _ => 121, 100⟩,
      ⟨[97, 46, 46, 98], fun _ => 120, 1⟩, ⟨[97, 46, 98], fun _ => 122, 2⟩] (by decide)
  exact ⟨h, hr, hf [97, 46, 98] (by decide)⟩

/-- The size of a value of 2 ^ 32 - 1 bytes with its end wraps to 0: nothing is allocated for it,
and the copy runs over the end. -/
theorem add_longest_overruns :
    (run 130944 [⟨[114, 111, 46, 97], fun _ => 97, BitVec.allOnes 32⟩]).map History.log =
      .error .overrun := by
  have ha : (add 130944 emptyArea [114, 111, 46, 97] (fun _ => 97) (BitVec.allOnes 32)).map
      snd = .error .overrun := by
    decide +kernel
  rw [run, foldlM_cons, History.call]
  cases h : add 130944 emptyArea [114, 111, 46, 97] (fun _ => 97) (BitVec.allOnes 32) with
  | error e =>
    rw [h] at ha
    cases ha
    rfl
  | ok r =>
    rw [h] at ha
    cases ha

end PropAreaRuns
