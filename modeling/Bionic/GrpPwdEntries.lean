import Bionic.GrpPwd

/-! `getpwent` and `getgrent` on a 64-bit system: an index into the table, the OEM ids and the
reserved ids, which is the id of an app after that. -/
namespace GrpPwdEntries

open GrpPwd GrpPwdFile

def rangesOf (isGroup : Bool) : List IdRange := if isGroup then groupRanges else userRanges

/-- The gaps, and the end. An `id_t` is unsigned: `-1` is `2 ^ 32 - 1`. -/
def nextIn (incremented : ℕ) : List IdRange → ℕ
  | r :: r' :: ranges =>
    if r.last < incremented ∧ incremented < r'.first then r'.first
    else nextIn incremented (r' :: ranges)
  | [r] => if r.last < incremented then 2 ^ 32 - 1 else incremented
  | [] => incremented

def getNextAppId (currentId : ℕ) (isGroup : Bool) : ℕ :=
  let start := ((rangesOf isGroup).headD ⟨0, 0⟩).first
  if currentId < start then start else nextIn ((currentId + 1) % 2 ^ 32) (rangesOf isGroup)

variable {E : Type} (db : Database E) (δ : Device) (files : List MmapFile)

def appEntry (idx : ℤ) : Option E × ℤ :=
  let idx : ℤ := getNextAppId (idx.toNat % 2 ^ 32) db.isGroup
  (if idx ≠ -1 then appIdTo db δ idx.toNat else none, idx)

/-- The loop over `n` reserved ids. -/
def reservedEntry (idx : ℤ) (id : ℕ) : ℕ → Option E × ℤ
  | 0 => appEntry db δ idx
  | n + 1 =>
    match oemIdTo db δ files id with
    | some e => (some e, idx + 1)
    | none => reservedEntry (idx + 1) (id + 1) n

/-- 100 and 1000 OEM ids, and 2000 reserved ones from 6000 on. -/
def getent (idx : ℤ) : Option E × ℤ :=
  let n : ℤ := δ.ids.infos.length
  if idx < 0 then (none, idx)
  else if idx < n then (δ.ids.infos[idx.toNat]?.map db.ofIinfo, idx + 1)
  else if idx < n + 100 then
    (oemIdTo db δ files (idx - n + aidOemReservedStart).toNat, idx + 1)
  else if idx < n + 1100 then
    (oemIdTo db δ files (idx - (n + 100) + aidOemReserved2Start).toNat, idx + 1)
  else reservedEntry db δ files idx (idx - (n + 1100) + 6000).toNat (n + 3100 - idx).toNat

def getpwent (contents : Fin 5 → Text) : ℤ → Option Passwd × ℤ :=
  getent passwdDatabase δ (filesOf contents)

def getgrent (contents : Fin 5 → Text) : ℤ → Option Group × ℤ :=
  getent groupDatabase δ (filesOf contents)

/-- After `k` calls since `setpwent` or `setgrent`. -/
def indexAfter (call : ℤ → Option E × ℤ) : ℕ → ℤ
  | 0 => 0
  | k + 1 => (call (indexAfter call k)).2

def entry (call : ℤ → Option E × ℤ) (k : ℕ) : Option E := (call (indexAfter call k)).1

/-- Entries with different ids, then none. -/
def Ends (entries : ℕ → Option E) : Prop :=
  ∃ n, (∀ i < n, ∃ e, entries i = some e ∧
    ∀ j < i, ∀ e', entries j = some e' → db.id e ≠ db.id e') ∧ ∀ i ≥ n, entries i = none

theorem rangesOf_eq (g) : rangesOf g = if g then [⟨10000, 19999⟩, ⟨20000, 29999⟩,
    ⟨30000, 39999⟩, ⟨40000, 49999⟩, ⟨50000, 59999⟩, ⟨90000, 99999⟩]
    else [⟨10000, 19999⟩, ⟨90000, 99999⟩] := by
  cases g <;> rfl

theorem getNextAppId_cases {c} (hc : c < 2 ^ 32) (g) : getNextAppId c g = 0 ∨
    getNextAppId c g = 2 ^ 32 - 1 ∨
      ∃ r ∈ rangesOf g, r.first ≤ getNextAppId c g ∧ getNextAppId c g ≤ r.last := by
  rw [getNextAppId, rangesOf_eq]
  cases g <;> simp [nextIn] <;> split_ifs <;> omega

theorem appIdTo_of_range {j r} (hr : r ∈ rangesOf db.isGroup) (hj : r.first ≤ j ∧ j ≤ r.last) :
    appIdTo db δ j ≠ none := by
  have hb : 10000 ≤ j ∧ j < 100000 ∧ j ≠ 65534 := by
    rw [rangesOf_eq] at hr
    grind
  have hm : j % aidUserOffset = j := Nat.mod_eq_of_lt hb.2.1
  have hv : isValidAppId δ j db.isGroup := by
    rw [isValidAppId, hm]
    grind [rangesOf, aidOverflowuid]
  rw [appIdTo, if_neg (by simp [hv, hb.1, aidAppStart])]
  exact Option.some_ne_none _

variable {db δ files}

/-- The index is not negative, and without an entry the end or zero. -/
def Left (r : Option E × ℤ) : Prop := 0 ≤ r.2 ∧ (r.1 = none → r.2 = 0 ∨ r.2 = 2 ^ 32 - 1)

theorem left_appEntry (idx) : Left (appEntry db δ idx) := by
  refine ⟨Int.natCast_nonneg _, fun h => ?_⟩
  rw [appEntry, if_pos (by omega), Int.toNat_natCast] at h
  obtain h0 | hed | ⟨r, hr, hj⟩ :=
    getNextAppId_cases (Nat.mod_lt idx.toNat (by decide)) db.isGroup
  · exact .inl (congrArg Nat.cast h0)
  · exact .inr (congrArg Nat.cast hed)
  · exact absurd h (appIdTo_of_range db δ hr hj)

theorem left_reservedEntry {idx} (h : 0 ≤ idx) (id n) :
    Left (reservedEntry db δ files idx id n) := by
  induction n generalizing idx id with
  | zero => exact left_appEntry idx
  | succ n ih =>
    rw [reservedEntry]
    split
    · exact ⟨by dsimp only; omega, nofun⟩
    · exact ih (by omega) (id + 1)

theorem oemIdTo_ne_none {id} (h : 2900 ≤ id ∧ id ≤ 2999 ∨ 5000 ≤ id ∧ id ≤ 5999) :
    oemIdTo db δ files id ≠ none := by
  have ho : isOemId δ id := by
    rw [isOemId]
    split
    · rfl
    · exact decide_eq_true h
  rw [oemIdTo, ho]
  split <;> exact Option.some_ne_none _

theorem left_getent {idx} (h : 0 ≤ idx) : Left (getent db δ files idx) := by
  rw [getent, if_neg (not_lt.mpr h)]
  split_ifs with ht ho ho2
  · refine ⟨by dsimp only; omega, fun hn => ?_⟩
    rw [Option.map_eq_none_iff, List.getElem?_eq_none_iff] at hn
    omega
  · refine ⟨by dsimp only; omega, (absurd · (oemIdTo_ne_none ?_))⟩
    unfold aidOemReservedStart
    omega
  · refine ⟨by dsimp only; omega, (absurd · (oemIdTo_ne_none ?_))⟩
    unfold aidOemReserved2Start
    omega
  · exact left_reservedEntry h _ _

theorem getent_last (h : δ.ids.infos.length < 2 ^ 31) : (getent db δ files (2 ^ 32 - 1)).2 = 0 := by
  rw [getent, if_neg (by decide), if_neg (by omega), if_neg (by omega), if_neg (by omega),
    show (δ.ids.infos.length + 3100 - (2 ^ 32 - 1) : ℤ).toNat = 0 by omega]
  cases hg : db.isGroup <;> rw [reservedEntry, appEntry, hg] <;> rfl

theorem not_ends (h : δ.ids.infos.length < 2 ^ 31) : ¬Ends db (entry (getent db δ files)) := by
  rintro ⟨n, -, hn⟩
  have hl (k : ℕ) : Left (getent db δ files (indexAfter (getent db δ files) k)) := by
    induction k with
    | zero => exact left_getent le_rfl
    | succ k ih => exact left_getent ih.1
  have hnz (k : ℕ) (hk : n ≤ k) : indexAfter (getent db δ files) k ≠ 0 := by
    intro h0
    have hz := (hl k).2 (hn k hk)
    rw [h0, getent] at hz
    split_ifs at hz <;> simp_all
  have hla := ((hl n).2 (hn n le_rfl)).resolve_left (hnz (n + 1) (by omega))
  refine hnz (n + 2) (by omega) ?_
  rw [indexAfter, indexAfter, hla]
  exact getent_last h

/-- Two calls after the last entry return null, and the next one starts again. -/
theorem entries_never_end (δ : Device) (h : δ.ids.infos.length < 2 ^ 31) (contents : Fin 5 → Text) :
    ¬Ends passwdDatabase (entry (getpwent δ contents)) ∧
      ¬Ends groupDatabase (entry (getgrent δ contents)) :=
  ⟨not_ends h, not_ends h⟩

theorem entries_never_end_vendor : ¬Ends groupDatabase (entry (getgrent vendorDevice noGroups)) :=
  (entries_never_end vendorDevice (by decide) noGroups).2

theorem getpwent_starts_again : ¬Ends passwdDatabase (entry (getpwent vendorDevice vendorPasswd)) :=
  not_ends (by decide)

end GrpPwdEntries
