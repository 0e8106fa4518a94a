import Mathlib

/-! Decimal numerals. A numeral without leading zeros is the one that is printed for its value. -/
namespace DecimalText

open List Nat

/-- A numeral as it is printed: not empty, digits only, and a zero leads only alone. -/
structure Plain (ds : List Char) : Prop where
  nonempty : ds ≠ []
  digits : ∀ c ∈ ds, c.isDigit
  noLeadingZero : ds.head? = some '0' → ds = ['0']

def value (ds : List Char) : ℕ := Nat.ofDigitChars 10 ds 0

theorem exists_digitChar {c} (hc : c.isDigit) : ∃ d, d < 10 ∧ c = Nat.digitChar d := by
  simp only [Char.isDigit, Bool.and_eq_true, decide_eq_true_eq, UInt32.le_iff_toNat_le] at hc
  have hr : 48 ≤ c.toNat ∧ c.toNat ≤ 57 := hc
  refine ⟨c.toNat - 48, by omega, ?_⟩
  apply Char.toNat_inj.1
  rw [toNat_digitChar_of_lt_ten (by omega)]
  omega

variable {ds : List Char}

theorem value_append_digitChar {d} (hd : d < 10) :
    value (ds ++ [Nat.digitChar d]) = 10 * value ds + d := by
  rw [value, ofDigitChars_append, ofDigitChars_cons, ofDigitChars_nil]
  rw [show '0'.toNat = 48 from rfl, toNat_digitChar_sub_48_of_lt_ten hd]
  rfl

theorem value_toDigits (n) : value (toDigits 10 n) = n := ofDigitChars_ten_toDigits

theorem value_pos (hn : ds ≠ []) (hd : ∀ c ∈ ds, c.isDigit)
    (hh : ds.head? ≠ some '0') : 0 < value ds := by
  induction ds using reverseRecOn with
  | nil => exact absurd rfl hn
  | append_singleton ds c ih =>
    obtain ⟨d, hl, rfl⟩ := exists_digitChar (hd c (by simp))
    rw [value_append_digitChar hl]
    cases ds with
    | nil =>
      have hd0 : d ≠ 0 := by
        rintro rfl
        exact hh rfl
      omega
    | cons c' ds =>
      have hp := ih (cons_ne_nil _ _) (fun c hc => hd c (mem_append_left _ hc)) hh
      omega

theorem Plain.toDigits (h : Plain ds) : toDigits 10 (value ds) = ds := by
  by_cases hz : ds.head? = some '0'
  · rw [h.noLeadingZero hz]
    rfl
  obtain ⟨hne, hd, -⟩ := h
  induction ds using reverseRecOn with
  | nil => exact absurd rfl hne
  | append_singleton ds c ih =>
    obtain ⟨d, hl, rfl⟩ := exists_digitChar (hd c (by simp))
    rw [value_append_digitChar hl]
    cases ds with
    | nil =>
      have hn : 10 * value [] + d = d := zero_add d
      rw [hn]
      exact toDigits_of_lt_base hl
    | cons c' ds =>
      have hd' : ∀ x ∈ c' :: ds, x.isDigit :=
        fun x hx => hd x (mem_append_left _ hx)
      have hp := value_pos (cons_ne_nil c' ds) hd' hz
      rw [← toDigits_append_toDigits (by omega) hp hl, toDigits_of_lt_base hl,
        ih hz (cons_ne_nil _ _) hd']

theorem plain_toDigits (n) : Plain (toDigits 10 n) where
  nonempty := toDigits_ne_nil
  digits := fun c hc => isDigit_of_mem_toDigits (by omega) (by omega) hc
  noLeadingZero := by
    intro hh
    induction n using Nat.strongRecOn with
    | ind n ih =>
      by_cases hl : n < 10
      · rw [toDigits_of_lt_base hl] at hh ⊢
        rw [head?_cons, Option.some.injEq] at hh
        rw [hh]
      rw [toDigits_of_base_le (by omega) (by omega)] at hh
      have hz := ih (n / 10) (by omega) (by
        obtain ⟨c, ds, hd⟩ := exists_cons_of_ne_nil (toDigits_ne_nil (b := 10))
        rw [hd] at hh ⊢
        exact hh)
      have hv := value_toDigits (n / 10)
      rw [hz, show value ['0'] = 0 from rfl] at hv
      omega

theorem value_lt (hd : ∀ c ∈ ds, c.isDigit) : value ds < 10 ^ ds.length := by
  induction ds using reverseRecOn with
  | nil => exact one_pos
  | append_singleton ds c ih =>
    obtain ⟨d, hl, rfl⟩ := exists_digitChar (hd c (by simp))
    have hds := ih fun c hc => hd c (mem_append_left _ hc)
    rw [value_append_digitChar hl, length_append, length_singleton, pow_succ]
    omega

end DecimalText
