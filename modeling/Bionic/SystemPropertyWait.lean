import Bionic.SystemPropertyApi

/-! `SystemProperties::Wait` and `WaitAny`. The futex and the property area are what each turn of
the loop meets: any result of the futex call, and any values of the serials after it. -/
namespace SystemPropertyWait

open List

def etimedout : ℤ := 110

structure SystemProperties where
  initialized : Bool
  hasSerialPropArea : Bool
  deriving DecidableEq

/-- The result of `__futex_wait`, and the serials when one of them is loaded; `none` is that of the
serial area. -/
structure Turn (PropInfo : Type) where
  rc : ℤ
  serial : Option PropInfo → BitVec 32

variable {PropInfo : Type}

def waitLoop (pi : Option PropInfo) (oldSerial : BitVec 32) :
    List (Turn PropInfo) → Option (Bool × Option (BitVec 32))
  | [] => none
  | turn :: turns =>
    if turn.rc ≠ 0 ∧ turn.rc = -etimedout then some (false, none)
    else if turn.serial pi = oldSerial then waitLoop pi oldSerial turns
    else some (true, some (turn.serial pi))

/-- What `Wait` returns and has stored, or none if it is still waiting. The `-1` of a `bool`
function is true. -/
def wait (sp : SystemProperties) (pi : Option PropInfo) (oldSerial : BitVec 32)
    (turns : List (Turn PropInfo)) : Option (Bool × Option (BitVec 32)) :=
  if pi.isNone ∧ !sp.initialized then some (true, none)
  else if pi.isNone ∧ !sp.hasSerialPropArea then some (true, none)
  else waitLoop pi oldSerial turns

def waitAny (sp : SystemProperties) (oldSerial : BitVec 32) (turns : List (Turn PropInfo)) :
    Option (Option (BitVec 32)) :=
  (wait sp none oldSerial turns).map Prod.snd

/-- The stored serial is not the old one, and the serial waited on has held it. -/
def Stored (pi : Option PropInfo) (oldSerial : BitVec 32) (turns : List (Turn PropInfo))
    (newSerial : Option (BitVec 32)) : Prop :=
  ∃ v, newSerial = some v ∧ v ≠ oldSerial ∧ ∃ turn ∈ turns, turn.serial pi = v

theorem waitLoop_stored {pi oldSerial} {turns : List (Turn PropInfo)} {result newSerial}
    (h : waitLoop pi oldSerial turns = some (result, newSerial)) :
    Stored pi oldSerial turns newSerial ∨
      result = false ∧ ∃ turn ∈ turns, turn.rc = -etimedout := by
  induction turns with
  | nil => cases h
  | cons turn turns ih =>
    rw [waitLoop] at h
    split_ifs at h with hr hs
    · cases h
      exact .inr ⟨rfl, turn, mem_cons_self, hr.2⟩
    · obtain ⟨v, hv, hn, other, ho, hh⟩ | ⟨hf, other, ho, hr⟩ := ih h
      · exact .inl ⟨v, hv, hn, other, mem_cons_of_mem _ ho, hh⟩
      · exact .inr ⟨hf, other, mem_cons_of_mem _ ho, hr⟩
    · cases h
      exact .inl ⟨_, rfl, hs, turn, mem_cons_self, rfl⟩

/-- `WaitAny` has no time-out. -/
theorem wait_stored_iff (sp : SystemProperties) (oldSerial : BitVec 32)
    (turns : List (Turn PropInfo)) :
    (∀ pi, (∀ newSerial, wait sp pi oldSerial turns = some (true, newSerial) →
        Stored pi oldSerial turns newSerial) ↔ pi.isSome ∨ sp.initialized ∧ sp.hasSerialPropArea) ∧
    ((∀ turn ∈ turns, turn.rc ≠ -etimedout) →
      ((∀ newSerial, waitAny sp oldSerial turns = some newSerial →
        Stored none oldSerial turns newSerial) ↔ sp.initialized ∧ sp.hasSerialPropArea)) := by
  have hw (pi : Option PropInfo) : wait sp pi oldSerial turns =
      if pi.isSome ∨ sp.initialized ∧ sp.hasSerialPropArea then waitLoop pi oldSerial turns
      else some (true, none) := by
    cases pi <;> cases hi : sp.initialized <;> cases hs : sp.hasSerialPropArea <;>
      simp [wait, hi, hs]
  have hn (pi : Option PropInfo) : ¬Stored pi oldSerial turns none := by
    rintro ⟨v, hv, -⟩
    cases hv
  constructor
  · intro pi
    rw [hw]
    constructor
    · intro h
      by_contra hc
      exact hn pi (h none (if_neg hc))
    intro hc newSerial h
    rw [if_pos hc] at h
    obtain h | ⟨h, -⟩ := waitLoop_stored h
    · exact h
    · cases h
  · intro hr
    rw [waitAny, hw]
    constructor
    · intro h
      by_contra hc
      exact hn none (h none (by rw [if_neg (by simpa using hc)]; rfl))
    intro hc newSerial h
    rw [if_pos (.inr hc), Option.map_eq_some_iff] at h
    obtain ⟨⟨result, _⟩, h, rfl⟩ := h
    obtain h | ⟨-, turn, htn, ht⟩ := waitLoop_stored h
    · exact h
    · exact absurd ht (hr turn htn)

/-- Nothing is stored before the properties are initialized, and the result is true. -/
theorem wait_uninitialized :
    ∃ newSerial, wait ⟨false, false⟩ (none : Option Unit) 0#32 [] = some (true, newSerial) ∧
      ¬Stored (none : Option Unit) 0#32 [] newSerial := by
  refine ⟨none, rfl, ?_⟩
  rintro ⟨v, hv, -⟩
  cases hv

theorem wait_held_iff (pi : PropInfo) (serial token) :
    (∀ sp turns, (∀ turn ∈ turns, turn.serial (some pi) = serial) →
      ∀ newSerial, wait sp (some pi) token turns ≠ some (true, newSerial)) ↔ token = serial := by
  constructor
  · intro h
    by_contra hn
    refine h ⟨true, true⟩ [⟨0, fun _ => serial⟩] (by simp) (some serial) ?_
    simp [wait, waitLoop, Ne.symm hn]
  · rintro rfl sp turns ht newSerial h
    obtain ⟨v, -, hn, turn, htn, hv⟩ | ⟨h, -⟩ := waitLoop_stored h
    · exact hn (hv.symm.trans (ht turn htn))
    · cases h

section

open SystemPropertyApi
open SystemPropertyAdd (isReadOnly)

variable (p : Process) (pi : SystemPropertyApi.PropInfo)

theorem readCallback_serial :
    (systemPropertyReadCallback p pi).2.2 = systemPropertySerial p pi := by
  unfold systemPropertyReadCallback systemPropertySerial
  split_ifs <;> try rfl
  split <;> rfl

theorem hiddenSerial_eq_iff (isRo serial) :
    hiddenSerial isRo serial = serial ↔ serial.toNat < if isRo then 1 else 2 ^ 24 := by
  rw [← BitVec.toNat_inj]
  cases isRo
  · exact (Eq.congr_left (Nat.and_two_pow_sub_one_eq_mod _ 24)).trans
      (Nat.mod_eq_iff_lt (by decide))
  · exact eq_comm.trans Nat.lt_one_iff.symm

/-- The wait compares the token with the serial of the area, whatever was shown of it. -/
theorem serial_is_token_iff :
    (∀ token ∈ [systemPropertySerial p pi, (systemPropertyReadCallback p pi).2.2], ∀ sp turns,
      (∀ turn ∈ turns, turn.serial (some pi) = pi.serial) →
        ∀ newSerial, wait sp (some pi) token turns ≠ some (true, newSerial)) ↔
    (p.isAppProcess → lowAddress ≤ pi.nameAddress →
      (Hidden pi.name → pi.serial.toNat < if isReadOnly pi.name then 1 else 2 ^ 24) ∧
      (¬Hidden pi.name → ∀ o, kSpoofedValueProps.lookup pi.name = some o →
        pi.serial = BitVec.ofNat 32 o.length <<< 24)) := by
  simp only [wait_held_iff, readCallback_serial, forall_mem_cons, not_mem_nil, IsEmpty.forall_iff,
    implies_true, and_true, and_self]
  rw [systemPropertySerial]
  by_cases ha : p.isAppProcess
  · by_cases hl : lowAddress ≤ pi.nameAddress
    · by_cases hh : Hidden pi.name
      · simp [ha, hl, hh, shouldHideProp_of_hidden, hiddenSerial_eq_iff]
      · rw [shouldHideProp_of_not_hidden hh, getPropOverride_of_low_le ha hl]
        by_cases ho : Overridden pi.name
        · obtain ⟨o, hlk, -, hln⟩ := override_spec ho
          simp [ha, hl, hh, hlk, overrideSerial, isReadOnly_of_overridden ho, hln, eq_comm]
        · simp [ha, hh, lookup_of_not_overridden ho]
    · simp [ha, hl, shouldHideProp, getPropOverride, not_le.mp hl]
  · simp [ha]

/-- The version of the build is hidden, and its serial is shown as zero. -/
theorem wait_on_hidden : let pi := info "ro.modversion" "11.0"
    wait ⟨true, true⟩ (some pi) (systemPropertySerial customRom pi) [⟨0, fun _ => pi.serial⟩] =
      some (true, some pi.serial) := by
  decide +kernel

end

end SystemPropertyWait
