import Mathlib

/-! The socket addresses that `__getifaddrs_callback` makes of an `RTM_NEWADDR` message whose
address attributes have the family's address length, and the bytes that it writes for messages
with attributes of any length. -/
namespace Ifaddrs

open List

inductive Family where
  | inet
  | inet6
  deriving DecidableEq

/-- The fields of a `sockaddr_storage` that are written. -/
structure Sockaddr where
  family : Option Family
  address : List UInt8
  scopeId : BitVec 32
  deriving DecidableEq

/-- The other types leave the addresses alone. -/
inductive Attribute where
  | address (data : List UInt8)
  | local (data : List UInt8)
  | broadcast (data : List UInt8)
  | other (type : ℕ) (data : List UInt8)
  deriving DecidableEq

def Attribute.isOther : Attribute → Bool
  | .other _ _ => true
  | _ => false

/-- Whether `ifa_addr` and `ifa_dstaddr` are set, and what they point to then. -/
structure Storage where
  ifaAddr : Bool
  addr : Sockaddr
  ifaDstaddr : Bool
  ifaIfu : Sockaddr
  deriving DecidableEq

/-- `IN6_IS_ADDR_LINKLOCAL` or `IN6_IS_ADDR_MC_LINKLOCAL`. -/
def linkLocal : List UInt8 → Bool
  | x :: y :: _ => x = 0xfe ∧ y &&& 0xc0 = 0x80 ∨ x = 0xff ∧ y &&& 0x0f = 0x02
  | _ => false

section
variable (family : Family) (index : BitVec 32)

def copyAddress (data : List UInt8) (ss : Sockaddr) : Sockaddr where
  family := family
  address := data
  scopeId := if family = .inet6 ∧ linkLocal data then index else ss.scopeId

def setAddress (s : Storage) (data : List UInt8) : Storage :=
  if !s.ifaAddr then { s with ifaAddr := true, addr := copyAddress family index data s.addr }
  else { s with ifaDstaddr := true, ifaIfu := copyAddress family index data s.ifaIfu }

def setLocalAddress (s : Storage) (data : List UInt8) : Storage :=
  let s := if s.ifaAddr then { s with ifaDstaddr := true, ifaIfu := s.addr } else s
  { s with ifaAddr := true, addr := copyAddress family index data s.addr }

/-- `ifa_broadaddr` is another name of `ifa_dstaddr`. -/
def setBroadcastAddress (s : Storage) (data : List UInt8) : Storage :=
  { s with ifaDstaddr := true, ifaIfu := copyAddress family index data s.ifaIfu }

def set (s : Storage) : Attribute → Storage
  | .address data => setAddress family index s data
  | .local data => setLocalAddress family index s data
  | .broadcast data => if family = .inet then setBroadcastAddress family index s data else s
  | .other _ _ => s

def zero : Sockaddr := ⟨none, [], 0⟩

def newAddr (attributes : List Attribute) : Storage :=
  attributes.foldl (set family index) ⟨false, zero, false, zero⟩

def socketAddress (data : List UInt8) : Sockaddr := copyAddress family index data zero

theorem newAddr_filter (attributes) :
    newAddr family index (attributes.filter (!·.isOther)) = newAddr family index attributes := by
  rw [newAddr, newAddr, foldl_filter]
  congr
  funext s x
  cases x <;> rfl

/-- The scope id of the peer stays when the local address is copied over it. -/
theorem order_irrelevant_iff (peer own : List UInt8) :
    (∀ attributes, attributes.filter (!·.isOther) ~ [.address peer, .local own] →
      newAddr family index attributes =
        ⟨true, socketAddress family index own, true, socketAddress family index peer⟩) ↔
    ¬(family = .inet6 ∧ linkLocal peer ∧ ¬linkLocal own ∧ index ≠ 0) := by
  constructor
  · rintro h ⟨rfl, hp, ho, hid⟩
    have ha := congrArg (·.addr.scopeId) (h [.address peer, .local own] (.refl _))
    simp [newAddr, set, setAddress, setLocalAddress, socketAddress, copyAddress, hp, ho, zero] at ha
    exact hid ha
  intro h attributes hpm
  rw [← newAddr_filter]
  obtain heq | heq := perm_pair.mp hpm <;> rw [heq]
  · simp only [newAddr, set, setAddress, setLocalAddress, socketAddress, copyAddress, zero,
      foldl_cons, foldl_nil]
    grind
  · rfl

end

/-- The address fe80::1 of the peer leaves interface 3 as the scope of ::1. -/
theorem scope_left_over :
    let peer : List UInt8 := 0xfe :: 0x80 :: (replicate 13 0 ++ [1])
    let own : List UInt8 := replicate 15 0 ++ [1]
    newAddr .inet6 3 [.address peer, .local own] ≠
      newAddr .inet6 3 [.local own, .address peer] := by
  decide

structure Write where
  start : ℕ
  count : ℕ
  size : ℕ

abbrev Write.Inside (w : Write) : Prop := w.start + w.count ≤ w.size

def Family.sockaddrBytes : Family → ℕ
  | inet => 4
  | inet6 => 8

/-- The name of 17 bytes, and the writes whose lengths come from a message. -/
structure Entry where
  index : BitVec 32
  name : List UInt8
  ifaName : Bool
  writes : List Write

def Entry.new (index : BitVec 32) : Entry := ⟨index, replicate 17 0, false, []⟩

/-- `memcpy` to the name, or `strcpy` with one byte more. -/
def Entry.copyName (e : Entry) (name : List UInt8) (more : ℕ) : Entry :=
  { e with
    name := name ++ replicate more 0 ++ e.name.drop (name.length + more)
    ifaName := true
    writes := ⟨0, name.length + more, 17⟩ :: e.writes }

/-- The addresses of `RTM_NEWLINK` are those of a `sockaddr_ll`. -/
def linkWrites : Attribute → List Write
  | .address data | .broadcast data =>
    if data.length < 128 then [⟨12, data.length, 128⟩] else []
  | _ => []

/-- The netmask has a byte for each 8 bits, and one for the rest. -/
def addrWrites (family : Option Family) (prefixlen : UInt8) : Attribute → List Write
  | .address data => family.toList.flatMap fun f =>
    [⟨f.sockaddrBytes, data.length, 128⟩, ⟨f.sockaddrBytes, (prefixlen.toNat + 7) / 8, 128⟩]
  | .local data => family.toList.map fun f => ⟨f.sockaddrBytes, data.length, 128⟩
  | .broadcast data => if family = some .inet then [⟨4, data.length, 128⟩] else []
  | .other _ _ => []

/-- `IFLA_IFNAME` and `IFA_LABEL` are 3. -/
def Entry.attribute (writes : Attribute → List Write) (e : Entry) (a : Attribute) : Entry :=
  let e := { e with writes := writes a ++ e.writes }
  match a with
  | .other 3 data => if data.length < 17 then e.copyName data 0 else e
  | _ => e

inductive Message where
  | newLink (index : BitVec 32) (attrs : List Attribute)
  | newAddr (index : BitVec 32) (family : Option Family) (prefixlen : UInt8)
    (attrs : List Attribute)

def startEntry (out : List Entry) (index : BitVec 32) : Entry :=
  match out.find? (·.index = index) with
  | some known => (Entry.new index).copyName (known.name.take (known.name.findIdx (· = 0))) 1
  | none => .new index

def callback (out : List Entry) : Message → List Entry
  | .newLink index attrs => attrs.foldl (.attribute linkWrites) (.new index) :: out
  | .newAddr index family prefixlen attrs =>
    attrs.foldl (.attribute (addrWrites family prefixlen)) (startEntry out index) :: out

def Entry.Safe (e : Entry) : Prop := (∀ w ∈ e.writes, w.Inside) ∧ (e.ifaName → 0 ∈ e.name.take 17)

def Attribute.LinkFits : Attribute → Prop
  | .address data | .broadcast data => data.length ≤ 116 ∨ 128 ≤ data.length
  | _ => True

def Attribute.AddrFits (family : Option Family) : Attribute → Prop
  | .address data | .local data => ∀ f, family = some f → f.sockaddrBytes + data.length ≤ 128
  | .broadcast data => family = some .inet → data.length ≤ 124
  | .other _ _ => True

def Message.Fits : Message → Prop
  | .newLink _ attrs => ∀ a ∈ attrs, a.LinkFits
  | .newAddr _ family _ attrs => ∀ a ∈ attrs, a.AddrFits family

section
variable {e : Entry} {writes : Attribute → List Write}

def Entry.Named (e : Entry) : Prop := e.name[16]? = some 0

theorem Entry.Named.copyName {name more} (h : e.Named) (hn : name.length < 17) (_ : more ≤ 1) :
    (e.copyName name more).Named := by
  rw [Named] at h
  simp only [Named, Entry.copyName]
  grind

theorem Entry.Named.foldl (h : e.Named) (attrs : List Attribute) :
    (attrs.foldl (.attribute writes) e).Named := by
  induction attrs generalizing e with
  | nil => exact h
  | cons a attrs ih =>
    refine ih ?_
    unfold Entry.attribute
    split
    · split
      · exact Named.copyName h (by assumption) (by decide)
      · exact h
    · exact h

theorem inside_foldl (attrs : List Attribute) :
    (∀ w ∈ (attrs.foldl (.attribute writes) e).writes, w.Inside) ↔
      (∀ w ∈ e.writes, w.Inside) ∧ ∀ a ∈ attrs, ∀ w ∈ writes a, w.Inside := by
  induction attrs generalizing e with
  | nil => simp
  | cons a attrs ih =>
    rw [foldl_cons, ih, forall_mem_cons, ← and_assoc]
    refine and_congr_left' ?_
    unfold Entry.attribute
    split
    · split
      · simp [Entry.copyName, Write.Inside]
        grind
      · grind
    · grind

theorem Entry.Named.safe_iff (h : e.Named) : e.Safe ↔ ∀ w ∈ e.writes, w.Inside := by
  refine and_iff_left fun _ => mem_of_getElem? (i := 16) ?_
  rwa [getElem?_take_of_lt (by decide)]

theorem Entry.Named.findIdx_lt (h : e.Named) : e.name.findIdx (· = 0) < 17 := by
  by_contra hlt
  obtain ⟨hl, h0⟩ := List.getElem?_eq_some_iff.mp h
  have hn := not_of_lt_findIdx (show 16 < e.name.findIdx (· = 0) by omega)
  rw [h0] at hn
  cases hn

theorem startEntry_spec {out} (ho : ∀ e ∈ out, e.Named) (index) :
    (startEntry out index).Named ∧ ∀ w ∈ (startEntry out index).writes, w.Inside := by
  unfold startEntry
  split
  · rename_i known hk
    have hlt := (ho known (mem_of_find?_eq_some hk)).findIdx_lt
    have hl : (known.name.take (known.name.findIdx (· = 0))).length < 17 := by
      rw [length_take]
      omega
    refine ⟨.copyName rfl hl le_rfl, ?_⟩
    simp only [Entry.copyName, Entry.new, forall_mem_singleton, Write.Inside]
    omega
  · exact ⟨rfl, nofun⟩

theorem linkFits_iff (a : Attribute) : (∀ w ∈ linkWrites a, w.Inside) ↔ a.LinkFits := by
  cases a <;> simp [linkWrites, Attribute.LinkFits, Write.Inside] <;> omega

theorem addrFits_iff (family prefixlen) (a : Attribute) :
    (∀ w ∈ addrWrites family prefixlen a, w.Inside) ↔ a.AddrFits family := by
  have hm := prefixlen.toNat_lt
  cases family <;> cases a <;>
    simp [addrWrites, Attribute.AddrFits, Write.Inside, Family.sockaddrBytes] <;> grind

theorem callback_spec {out} (ho : ∀ e ∈ out, e.Named) (m : Message) :
    ∃ e : Entry, callback out m = e :: out ∧ e.Named ∧ (e.Safe ↔ m.Fits) := by
  cases m with
  | newLink index attrs =>
    have hn : (Entry.new index).Named := rfl
    refine ⟨_, rfl, hn.foldl attrs, ?_⟩
    rw [(hn.foldl attrs).safe_iff, inside_foldl, and_iff_right nofun]
    exact forall₂_congr fun a _ => linkFits_iff a
  | newAddr index family prefixlen attrs =>
    obtain ⟨hnd, hin⟩ := startEntry_spec ho index
    refine ⟨_, rfl, hnd.foldl attrs, ?_⟩
    rw [(hnd.foldl attrs).safe_iff, inside_foldl, and_iff_right hin]
    exact forall₂_congr fun a _ => addrFits_iff family prefixlen a

end

end Ifaddrs
