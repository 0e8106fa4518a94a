import Bionic.SearchTrie
import Bionic.SystemPropertyUpdate
import Bionic.WordAlign

/-! The property area: properties in a trie over the parts of their names, built in one region by a
bump allocator. A node is named by its offset, and 0 is no node except for the root. Nodes and
properties have a table each. Offsets and sizes are natural numbers; the lengths that the code keeps
in 32 bits are cut to 32 bits. -/
namespace PropArea
open BitVec (allOnes)
open SearchTrie
open SystemPropertyUpdate (Byte propValueMax)
open List Nat Option Function Trie

def sizeofPropTrieNode : ℕ := 20

def sizeofPropInfo : ℕ := 96

structure PropTrieNode where
  name : List Byte
  prop : ℕ
  left : ℕ
  right : ℕ
  children : ℕ

/-- The union of value and long property is the 92 bytes of `value`. -/
structure PropInfo where
  serial : BitVec 32
  value : ℕ → Byte
  name : List Byte

/-- `chars` holds the long values. -/
structure Area where
  bytesUsed : ℕ
  nodes : ℕ → PropTrieNode
  infos : ℕ → PropInfo
  chars : ℕ → Byte

/-- The code must not copy past the end of an object. The other is a fault of the model, a loop that
was cut off. -/
inductive Fault where
  | overrun
  | fuel
  deriving DecidableEq

def emptyArea : Area where
  bytesUsed := sizeofPropTrieNode + WordAlign.alignUp 4 propValueMax
  nodes _ := ⟨[], 0, 0, 0, 0⟩
  infos _ := ⟨0, fun _ => 0, []⟩
  chars _ := 0

def kLongFlag : BitVec 32 := 1#32 <<< 16

def kLongLegacyErrorBufferSize : ℕ := 56

def kLongLegacyError : List Byte :=
  "Must use __system_property_read_callback() to read".toList.map fun c => BitVec.ofNat 8 c.toNat

def PropInfo.ofShort (name : List Byte) (value : ℕ → Byte) (valuelen : BitVec 32) : PropInfo where
  serial := valuelen <<< 24
  value i := if i < valuelen.toNat then value i else 0
  name := name

def PropInfo.ofLong (name : List Byte) (longOffset : ℕ) : PropInfo where
  serial := BitVec.ofNat 32 kLongLegacyError.length <<< 24 ||| kLongFlag
  value i :=
    if kLongLegacyErrorBufferSize ≤ i ∧ i < kLongLegacyErrorBufferSize + 4 then
      BitVec.ofNat 8 (longOffset / 256 ^ (i - kLongLegacyErrorBufferSize))
    else kLongLegacyError.getD i 0
  name := name

section
variable (paDataSize : ℕ)

def allocate (size bytesUsed : ℕ) : Option (ℕ × ℕ) :=
  let aligned := WordAlign.alignUp 4 size
  if bytesUsed + aligned > paDataSize then none else some (bytesUsed, bytesUsed + aligned)

def allocateObj (size : ℕ) (a : Area) : Option (ℕ × Area) :=
  (allocate paDataSize size a.bytesUsed).map fun n => (n.1, { a with bytesUsed := n.2 })

def newPropTrieNode (name : List Byte) (a : Area) : Option (ℕ × Area) :=
  (allocateObj paDataSize (sizeofPropTrieNode + name.length + 1) a).map fun n =>
    (n.1, { n.2 with nodes := update n.2.nodes n.1 ⟨name, 0, 0, 0, 0⟩ })

/-- A new property, with a long value behind it. If there is no space for the value the space of the
property is lost. -/
def newPropInfo (name : List Byte) (value : ℕ → Byte) (valuelen : BitVec 32) (a : Area) :
    Except Fault (Area × Option ℕ) :=
  match allocateObj paDataSize (sizeofPropInfo + name.length + 1) a with
  | none => .ok (a, none)
  | some (newOffset, a) =>
    if valuelen.toNat ≥ propValueMax then
      match allocateObj paDataSize (valuelen + 1).toNat a with
      | none => .ok (a, none)
      | some (longValueOffset, a) =>
        if longValueOffset + valuelen.toNat + 1 > a.bytesUsed then .error .overrun
        else
          let chars i :=
            if longValueOffset ≤ i ∧ i < longValueOffset + valuelen.toNat then
              value (i - longValueOffset)
            else if i = longValueOffset + valuelen.toNat then 0 else a.chars i
          let info := PropInfo.ofLong name (longValueOffset - newOffset)
          .ok ({ a with infos := update a.infos newOffset info, chars := chars }, some newOffset)
    else
      let info := PropInfo.ofShort name value valuelen
      .ok ({ a with infos := update a.infos newOffset info }, some newOffset)

def toPropObj (off : ℕ) : Option ℕ := if off > paDataSize then none else some off

/-- For names of one length without a NUL before the end. -/
def strncmp : List Byte → List Byte → Ordering
  | x :: xs, y :: ys => if x < y then .lt else if y < x then .gt else strncmp xs ys
  | [], _ => .eq
  | _, [] => .eq

def cmpPropName (one two : List Byte) : Ordering :=
  if one.length < two.length then .lt
  else if one.length > two.length then .gt
  else strncmp one two

def PropTrieNode.link (n : PropTrieNode) : Side → ℕ
  | .left => n.left
  | .children => n.children
  | .right => n.right

def PropTrieNode.setLink (n : PropTrieNode) (off : ℕ) : Side → PropTrieNode
  | .left => { n with left := off }
  | .children => { n with children := off }
  | .right => { n with right := off }

def Area.setNode (a : Area) (off : ℕ) (n : PropTrieNode) : Area :=
  { a with nodes := update a.nodes off n }

def missingNode (allocIfNeeded : Bool) (name : List Byte) (a : Area) (current : ℕ) (side : Side) :
    Area × Option ℕ :=
  if allocIfNeeded then
    match newPropTrieNode paDataSize name a with
    | none => (a, none)
    | some (newOffset, a) =>
      (a.setNode current ((a.nodes current).setLink newOffset side), some newOffset)
  else (a, none)

def findPropTrieNode (allocIfNeeded : Bool) (name : List Byte) :
    ℕ → Area → Option ℕ → Except Fault (Area × Option ℕ)
  | 0, _, _ => .error .fuel
  | _ + 1, a, none => .ok (a, none)
  | fuel + 1, a, some current =>
    let n := a.nodes current
    match cmpPropName name n.name with
    | .eq => .ok (a, some current)
    | .lt =>
      if n.left ≠ 0 then findPropTrieNode allocIfNeeded name fuel a (toPropObj paDataSize n.left)
      else .ok (missingNode paDataSize allocIfNeeded name a current .left)
    | .gt =>
      if n.right ≠ 0 then findPropTrieNode allocIfNeeded name fuel a (toPropObj paDataSize n.right)
      else .ok (missingNode paDataSize allocIfNeeded name a current .right)

def substr (s : List Byte) : List Byte := s.take (s.length % 2 ^ 32)

def substrs (name : List Byte) : List (List Byte) := (name.splitOn 46).map substr

/-- The loop of `find_property` over the parts of the name. -/
def findNode (allocIfNeeded : Bool) :
    List (List Byte) → Area → ℕ → Except Fault (Area × Option ℕ)
  | [], a, current => .ok (a, some current)
  | name :: rest, a, current =>
    if name.length = 0 then .ok (a, none)
    else
      let children := (a.nodes current).children
      let (a, root) :=
        if children ≠ 0 then (a, toPropObj paDataSize children)
        else missingNode paDataSize allocIfNeeded name a current .children
      match root with
      | none => .ok (a, none)
      | some _ =>
        match findPropTrieNode paDataSize allocIfNeeded name (a.bytesUsed + 1) a root with
        | .error e => .error e
        | .ok (a, none) => .ok (a, none)
        | .ok (a, some current) => findNode allocIfNeeded rest a current

/-- The end of `find_property`, at the node of the name. -/
def propOf (allocIfNeeded : Bool) (name : List Byte) (value : ℕ → Byte) (valuelen : BitVec 32)
    (a : Area) (current : ℕ) : Except Fault (Area × Option ℕ) :=
  let n := a.nodes current
  if n.prop ≠ 0 then .ok (a, toPropObj paDataSize n.prop)
  else if allocIfNeeded then
    match newPropInfo paDataSize name value valuelen a with
    | .error e => .error e
    | .ok (a, none) => .ok (a, none)
    | .ok (a, some newOffset) =>
      .ok (a.setNode current { a.nodes current with prop := newOffset }, some newOffset)
  else .ok (a, none)

def findProperty (allocIfNeeded : Bool) (name : List Byte) (value : ℕ → Byte)
    (valuelen : BitVec 32) (a : Area) (trie : Option ℕ) : Except Fault (Area × Option ℕ) :=
  match trie with
  | none => .ok (a, none)
  | some trie =>
    match findNode paDataSize allocIfNeeded (substrs name) a trie with
    | .error e => .error e
    | .ok (a, none) => .ok (a, none)
    | .ok (a, some current) => propOf paDataSize allocIfNeeded name value valuelen a current

def rootNode : Option ℕ := toPropObj paDataSize 0

def find (a : Area) (name : List Byte) : Except Fault (Option ℕ) :=
  (findProperty paDataSize false name (fun _ => 0) 0 a (rootNode paDataSize)).map Prod.snd

def add (a : Area) (name : List Byte) (value : ℕ → Byte) (valuelen : BitVec 32) :
    Except Fault (Area × Option ℕ) :=
  findProperty paDataSize true name value valuelen a (rootNode paDataSize)

def visitLink (visit : Option ℕ → Except Fault (Bool × List ℕ)) (off : ℕ) :
    Except Fault (Bool × List ℕ) :=
  if off = 0 then .ok (true, []) else visit (toPropObj paDataSize off)

def foreachProperty : ℕ → Area → Option ℕ → Except Fault (Bool × List ℕ)
  | 0, _, _ => .error .fuel
  | _ + 1, _, none => .ok (false, [])
  | fuel + 1, a, some trie => do
    let n := a.nodes trie
    let (ok, left) ← visitLink paDataSize (foreachProperty fuel a) n.left
    if ok = false then return (false, left)
    let prop := if n.prop = 0 then some [] else (toPropObj paDataSize n.prop).map ([·])
    match prop with
    | none => return (false, left)
    | some prop =>
      let (ok, children) ← visitLink paDataSize (foreachProperty fuel a) n.children
      if ok = false then return (false, left ++ prop ++ children)
      let (ok, right) ← visitLink paDataSize (foreachProperty fuel a) n.right
      return (ok, left ++ prop ++ children ++ right)

def foreach (a : Area) : Except Fault (Bool × List ℕ) :=
  foreachProperty paDataSize (a.bytesUsed + 1) a (rootNode paDataSize)

end

theorem strncmp_self (name) : strncmp name name = .eq := by
  induction name with
  | nil => rfl
  | cons x xs ih => simp [strncmp, ih]

theorem eq_of_strncmp {one two} (hl : one.length = two.length)
    (h : strncmp one two = .eq) : one = two := by
  induction one generalizing two with
  | nil => exact (eq_nil_of_length_eq_zero hl.symm).symm
  | cons x xs ih =>
    cases two with
    | nil => cases hl
    | cons y ys =>
      rw [strncmp] at h
      split at h
      · cases h
      split at h
      · cases h
      rename_i hxy hy
      have hx : x = y := BitVec.le_antisymm (BitVec.not_lt.mp hy) (BitVec.not_lt.mp hxy)
      rw [hx, ih (Nat.succ.inj hl) h]

theorem cmpPropName_self (name) : cmpPropName name name = .eq := by
  simp [cmpPropName, strncmp_self]

theorem eq_of_cmpPropName (one two) (h : cmpPropName one two = .eq) : one = two := by
  rw [cmpPropName] at h
  split at h
  · cases h
  split at h
  · cases h
  · exact eq_of_strncmp (by omega) h

variable {paDataSize : ℕ} {a a' : Area} {t : Trie (List Byte) ℕ} {ks : List (List Byte)}

section
variable {nodes nodes' : ℕ → PropTrieNode} {off : ℕ}

def PropTrieNode.item (n : PropTrieNode) : Option ℕ := if n.prop = 0 then none else some n.prop

def Represents (nodes : ℕ → PropTrieNode) : ℕ → Trie (List Byte) ℕ → Prop
  | off, .nil => off = 0
  | off, .node x key item sub => off = x ∧ x ≠ 0 ∧ (nodes x).name = key ∧ (nodes x).item = item ∧
    ∀ side, Represents nodes ((nodes x).link side) (sub side)

theorem Represents.congr (h : Represents nodes off t) (hsm : ∀ x ∈ t.addrs, nodes' x = nodes x) :
    Represents nodes' off t := by
  induction t generalizing off with
  | nil => exact h
  | node x key item sub ih =>
    obtain ⟨ho, hx, hn, hit, hs⟩ := h
    have hsf := hsm x (Trie.mem_addrs_node.mpr (.inl rfl))
    rw [← hsf] at hn hit
    refine ⟨ho, hx, hn, hit, ?_⟩
    intro side
    rw [hsf]
    exact ih side (hs side) fun y hy => hsm y (Trie.mem_addrs_node.mpr (.inr ⟨side, hy⟩))

theorem Represents.eq_zero_iff (h : Represents nodes off t) : off = 0 ↔ t = .nil := by
  cases t with
  | nil => exact ⟨fun _ => rfl, fun _ => h⟩
  | node x key item sub =>
    obtain ⟨rfl, hx, -⟩ := h
    exact ⟨fun h0 => absurd h0 hx, nofun⟩

/-- The offsets of the nodes are distinct and inside the space in use. -/
structure Placed (paDataSize used : ℕ) (t : Trie (List Byte) ℕ) : Prop where
  nodup : t.addrs.Nodup
  lt : ∀ x ∈ t.addrs, x < used
  le : ∀ x ∈ t.addrs, x ≤ paDataSize

theorem Placed.sub {used x key item sub} (h : Placed paDataSize used (.node x key item sub))
    (side) : Placed paDataSize used (sub side) where
  nodup := (apart_of_nodup h.nodup).nodup side
  lt y hy := h.lt y (Trie.mem_addrs_node.mpr (.inr ⟨side, hy⟩))
  le y hy := h.le y (Trie.mem_addrs_node.mpr (.inr ⟨side, hy⟩))

theorem toPropObj_of_le (h : off ≤ paDataSize) : toPropObj paDataSize off = some off :=
  if_neg (by omega)

theorem Placed.length_le {used} (h : Placed paDataSize used t) : t.addrs.length ≤ used := by
  have hs : t.addrs ⊆ range used := fun x hx => List.mem_range.mpr (h.lt x hx)
  simpa using (subperm_of_subset h.nodup hs).length_le

variable {alloc : Bool} {x cur f : ℕ} {key : List Byte} {item : Option ℕ}
  {sub : Side → Trie (List Byte) ℕ} {side : Side} {g : Trie.Grown (List Byte) ℕ}

def allocNode (paDataSize : ℕ) (alloc : Bool) (name : List Byte) (used : ℕ) : Option (ℕ × ℕ) :=
  if alloc then allocate paDataSize (sizeofPropTrieNode + name.length + 1) used else none

variable {k : List Byte} {used : ℕ}

theorem allocate_eq_some {size used'} (h : allocate paDataSize size used = some (f, used')) :
    f = used ∧ used' = used + WordAlign.alignUp 4 size ∧ used' ≤ paDataSize := by
  rw [allocate] at h
  split at h
  · cases h
  · cases h
    exact ⟨rfl, rfl, by omega⟩

theorem allocNode_eq_some {name used'}
    (h : allocNode paDataSize alloc name used = some (f, used')) :
    f = used ∧ used < used' ∧ used' ≤ paDataSize := by
  rw [allocNode] at h
  split at h
  · obtain ⟨hf, hu, hl⟩ := allocate_eq_some h
    have hup := WordAlign.le_alignUp (by decide : 0 < 4) (sizeofPropTrieNode + name.length + 1)
    exact ⟨hf, by omega, hl⟩
  · cases h

theorem fresh_allocNode : Trie.Fresh (allocNode paDataSize alloc) := by
  intro name used f used' h
  obtain ⟨rfl, hl, -⟩ := allocNode_eq_some h
  exact ⟨le_rfl, hl⟩

section
variable (n : PropTrieNode)
include n

@[simp] theorem link_setLink : (n.setLink off side).link side = off := by
  cases side <;> rfl

theorem link_setLink_of_ne {side'} (h : side' ≠ side) :
    (n.setLink off side).link side' = n.link side' := by
  cases side <;> cases side' <;> first | rfl | exact absurd rfl h

@[simp] theorem setLink_name : (n.setLink off side).name = n.name := by
  cases side <;> rfl

@[simp] theorem setLink_item : (n.setLink off side).item = n.item := by
  cases side <;> rfl

theorem setLink_self : n.setLink (n.link side) side = n := by
  cases side <;> rfl

end

def Area.attach (a : Area) (cur : ℕ) (side : Side) (name : List Byte) (used : ℕ) : Area :=
  { a with
    bytesUsed := used
    nodes := update (update a.nodes a.bytesUsed ⟨name, 0, 0, 0, 0⟩) cur
      ((a.nodes cur).setLink a.bytesUsed side) }

theorem missingNode_eq (hc : cur < a.bytesUsed) (name) :
    missingNode paDataSize alloc name a cur side =
      match allocNode paDataSize alloc name a.bytesUsed with
      | none => (a, none)
      | some (_, used) => (a.attach cur side name used, some a.bytesUsed) := by
  cases alloc with
  | false => rfl
  | true =>
    rw [missingNode, allocNode, newPropTrieNode, allocateObj, if_pos rfl, if_pos rfl]
    cases h : allocate paDataSize (sizeofPropTrieNode + name.length + 1) a.bytesUsed with
    | none => rfl
    | some n =>
      obtain ⟨f, used⟩ := n
      obtain ⟨rfl, -, -⟩ := allocate_eq_some h
      simp [Area.attach, Area.setNode, update_of_ne (Nat.ne_of_lt hc)]

structure Walked (a a' : Area) (off : ℕ) (t : Trie (List Byte) ℕ)
    (g : Trie.Grown (List Byte) ℕ) : Prop where
  represents : Represents a'.nodes off g.trie
  used : a'.bytesUsed = g.used
  frame : ∀ y, y ∉ t.addrs → y < a.bytesUsed → a'.nodes y = a.nodes y
  infos : a'.infos = a.infos
  chars : a'.chars = a.chars

/-- What a search has done to an area, from a link of the node `cur`. -/
structure Entered (a a' : Area) (cur : ℕ) (side : Side) (t : Trie (List Byte) ℕ)
    (g : Trie.Grown (List Byte) ℕ) : Prop where
  represents : Represents a'.nodes ((a'.nodes cur).link side) g.trie
  used : a'.bytesUsed = g.used
  self : a'.nodes cur = (a.nodes cur).setLink ((a'.nodes cur).link side) side
  frame : ∀ y ≠ cur, y ∉ t.addrs → y < a.bytesUsed → a'.nodes y = a.nodes y
  infos : a'.infos = a.infos
  chars : a'.chars = a.chars

theorem Entered.refl (h : Represents a.nodes ((a.nodes cur).link side) t) (found) :
    Entered a a cur side t ⟨t, a.bytesUsed, found⟩ where
  represents := h
  used := rfl
  self := (setLink_self _).symm
  frame _ _ _ _ := rfl
  infos := rfl
  chars := rfl

theorem Walked.entered (h : Walked a a' ((a.nodes cur).link side) t g) (hc : cur ∉ t.addrs)
    (hl : cur < a.bytesUsed) : Entered a a' cur side t g where
  represents := by
    rw [h.frame cur hc hl]
    exact h.represents
  used := h.used
  self := by
    rw [h.frame cur hc hl]
    exact (setLink_self _).symm
  frame y _ hy := h.frame y hy
  infos := h.infos
  chars := h.chars

theorem Entered.walked (h : Entered a a' x side (sub side) g)
    (hr : Represents a.nodes x (.node x key item sub))
    (hp : Placed paDataSize a.bytesUsed (.node x key item sub)) :
    Walked a a' x (.node x key item sub)
      ⟨.node x key item (update sub side g.trie), g.used, g.found⟩ := by
  obtain ⟨-, hx, hn, hit, hs⟩ := hr
  have ha := apart_of_nodup hp.nodup
  refine ⟨⟨rfl, hx, ?_, ?_, ?_⟩, h.used, ?_, h.infos, h.chars⟩
  · rw [h.self, setLink_name, hn]
  · rw [h.self, setLink_item, hit]
  · intro side'
    by_cases hsd : side' = side
    · subst hsd
      rw [update_self]
      exact h.represents
    rw [update_of_ne hsd, h.self, link_setLink_of_ne _ hsd]
    refine (hs side').congr fun y hy => h.frame y ?_ ?_ ((hp.sub side').lt y hy)
    · rintro rfl
      exact ha.root side' hy
    · exact ha.sides side' side hsd y hy
  · intro y hy hl
    refine h.frame y (fun hyx => hy (Trie.mem_addrs_node.mpr (.inl hyx))) ?_ hl
    exact fun hys => hy (Trie.mem_addrs_node.mpr (.inr ⟨side, hys⟩))

def arrives (cur : ℕ) (g : Trie.Grown (List Byte) ℕ) : List (List Byte) → Option ℕ
  | [] => some cur
  | _ :: _ => g.found

/-- The loop over the parts follows the search in the trie. -/
def FindNodeSpec (paDataSize : ℕ) (alloc : Bool) (ks : List (List Byte)) : Prop :=
  ∀ a cur t, Represents a.nodes ((a.nodes cur).link .children) t →
    Placed paDataSize a.bytesUsed t → cur ∉ t.addrs → cur < a.bytesUsed →
    ∃ a', findNode paDataSize alloc ks a cur =
        .ok (a', arrives cur (t.grow cmpPropName (allocNode paDataSize alloc) ks a.bytesUsed) ks) ∧
      Entered a a' cur .children t (t.grow cmpPropName (allocNode paDataSize alloc) ks a.bytesUsed)

/-- A search for the parts `k :: ks` among siblings and then below. -/
def walkFrom (paDataSize : ℕ) (alloc : Bool) (k : List Byte) (ks : List (List Byte)) (fuel : ℕ)
    (a : Area) (off : ℕ) : Except Fault (Area × Option ℕ) :=
  match findPropTrieNode paDataSize alloc k fuel a (some off) with
  | .error e => .error e
  | .ok (a, none) => .ok (a, none)
  | .ok (a, some current) => findNode paDataSize alloc ks a current

theorem attach_findNode (ih : FindNodeSpec paDataSize alloc ks) (hc : cur < a.bytesUsed)
    (ha : allocNode paDataSize alloc k a.bytesUsed = some (f, used)) :
    ∃ a', findNode paDataSize alloc ks (a.attach cur side k used) a.bytesUsed =
        .ok (a', (Trie.chain (allocNode paDataSize alloc) (k :: ks) a.bytesUsed :
          Trie.Grown (List Byte) ℕ).found) ∧ Entered a a' cur side .nil
        (Trie.chain (allocNode paDataSize alloc) (k :: ks) a.bytesUsed) := by
  obtain ⟨rfl, hlt, -⟩ := allocNode_eq_some ha
  have hne : a.bytesUsed ≠ cur := ne_of_gt hc
  have hn : (a.attach cur side k used).nodes a.bytesUsed = ⟨k, 0, 0, 0, 0⟩ := by
    simp [Area.attach, hne]
  have hr : Represents (a.attach cur side k used).nodes
      (((a.attach cur side k used).nodes a.bytesUsed).link .children) .nil := by
    rw [hn]
    rfl
  obtain ⟨a', hfd, het⟩ := ih (a.attach cur side k used) a.bytesUsed .nil hr
    ⟨nodup_nil, nofun, nofun⟩ not_mem_nil hlt
  have hsf : a'.nodes cur = (a.nodes cur).setLink a.bytesUsed side := by
    rw [het.frame cur hne.symm not_mem_nil (hc.trans hlt)]
    simp [Area.attach]
  have hno := het.self
  rw [hn] at hno
  have hb := het.represents
  have hu := het.used
  have hf : ∀ y ≠ cur, y ∉ ([] : List ℕ) → y < a.bytesUsed → a'.nodes y = a.nodes y := by
    intro y hy _ hyt
    rw [het.frame y (Nat.ne_of_lt hyt) not_mem_nil (hyt.trans hlt)]
    simp [Area.attach, hy, Nat.ne_of_lt hyt]
  have hl : ∀ side' ≠ Side.children,
      Represents a'.nodes ((a'.nodes a.bytesUsed).link side') (.nil : Trie (List Byte) ℕ) := by
    intro side' hs
    rw [hno, link_setLink_of_ne _ hs]
    cases side' <;> rfl
  have hnm : (a'.nodes a.bytesUsed).name = k := by
    rw [hno, setLink_name]
  have hit : (a'.nodes a.bytesUsed).item = none := by
    rw [hno, setLink_item]
    rfl
  have hp : a.bytesUsed ≠ 0 := by omega
  refine ⟨a', hfd.trans ?_, ?_⟩
  · cases ks <;> rw [Trie.chain, ha] <;> rfl
  cases ks <;> rw [Trie.chain, ha]
  all_goals
    refine ⟨?_, hu, ?_, hf, het.infos, het.chars⟩
    · rw [hsf, link_setLink]
      refine ⟨rfl, hp, hnm, hit, fun side' => ?_⟩
      by_cases hs : side' = .children
      · subst hs
        exact hb
      · simpa only [update_of_ne hs] using hl side' hs
    · rw [hsf, link_setLink]

variable {fuel : ℕ}

theorem findPropTrieNode_sibling (hs : cmpPropName k (a.nodes off).name = .lt ∧ side = .left ∨
      cmpPropName k (a.nodes off).name = .gt ∧ side = .right) :
    findPropTrieNode paDataSize alloc k (fuel + 1) a (some off) =
      if (a.nodes off).link side ≠ 0 then findPropTrieNode paDataSize alloc k fuel a
          (toPropObj paDataSize ((a.nodes off).link side))
      else .ok (missingNode paDataSize alloc k a off side) := by
  rcases hs with ⟨hc, rfl⟩ | ⟨hc, rfl⟩ <;> simp only [findPropTrieNode, hc] <;> rfl

theorem turn_sibling
    (hs : cmpPropName k key = .lt ∧ side = .left ∨ cmpPropName k key = .gt ∧ side = .right) :
    Trie.turn cmpPropName k ks key = some (side, k :: ks) := by
  rcases hs with ⟨hc, rfl⟩ | ⟨hc, rfl⟩ <;> simp [Trie.turn, hc]

theorem length_addrs_sub_lt (side) :
    (sub side).addrs.length < (Trie.node x key item sub).addrs.length := by
  cases side <;> simp only [Trie.addrs, length_cons, length_append] <;> omega

theorem walkFrom_eq (ih : FindNodeSpec paDataSize alloc ks) (ht : t ≠ .nil)
    (hr : Represents a.nodes off t)
    (hpl : Placed paDataSize a.bytesUsed t) (hfu : t.addrs.length ≤ fuel) :
    ∃ a', walkFrom paDataSize alloc k ks fuel a off =
        .ok (a', (t.grow cmpPropName (allocNode paDataSize alloc) (k :: ks) a.bytesUsed).found) ∧
      Walked a a' off t
        (t.grow cmpPropName (allocNode paDataSize alloc) (k :: ks) a.bytesUsed) := by
  induction t generalizing fuel off with
  | nil => exact absurd rfl ht
  | node x key item sub ihsub =>
    obtain ⟨rfl, hx, hnm, hit, hsb⟩ := id hr
    have hlt : off < a.bytesUsed := hpl.lt off (Trie.mem_addrs_node.mpr (.inl rfl))
    have ha := apart_of_nodup hpl.nodup
    obtain ⟨fuel, rfl⟩ : ∃ n, fuel = n + 1 := by
      have hp : 0 < (Trie.node off key item sub).addrs.length := succ_pos _
      exact ⟨fuel - 1, by omega⟩
    have hsi : ∀ side, (cmpPropName k key = .lt ∧ side = .left ∨
        cmpPropName k key = .gt ∧ side = .right) →
        ∃ a', walkFrom paDataSize alloc k ks (fuel + 1) a off =
            .ok (a', ((sub side).grow cmpPropName (allocNode paDataSize alloc) (k :: ks)
              a.bytesUsed).found) ∧
          Entered a a' off side (sub side)
            ((sub side).grow cmpPropName (allocNode paDataSize alloc) (k :: ks) a.bytesUsed) := by
      intro side hsd
      rw [← hnm] at hsd
      rw [walkFrom, findPropTrieNode_sibling hsd]
      by_cases hlk : (a.nodes off).link side = 0
      · have hn := ((hsb side).eq_zero_iff).mp hlk
        have hrepSide := hsb side
        rw [hn] at hrepSide ⊢
        rw [if_neg (not_not.mpr hlk), missingNode_eq hlt]
        cases hal : allocNode paDataSize alloc k a.bytesUsed with
        | none =>
          rw [Trie.grow, Trie.chain, hal]
          exact ⟨a, rfl, Entered.refl hrepSide none⟩
        | some n =>
          obtain ⟨f, used⟩ := n
          exact attach_findNode ih hlt hal
      · have hno : sub side ≠ .nil := fun hn => hlk (((hsb side).eq_zero_iff).mpr hn)
        have hle : (a.nodes off).link side ≤ paDataSize := by
          have hplacedSub := (hpl.sub side).le
          have hrepSub := hsb side
          cases hs : sub side with
          | nil => exact absurd hs hno
          | node y key' item' sub' =>
            rw [hs] at hrepSub hplacedSub
            rw [hrepSub.1]
            exact hplacedSub y (Trie.mem_addrs_node.mpr (.inl rfl))
        rw [if_pos hlk, toPropObj_of_le hle]
        have hl : (sub side).addrs.length < (Trie.node off key item sub).addrs.length :=
          length_addrs_sub_lt side
        obtain ⟨a', hwk, hw⟩ := ihsub side hno (hsb side) (hpl.sub side)
          (show (sub side).addrs.length ≤ fuel by omega)
        exact ⟨a', hwk, hw.entered (ha.root side) hlt⟩
    cases hc : cmpPropName k key with
    | lt =>
      obtain ⟨a', hwk, het⟩ := hsi .left (.inl ⟨hc, rfl⟩)
      rw [Trie.grow, turn_sibling (.inl ⟨hc, rfl⟩)]
      exact ⟨a', hwk, het.walked hr hpl⟩
    | gt =>
      obtain ⟨a', hwk, het⟩ := hsi .right (.inr ⟨hc, rfl⟩)
      rw [Trie.grow, turn_sibling (.inr ⟨hc, rfl⟩)]
      exact ⟨a', hwk, het.walked hr hpl⟩
    | eq =>
      have hf : walkFrom paDataSize alloc k ks (fuel + 1) a off =
          findNode paDataSize alloc ks a off := by
        simp only [walkFrom, findPropTrieNode, hnm, hc]
      obtain ⟨a', hno, het⟩ := ih a off (sub .children) (hsb .children)
        (hpl.sub .children) (ha.root .children) hlt
      rw [hf, hno]
      cases ks with
      | nil =>
        rw [grow_nil_keys] at het
        have hw := het.walked hr hpl
        rw [update_eq_self] at hw
        refine ⟨a', ?_, ?_⟩
        · simp [Trie.grow, Trie.turn, hc, arrives]
        · simp only [Trie.grow, Trie.turn, hc]
          exact ⟨hw.represents, hw.used, hw.frame, hw.infos, hw.chars⟩
      | cons k' ks =>
        have htn : Trie.turn cmpPropName k (k' :: ks) key = some (.children, k' :: ks) := by
          simp [Trie.turn, hc]
        rw [Trie.grow, htn]
        exact ⟨a', rfl, het.walked hr hpl⟩

theorem findNode_spec (ks : List (List Byte)) (hks : ∀ k ∈ ks, k ≠ []) :
    FindNodeSpec paDataSize alloc ks := by
  induction ks with
  | nil =>
    intro a cur t hr _ _ _
    rw [grow_nil_keys]
    exact ⟨a, rfl, Entered.refl hr none⟩
  | cons k ks ih =>
    intro a cur t hr hp hcr hl
    have ih := ih fun k' hk' => hks k' (mem_cons_of_mem k hk')
    have hk : ¬k.length = 0 :=
      fun h => hks k mem_cons_self (eq_nil_of_length_eq_zero h)
    cases t with
    | nil =>
      have hc : (a.nodes cur).children = 0 := hr
      simp only [findNode, hk, if_false, hc, ne_eq, not_true_eq_false, missingNode_eq hl]
      cases ha : allocNode paDataSize alloc k a.bytesUsed with
      | none =>
        refine ⟨a, ?_, ?_⟩
        · simp [Trie.grow, Trie.chain, ha, arrives]
        · rw [Trie.grow, Trie.chain, ha]
          exact Entered.refl hr none
      | some n =>
        obtain ⟨f, used⟩ := n
        have hn : a.bytesUsed ≠ cur := ne_of_gt hl
        have hf : findPropTrieNode paDataSize alloc k
            ((a.attach cur .children k used).bytesUsed + 1) (a.attach cur .children k used)
            (some a.bytesUsed) = .ok (a.attach cur .children k used, some a.bytesUsed) := by
          simp [findPropTrieNode, Area.attach, hn, cmpPropName_self]
        rw [hf]
        exact attach_findNode ih hl ha
    | node x key item sub =>
      obtain ⟨hx, hx0, -⟩ := id hr
      have hc : (a.nodes cur).children = x := hx
      have hle : x ≤ paDataSize := hp.le x (Trie.mem_addrs_node.mpr (.inl rfl))
      have hfu := le_succ_of_le hp.length_le
      have hno : Trie.node x key item sub ≠ .nil := by simp
      obtain ⟨a', hwk, hw⟩ := walkFrom_eq (k := k) ih hno hr hp hfu
      refine ⟨a', ?_, hw.entered hcr hl⟩
      simp only [findNode, hk, if_false, hc, hx0, ne_eq, not_false_eq_true, if_true,
        toPropObj_of_le hle]
      rw [hx] at hwk
      exact hwk

theorem findNode_empty (pre post a cur) : findNode paDataSize alloc (pre ++ [] :: post) a cur =
      (findNode paDataSize alloc pre a cur).map fun r => (r.1, none) := by
  induction pre generalizing a cur with
  | nil => simp [findNode, Except.map]
  | cons k pre ih =>
    simp only [cons_append, findNode]
    split
    · rfl
    split
    · rfl
    split
    · rfl
    · rfl
    · exact ih _ _

section
variable (h : Represents nodes off t)
include h

theorem Represents.ne_zero : 0 ∉ t.addrs := by
  induction t generalizing off with
  | nil => exact not_mem_nil
  | node x key item sub ih =>
    obtain ⟨-, hx, -, -, hs⟩ := h
    intro hm
    rcases Trie.mem_addrs_node.mp hm with h0 | ⟨side, hm⟩
    · exact hx h0.symm
    · exact ih side (hs side) hm

theorem Represents.lookup_eq (ks) :
    t.lookup cmpPropName ks = (t.locate cmpPropName ks).bind fun x => (nodes x).item := by
  induction t generalizing off ks with
  | nil => rfl
  | node x key item sub ih =>
    obtain ⟨-, -, -, hit, hs⟩ := h
    cases ks with
    | nil => rfl
    | cons k ks =>
      rw [Trie.lookup, Trie.locate]
      cases Trie.turn cmpPropName k ks key with
      | none => exact hit.symm
      | some next => exact ih next.1 (hs next.1) next.2

theorem Represents.setAt {p} (hnd : t.addrs.Nodup)
    (hl : t.locate cmpPropName ks = some x) (hp : p ≠ 0) :
    Represents (update nodes x { nodes x with prop := p }) off (t.setAt cmpPropName p ks) := by
  induction t generalizing off ks with
  | nil => cases hl
  | node y key item sub ih =>
    obtain ⟨ho, hy, hn, hit, hs⟩ := h
    have ha := apart_of_nodup hnd
    cases ks with
    | nil => cases hl
    | cons k ks =>
      rw [Trie.locate] at hl
      rw [Trie.setAt]
      cases ht : Trie.turn cmpPropName k ks key with
      | none =>
        simp only [ht, Option.some.injEq] at hl
        subst hl
        refine ⟨ho, hy, by simpa using hn, by simp [PropTrieNode.item, hp], ?_⟩
        intro side
        have hlk : (update nodes y { nodes y with prop := p } y).link side =
            (nodes y).link side := by
          rw [update_self]
          cases side <;> rfl
        rw [hlk]
        refine (hs side).congr fun z hz => update_of_ne ?_ _ _
        rintro rfl
        exact ha.root side hz
      | some next =>
        obtain ⟨side, rest⟩ := next
        simp only [ht] at hl
        have hx := locate_mem hl
        have hyx : y ≠ x := by
          rintro rfl
          exact ha.root side hx
        refine ⟨ho, hy, ?_, ?_, ?_⟩
        · rw [update_of_ne hyx, hn]
        · rw [update_of_ne hyx, hit]
        intro side'
        rw [update_of_ne hyx]
        by_cases hsd : side' = side
        · subst hsd
          rw [update_self]
          exact ih side' (hs side') (ha.nodup side') hl
        rw [update_of_ne hsd]
        refine (hs side').congr fun z hz => update_of_ne ?_ _ _
        rintro rfl
        exact ha.sides side' side hsd z hz hx

end

theorem foreachProperty_eq (h : Represents a.nodes off t) (ht : t ≠ .nil)
    (hpl : Placed paDataSize a.bytesUsed t) (hie : ∀ v ∈ t.items, v ≤ paDataSize)
    (hf : t.addrs.length ≤ fuel) :
    foreachProperty paDataSize fuel a (some off) = .ok (true, t.items) := by
  induction t generalizing fuel off with
  | nil => exact absurd rfl ht
  | node x key item sub ih =>
    obtain ⟨rfl, -, -, hit, hsb⟩ := h
    obtain ⟨fuel, rfl⟩ : ∃ n, fuel = n + 1 := by
      have hp : 0 < (Trie.node off key item sub).addrs.length := succ_pos _
      exact ⟨fuel - 1, by omega⟩
    have hb : ∀ side, visitLink paDataSize (foreachProperty paDataSize fuel a)
        ((a.nodes off).link side) = .ok (true, (sub side).items) := by
      intro side
      rw [visitLink]
      by_cases hn : sub side = .nil
      · have hlk := ((hsb side).eq_zero_iff).mpr hn
        rw [if_pos hlk, hn]
        rfl
      have hlk : ¬(a.nodes off).link side = 0 :=
        fun h0 => hn (((hsb side).eq_zero_iff).mp h0)
      have hle : (a.nodes off).link side ≤ paDataSize := by
        have hrepSub := hsb side
        have hplacedSub := (hpl.sub side).le
        cases hs : sub side with
        | nil => exact absurd hs hn
        | node y key' item' sub' =>
          rw [hs] at hrepSub hplacedSub
          rw [hrepSub.1]
          exact hplacedSub y (Trie.mem_addrs_node.mpr (.inl rfl))
      have hl : (sub side).addrs.length < (Trie.node off key item sub).addrs.length :=
        length_addrs_sub_lt side
      rw [if_neg hlk, toPropObj_of_le hle]
      refine ih side (hsb side) hn (hpl.sub side) (fun v hv => hie v ?_) (by omega)
      cases side <;> simp [Trie.items, hv]
    have hpr : (if (a.nodes off).prop = 0 then some []
        else (toPropObj paDataSize (a.nodes off).prop).map ([·])) = some item.toList := by
      rw [← hit, PropTrieNode.item]
      by_cases h0 : (a.nodes off).prop = 0
      · simp [h0]
      have hm : (a.nodes off).prop ∈ (Trie.node off key item sub).items := by
        rw [← hit]
        simp [Trie.items, PropTrieNode.item, h0]
      simp [h0, toPropObj_of_le (hie _ hm)]
    have hlf := hb .left
    have hc := hb .children
    have hr := hb .right
    simp only [PropTrieNode.link] at hlf hc hr
    rw [foreachProperty]
    rw [hlf, hpr, hc, hr]
    rfl

end

variable {t' : Trie (List Byte) ℕ} {name : List Byte} {value : ℕ → Byte} {valuelen : BitVec 32}

structure Built (paDataSize : ℕ) (a : Area) (t : Trie (List Byte) ℕ) : Prop where
  represents : Represents a.nodes (a.nodes 0).children t
  root : (a.nodes 0).left = 0 ∧ (a.nodes 0).right = 0 ∧ (a.nodes 0).prop = 0
  placed : Placed paDataSize a.bytesUsed t
  pos : 0 < a.bytesUsed
  used : a.bytesUsed ≤ max emptyArea.bytesUsed paDataSize
  items : ∀ v ∈ t.items, v < a.bytesUsed ∧ v ≤ paDataSize

theorem built_emptyArea : Built paDataSize emptyArea .nil where
  represents := rfl
  root := ⟨rfl, rfl, rfl⟩
  placed := ⟨nodup_nil, nofun, nofun⟩
  pos := by decide
  used := le_max_left _ _
  items := nofun

def WellFormed (name : List Byte) : Prop := ∀ part ∈ substrs name, part ≠ []

instance (name : List Byte) : Decidable (WellFormed name) :=
  inferInstanceAs (Decidable (∀ part ∈ substrs name, part ≠ []))

structure Extends (a a' : Area) : Prop where
  used : a.bytesUsed ≤ a'.bytesUsed
  infos : ∀ x < a.bytesUsed, a'.infos x = a.infos x
  chars : ∀ x < a.bytesUsed, a'.chars x = a.chars x

theorem Built.findNode (h : Built paDataSize a t) (alloc ks)
    (hk : ∀ k ∈ ks, k ≠ []) : ∃ a', findNode paDataSize alloc ks a 0 = .ok (a', arrives 0
        (t.grow cmpPropName (allocNode paDataSize alloc) ks a.bytesUsed) ks) ∧
      Built paDataSize a' (t.grow cmpPropName (allocNode paDataSize alloc) ks a.bytesUsed).trie ∧
      a'.bytesUsed = (t.grow cmpPropName (allocNode paDataSize alloc) ks a.bytesUsed).used ∧
      Extends a a' := by
  have hs : FindNodeSpec paDataSize alloc ks := findNode_spec ks hk
  obtain ⟨a', hf, het⟩ := hs a 0 t h.represents h.placed h.represents.ne_zero h.pos
  have hu : a.bytesUsed ≤ a'.bytesUsed := by
    rw [het.used]
    exact used_le_grow fresh_allocNode t ks a.bytesUsed
  refine ⟨a', hf, ⟨het.represents, ?_, ⟨?_, ?_, ?_⟩, lt_of_lt_of_le h.pos hu,
    ?_, ?_⟩, het.used, hu, fun x _ => by rw [het.infos],
    fun x _ => by rw [het.chars]⟩
  · rw [het.self]
    exact h.root
  · exact nodup_addrs_grow fresh_allocNode t ks a.bytesUsed h.placed.nodup h.placed.lt
  · intro x hx
    rcases mem_addrs_grow fresh_allocNode t ks a.bytesUsed x hx with hx | ⟨-, hx⟩
    · exact lt_of_lt_of_le (h.placed.lt x hx) hu
    · rw [het.used]
      exact hx
  · refine grow_forall ?_ t ks h.placed.le
    intro k u f u' ha
    obtain ⟨rfl, hl, hle⟩ := allocNode_eq_some ha
    exact le_trans (le_of_lt hl) hle
  · rw [het.used]
    refine grow_used_le ?_ t ks h.used
    intro k u f u' ha
    exact le_trans (allocNode_eq_some ha).2.2 (le_max_right _ _)
  · intro v hv
    rw [items_grow] at hv
    exact ⟨lt_of_lt_of_le (h.items v hv).1 hu, (h.items v hv).2⟩

variable {p : ℕ}

theorem exists_empty (h : ¬∀ k ∈ ks, k ≠ []) :
    ∃ pre post, ks = pre ++ [] :: post ∧ ∀ k ∈ pre, k ≠ [] := by
  induction ks with
  | nil => exact absurd nofun h
  | cons k ks ih =>
    by_cases hk : k = []
    · exact ⟨[], ks, by rw [hk]; rfl, nofun⟩
    have hks : ¬∀ k ∈ ks, k ≠ [] := by
      intro hks
      apply h
      intro k' hk'
      rcases List.mem_cons.mp hk' with rfl | hk'
      · exact hk
      · exact hks k' hk'
    obtain ⟨pre, post, rfl, hp⟩ := ih hks
    refine ⟨k :: pre, post, rfl, ?_⟩
    intro k' hk'
    rcases List.mem_cons.mp hk' with rfl | hk'
    · exact hk
    · exact hp k' hk'

theorem rootNode_eq : rootNode paDataSize = some 0 := toPropObj_of_le (zero_le _)

theorem substrs_ne_nil (name) : substrs name ≠ [] := by
  rw [substrs, ne_eq, map_eq_nil_iff]
  exact splitOn_ne_nil _ _

theorem arrives_substrs (cur g name) : arrives cur g (substrs name) = g.found := by
  cases hp : substrs name with
  | nil => exact absurd hp (substrs_ne_nil name)
  | cons k ks => rfl

theorem Built.find (h : Built paDataSize a t) (name) : find paDataSize a name =
      .ok (if WellFormed name then t.lookup cmpPropName (substrs name) else none) := by
  simp only [PropArea.find, findProperty, rootNode_eq]
  by_cases hn : WellFormed name
  · obtain ⟨a', hf, hb, -, -⟩ := h.findNode false (substrs name) hn
    have hg : t.grow cmpPropName (allocNode paDataSize false) (substrs name) a.bytesUsed =
        ⟨t, a.bytesUsed, t.locate cmpPropName (substrs name)⟩ := grow_none t (substrs name)
    rw [hg] at hb
    rw [hf, arrives_substrs, hg, if_pos hn]
    have hl := hb.represents.lookup_eq (substrs name)
    cases hlc : t.locate cmpPropName (substrs name) with
    | none =>
      rw [hlc] at hl
      rw [hl]
      rfl
    | some x =>
      rw [hlc, bind_some, PropTrieNode.item] at hl
      dsimp only
      rw [propOf]
      by_cases hpr : (a'.nodes x).prop = 0
      · rw [if_pos hpr] at hl
        rw [if_neg (not_not.mpr hpr), hl]
        rfl
      · rw [if_neg hpr] at hl
        rw [if_pos hpr, hl, toPropObj_of_le (hb.items _ (lookup_mem hl)).2]
        rfl
  · obtain ⟨pre, post, hp, hpe⟩ := exists_empty hn
    obtain ⟨a', hf, -⟩ := h.findNode false pre hpe
    rw [hp, findNode_empty, hf, if_neg hn]
    rfl

theorem Built.foreach (h : Built paDataSize a t) : foreach paDataSize a = .ok (true, t.items) := by
  obtain ⟨hl, hr, hp⟩ := h.root
  have hb : visitLink paDataSize (foreachProperty paDataSize a.bytesUsed a)
      (a.nodes 0).children = .ok (true, t.items) := by
    rw [visitLink]
    by_cases hn : t = .nil
    · rw [if_pos ((h.represents.eq_zero_iff).mpr hn), hn]
      rfl
    have hne : ¬(a.nodes 0).children = 0 := fun h0 => hn ((h.represents.eq_zero_iff).mp h0)
    have hle : (a.nodes 0).children ≤ paDataSize := by
      have hrp := h.represents
      have hpl := h.placed.le
      cases t with
      | nil => exact absurd rfl hn
      | node x key item sub =>
        rw [hrp.1]
        exact hpl x (Trie.mem_addrs_node.mpr (.inl rfl))
    rw [if_neg hne, toPropObj_of_le hle]
    exact foreachProperty_eq h.represents hn h.placed (fun v hv => (h.items v hv).2)
      h.placed.length_le
  rw [PropArea.foreach, rootNode_eq, foreachProperty]
  rw [hl, hr, hp, hb]
  simp [visitLink, bind, Except.bind, pure, Except.pure]

/-- The property at an offset has the name and the value of a call. -/
def Recorded (a : Area) (p : ℕ) (name : List Byte) (value : ℕ → Byte) (valuelen : BitVec 32) :
    Prop :=
  p < a.bytesUsed ∧
    if valuelen.toNat < propValueMax then a.infos p = PropInfo.ofShort name value valuelen
    else ∃ long, p < long ∧ long + valuelen.toNat < a.bytesUsed ∧
      a.infos p = PropInfo.ofLong name (long - p) ∧
      (∀ i < valuelen.toNat, a.chars (long + i) = value i) ∧ a.chars (long + valuelen.toNat) = 0

section
variable (h : Recorded a p name value valuelen)
include h

theorem Recorded.congr (hu : a.bytesUsed ≤ a'.bytesUsed) (hif : a'.infos p = a.infos p)
    (hc : ∀ x < a.bytesUsed, a'.chars x = a.chars x) : Recorded a' p name value valuelen := by
  obtain ⟨hp, h⟩ := h
  refine ⟨lt_of_lt_of_le hp hu, ?_⟩
  by_cases hs : valuelen.toNat < propValueMax
  · rw [if_pos hs] at h ⊢
    rw [hif, h]
  rw [if_neg hs] at h ⊢
  obtain ⟨long, hl, hed, hlongInfo, hv, hn⟩ := h
  refine ⟨long, hl, lt_of_lt_of_le hed hu, hif.trans hlongInfo, ?_, ?_⟩
  · intro i hi
    rw [hc _ (by omega), hv i hi]
  · rw [hc _ hed, hn]

theorem Recorded.extends (ha : Extends a a') : Recorded a' p name value valuelen :=
  h.congr ha.used (ha.infos p h.1) ha.chars

theorem Recorded.name_eq : (a.infos p).name = name := by
  obtain ⟨-, h⟩ := h
  split at h
  · rw [h]
    rfl
  obtain ⟨long, -, -, hif, -⟩ := h
  rw [hif]
  rfl

end

theorem allocateObj_eq (paDataSize size a) : allocateObj paDataSize size a = none ∨
    ∃ used, allocateObj paDataSize size a = some (a.bytesUsed, { a with bytesUsed := used }) ∧
      used = a.bytesUsed + WordAlign.alignUp 4 size ∧ used ≤ paDataSize := by
  rw [allocateObj]
  cases h : allocate paDataSize size a.bytesUsed with
  | none => exact .inl rfl
  | some n =>
    obtain ⟨f, used⟩ := n
    obtain ⟨rfl, hu, hl⟩ := allocate_eq_some h
    exact .inr ⟨used, rfl, hu, hl⟩

theorem toNat_add_one_of_ne (h : valuelen ≠ allOnes 32) :
    (valuelen + 1).toNat = valuelen.toNat + 1 := by
  have hn : valuelen.toNat ≠ 2 ^ 32 - 1 := by
    intro heq
    apply h
    rw [← BitVec.toNat_inj, heq]
    rfl
  have hl := valuelen.isLt
  rw [BitVec.toNat_add]
  change (valuelen.toNat + 1) % 2 ^ 32 = _
  omega

theorem newPropInfo_spec (paDataSize a name) (value : ℕ → Byte) (h : valuelen ≠ allOnes 32) :
    ∃ a' r, newPropInfo paDataSize name value valuelen a = .ok (a', r) ∧ a'.nodes = a.nodes ∧
      Extends a a' ∧ a'.bytesUsed ≤ max a.bytesUsed paDataSize ∧
      ∀ p, r = some p → p = a.bytesUsed ∧ p ≤ paDataSize ∧ Recorded a' p name value valuelen := by
  have hsz := WordAlign.le_alignUp (by decide : 0 < 4) (sizeofPropInfo + name.length + 1)
  rw [newPropInfo]
  rcases allocateObj_eq paDataSize (sizeofPropInfo + name.length + 1) a
    with hn | ⟨used, hso, hu, hl⟩
  · rw [hn]
    exact ⟨a, none, rfl, rfl, ⟨le_rfl, fun _ _ => rfl, fun _ _ => rfl⟩, le_max_left _ _, nofun⟩
  rw [hso]
  dsimp only
  have hlt : a.bytesUsed < used := by omega
  split
  · rename_i hlg
    rcases allocateObj_eq paDataSize (valuelen + 1).toNat { a with bytesUsed := used }
      with hn | ⟨used', hso', hu', hl'⟩
    · rw [hn]
      exact ⟨_, none, rfl, rfl, ⟨le_of_lt hlt, fun _ _ => rfl, fun _ _ => rfl⟩,
        le_trans hl (le_max_right _ _), nofun⟩
    rw [hso']
    have hr := WordAlign.le_alignUp (by decide : 0 < 4) (valuelen + 1).toNat
    rw [toNat_add_one_of_ne h] at hr hu'
    dsimp only at hu' ⊢
    rw [if_neg (by omega)]
    refine ⟨_, _, rfl, rfl, ⟨by dsimp only; omega, ?_, ?_⟩, le_trans hl' (le_max_right _ _), ?_⟩
    · intro x hx
      exact update_of_ne (Nat.ne_of_lt hx) _ _
    · intro x hx
      dsimp only
      rw [if_neg (by omega), if_neg (by omega)]
    rintro p hp
    cases hp
    refine ⟨rfl, by omega, by dsimp only; omega, ?_⟩
    rw [if_neg (by omega)]
    refine ⟨used, hlt, by dsimp only; omega, update_self .., ?_, ?_⟩
    · intro i hi
      dsimp only
      rw [if_pos (by omega), Nat.add_sub_cancel_left]
    · dsimp only
      rw [if_neg (by omega), if_pos rfl]
  · rename_i hs
    refine ⟨_, _, rfl, rfl, ⟨le_of_lt hlt, ?_, fun _ _ => rfl⟩,
      le_trans hl (le_max_right _ _), ?_⟩
    · intro x hx
      exact update_of_ne (Nat.ne_of_lt hx) _ _
    rintro p hp
    cases hp
    refine ⟨rfl, by omega, hlt, ?_⟩
    rw [if_pos (by omega)]
    exact update_self ..

theorem Extends.trans {a''} (h : Extends a a') (h' : Extends a' a'') : Extends a a'' where
  used := le_trans h.used h'.used
  infos x hx := (h'.infos x (lt_of_lt_of_le hx h.used)).trans (h.infos x hx)
  chars x hx := (h'.chars x (lt_of_lt_of_le hx h.used)).trans (h.chars x hx)

/-- Every search is as it was: the call failed, or found the property. -/
structure Unchanged (t t' : Trie (List Byte) ℕ) (name : List Byte) (r : Option ℕ) : Prop where
  lookup : ∀ ks, t'.lookup cmpPropName ks = t.lookup cmpPropName ks
  items : t'.items = t.items
  result : r = none ∨ WellFormed name ∧ r = t.lookup cmpPropName (substrs name)

structure Inserted (a : Area) (t t' : Trie (List Byte) ℕ) (name : List Byte) (p : ℕ) : Prop where
  wellFormed : WellFormed name
  absent : t.lookup cmpPropName (substrs name) = none
  self : t'.lookup cmpPropName (substrs name) = some p
  others : ∀ ks ≠ substrs name, t'.lookup cmpPropName ks = t.lookup cmpPropName ks
  count : ∀ x, t'.items.count x = t.items.count x + if p = x then 1 else 0
  fresh : a.bytesUsed ≤ p

theorem Inserted.nodup (hin : Inserted a t t' name p)
    (hn : p ∉ t.items) (hnd : t.items.Nodup) : t'.items.Nodup := by
  rw [nodup_iff_count_le_one] at hnd ⊢
  intro x
  rw [hin.count x]
  by_cases hx : p = x
  · subst hx
    rw [count_eq_zero_of_not_mem hn, if_pos rfl]
  · rw [if_neg hx]
    exact hnd x

theorem Inserted.mem_items (hin : Inserted a t t' name p)
    (x) : x ∈ t'.items ↔ p = x ∨ x ∈ t.items := by
  rw [← count_pos_iff, hin.count x, ← count_pos_iff (l := t.items)]
  split <;> omega

section
variable (h : Built paDataSize a t)
include h

theorem Built.setProp {x}
    (hl : t.locate cmpPropName ks = some x) (hp : p ≠ 0) (hlt : p < a.bytesUsed)
    (hle : p ≤ paDataSize) (hn : t.lookup cmpPropName ks = none) :
    Built paDataSize (a.setNode x { a.nodes x with prop := p }) (t.setAt cmpPropName p ks) := by
  have hx0 : (0 : ℕ) ≠ x := by
    rintro rfl
    exact h.represents.ne_zero (locate_mem hl)
  have hr : (a.setNode x { a.nodes x with prop := p }).nodes 0 = a.nodes 0 :=
    update_of_ne hx0 _ _
  refine ⟨?_, ?_, ⟨?_, ?_, ?_⟩, h.pos, h.used, ?_⟩
  · rw [hr]
    exact h.represents.setAt h.placed.nodup hl hp
  · rw [hr]
    exact h.root
  · rw [addrs_setAt]
    exact h.placed.nodup
  · rw [addrs_setAt]
    exact h.placed.lt
  · rw [addrs_setAt]
    exact h.placed.le
  intro v hv
  have hc := count_items_setAt (v := p) (by rw [hl]; exact some_ne_none x) hn v
  have hps := List.count_pos_iff.mpr hv
  by_cases hpv : p = v
  · rw [← hpv]
    exact ⟨hlt, hle⟩
  · rw [if_neg hpv] at hc
    exact h.items v (List.count_pos_iff.mp (by omega))

theorem Built.extends (hn : a'.nodes = a.nodes)
    (ha : Extends a a') (hu : a'.bytesUsed ≤ max a.bytesUsed paDataSize) :
    Built paDataSize a' t where
  represents := by
    rw [hn]
    exact h.represents
  root := by
    rw [hn]
    exact h.root
  placed := ⟨h.placed.nodup, fun x hx => lt_of_lt_of_le (h.placed.lt x hx) ha.used, h.placed.le⟩
  pos := lt_of_lt_of_le h.pos ha.used
  used := le_trans hu (Nat.max_le.mpr ⟨h.used, le_max_right _ _⟩)
  items v hv := ⟨lt_of_lt_of_le (h.items v hv).1 ha.used, (h.items v hv).2⟩

theorem Built.propOf {x} (hnm : WellFormed name)
    (hlc : t.locate cmpPropName (substrs name) = some x) (value : ℕ → Byte)
    (hln : valuelen ≠ allOnes 32) :
    ∃ a' r t', propOf paDataSize true name value valuelen a x = .ok (a', r) ∧
      Built paDataSize a' t' ∧ Extends a a' ∧ (Unchanged t t' name r ∨
        ∃ p, r = some p ∧ Inserted a t t' name p ∧ Recorded a' p name value valuelen) := by
  have hl := h.represents.lookup_eq (substrs name)
  rw [hlc, bind_some, PropTrieNode.item] at hl
  simp only [PropArea.propOf]
  by_cases hp : (a.nodes x).prop = 0
  · rw [if_neg (not_not.mpr hp), if_pos trivial]
    rw [if_pos hp] at hl
    obtain ⟨a1, r, hn, hnd, het, hu, hr⟩ :=
      newPropInfo_spec paDataSize a name value hln
    have hb := h.extends hnd het hu
    rw [hn]
    cases r with
    | none => exact ⟨a1, none, t, rfl, hb, het, .inl ⟨fun _ => rfl, rfl, .inl rfl⟩⟩
    | some p =>
      obtain ⟨rfl, hle, hrc⟩ := hr p rfl
      have hs := hb.setProp hlc (ne_of_gt h.pos) hrc.1 hle hl
      have hso : t.locate cmpPropName (substrs name) ≠ none := by
        rw [hlc]
        exact some_ne_none x
      refine ⟨_, _, _, rfl, hs, ⟨het.used, het.infos, het.chars⟩,
        .inr ⟨a.bytesUsed, rfl, ⟨hnm, hl, ?_, ?_, ?_, le_rfl⟩, hrc⟩⟩
      · exact lookup_setAt_self hso
      · intro ks hk
        exact lookup_setAt_of_ne eq_of_cmpPropName hk
      · exact count_items_setAt hso hl
  · rw [if_pos hp]
    rw [if_neg hp] at hl
    rw [toPropObj_of_le (h.items _ (lookup_mem hl)).2]
    exact ⟨a, _, t, rfl, h, ⟨le_rfl, fun _ _ => rfl, fun _ _ => rfl⟩,
      .inl ⟨fun _ => rfl, rfl, .inr ⟨hnm, hl.symm⟩⟩⟩

theorem Built.add (name) (value : ℕ → Byte) (hln : valuelen ≠ allOnes 32) :
    ∃ a' r t', add paDataSize a name value valuelen = .ok (a', r) ∧ Built paDataSize a' t' ∧
      Extends a a' ∧ (Unchanged t t' name r ∨
        ∃ p, r = some p ∧ Inserted a t t' name p ∧ Recorded a' p name value valuelen) := by
  simp only [PropArea.add, findProperty, rootNode_eq]
  by_cases hn : WellFormed name
  · obtain ⟨a1, hfd, hb, -, het⟩ := h.findNode true (substrs name) hn
    rw [hfd]
    rw [arrives_substrs]
    have hl : ∀ ks, (t.grow cmpPropName (allocNode paDataSize true) (substrs name)
        a.bytesUsed).trie.lookup cmpPropName ks = t.lookup cmpPropName ks :=
      lookup_grow t (substrs name)
    have hie : (t.grow cmpPropName (allocNode paDataSize true) (substrs name)
        a.bytesUsed).trie.items = t.items := items_grow t (substrs name)
    cases hf : (t.grow cmpPropName (allocNode paDataSize true) (substrs name)
        a.bytesUsed).found with
    | none => exact ⟨a1, none, _, rfl, hb, het, .inl ⟨hl, hie, .inl rfl⟩⟩
    | some x =>
      have hlc := locate_grow cmpPropName_self t (substrs name) hf
      revert hb hl hie hlc
      generalize (t.grow cmpPropName (allocNode paDataSize true) (substrs name)
        a.bytesUsed).trie = t1
      intro hb hl hie hlc
      obtain ⟨a', r, t', hpr, hb', het', hc⟩ :=
        hb.propOf hn hlc value hln
      refine ⟨a', r, t', hpr, hb', het.trans het', ?_⟩
      rcases hc with hs | ⟨p, hr, hin, hrc⟩
      · refine .inl ⟨fun ks => (hs.lookup ks).trans (hl ks), hs.items.trans hie, ?_⟩
        rw [← hl]
        exact hs.result
      refine .inr ⟨p, hr, ⟨hn, ?_, hin.self, ?_, ?_, ?_⟩, hrc⟩
      · rw [← hl]
        exact hin.absent
      · intro ks hk
        exact (hin.others ks hk).trans (hl ks)
      · intro x
        rw [hin.count, hie]
      · exact le_trans het.used hin.fresh
  · obtain ⟨pre, post, hp, hpe⟩ := exists_empty hn
    obtain ⟨a', hfd, hb, -, het⟩ := h.findNode true pre hpe
    rw [hp, findNode_empty, hfd]
    exact ⟨a', none, _, rfl, hb, het,
      .inl ⟨fun ks => lookup_grow t pre ks, items_grow t pre, .inl rfl⟩⟩

end

end PropArea
