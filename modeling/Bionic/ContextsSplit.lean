import Mathlib

/-! The prefix list of `ContextsSplit`: the context that a property name belongs to. -/
namespace ContextsSplit

open List

/-- A prefix and its context. A prefix is a word of the file, and words are not empty. -/
structure PrefixNode (Context : Type) where
  text : List Char
  context : Context
  ne_nil : text ≠ []
  deriving DecidableEq

variable {Context : Type}

def PrefixNode.wildcard (node : PrefixNode Context) : Bool := node.text.head? = some '*'

def listAddAfterLen (list : List (PrefixNode Context)) (node : PrefixNode Context) :
    List (PrefixNode Context) :=
  match list with
  | [] => [node]
  | next :: list =>
    if next.text.length < node.text.length ∨ next.wildcard then node :: next :: list
    else next :: listAddAfterLen list node

/-- The test of `GetPrefixNodeForName`. -/
def PrefixNode.covers (name : List Char) (l : PrefixNode Context) : Bool :=
  l.wildcard || l.text.isPrefixOf name

def getPrefixNodeForName (list : List (PrefixNode Context)) (name : List Char) :
    Option (PrefixNode Context) :=
  list.find? (·.covers name)

/-- By the length of the prefix, the wildcard last. -/
def PrefixNode.rank (node : PrefixNode Context) : ℕ :=
  if node.wildcard then 0 else node.text.length

variable {node : PrefixNode Context} {list entries : List (PrefixNode Context)}

def Sorted (list : List (PrefixNode Context)) : Prop := list.Pairwise fun a b => b.rank ≤ a.rank

section
variable (htn : ∀ next ∈ list, (next.text.length < node.text.length ∨ next.wildcard) ↔
  next.rank < node.rank) (h : Sorted list)
include htn h

theorem listAddAfterLen_sorted : Sorted (listAddAfterLen list node) ∧
    ∀ b ∈ listAddAfterLen list node, b = node ∨ b ∈ list := by
  induction list with
  | nil => simp [listAddAfterLen, Sorted]
  | cons c list ih =>
    obtain ⟨hc, hr⟩ := pairwise_cons.mp h
    obtain ⟨hs, hm⟩ := ih (fun b hb => htn b (mem_cons_of_mem _ hb)) hr
    rw [listAddAfterLen]
    split_ifs with hl <;> rw [htn c mem_cons_self] at hl
    · refine ⟨pairwise_cons.mpr ⟨fun b hb => ?_, h⟩, fun b hb => mem_cons.mp hb⟩
      rcases mem_cons.mp hb with rfl | hb
      · exact hl.le
      · exact (hc b hb).trans hl.le
    · refine ⟨pairwise_cons.mpr ⟨fun b hb => ?_, hs⟩, fun b hb => ?_⟩
      · rcases hm b hb with rfl | hb
        · exact not_lt.mp hl
        · exact hc b hb
      · rw [mem_cons, or_left_comm]
        exact (mem_cons.mp hb).imp_right (hm b)

theorem find?_listAddAfterLen (p : PrefixNode Context → Bool) :
    (listAddAfterLen list node).find? p = if p node then
        argAux (fun b c => c.rank < b.rank) (list.find? p) node else list.find? p := by
  induction list with
  | nil => by_cases hn : p node <;> simp [listAddAfterLen, argAux, hn]
  | cons c list ih =>
    obtain ⟨hc, hr⟩ := pairwise_cons.mp h
    have ih := ih (fun b hb => htn b (mem_cons_of_mem _ hb)) hr
    rw [listAddAfterLen]
    split_ifs with hl hn hn <;> rw [htn c mem_cons_self] at hl
    · cases hf : (c :: list).find? p with
      | none => simp [hn, argAux]
      | some b =>
        have hb : b.rank < node.rank := by
          rcases mem_cons.mp (mem_of_find?_eq_some hf) with rfl | hb
          · exact hl
          · exact (hc b hb).trans_lt hl
        simp [hn, argAux, hb]
    · simp [hn]
    · cases hp : p c <;> simp [hp, ih, hn, argAux, hl]
    · cases hp : p c <;> simp [hp, ih, hn]

end

/-- The prefixes that start with a `*` are at most one `*`. -/
def OneWildcard (entries : List (PrefixNode Context)) : Prop :=
  ((entries.filter (·.wildcard)).map (·.text)).Sublist [['*']]

theorem OneWildcard.turn (h : OneWildcard (entries ++ [node])) : ∀ next ∈ entries,
    (next.text.length < node.text.length ∨ next.wildcard) ↔ next.rank < node.rank := by
  intro next hnx
  have hne := next.ne_nil
  have hp := length_pos_iff.mpr node.ne_nil
  cases hn : node.wildcard with
  | false => cases hw : next.wildcard <;> simp [PrefixNode.rank, hn, hw, hp]
  | true =>
    have ho := h
    rw [OneWildcard, filter_append, filter_cons_of_pos hn, filter_nil, map_append, map_singleton]
      at ho
    have hf : ∀ b ∈ entries, b.wildcard = false := by simpa using ho.length_le
    have ht : node.text = ['*'] := by
      simpa using ho.subset (mem_append_right _ mem_cons_self)
    simp [PrefixNode.rank, hn, hf next hnx, ht, hne]

theorem insert_all (ho : OneWildcard entries) : Sorted (entries.foldl listAddAfterLen []) ∧
    (∀ b ∈ entries.foldl listAddAfterLen [], b ∈ entries) ∧
    ∀ p : PrefixNode Context → Bool, (entries.foldl listAddAfterLen []).find? p =
      (entries.filter p).argmax (·.rank) := by
  induction entries using reverseRecOn with
  | nil => exact ⟨Pairwise.nil, fun _ hb => hb, fun _ => rfl⟩
  | append_singleton entries node ih =>
    have hbf : OneWildcard entries := by
      refine Sublist.trans ?_ ho
      rw [filter_append, map_append]
      exact sublist_append_left _ _
    obtain ⟨hs, hm, hf⟩ := ih hbf
    have htn next hn := ho.turn next (hm next hn)
    obtain ⟨hs', hm'⟩ := listAddAfterLen_sorted htn hs
    rw [foldl_append, foldl_cons, foldl_nil]
    refine ⟨hs', fun b hb => ?_, fun p => ?_⟩
    · rw [mem_append, mem_singleton]
      exact (hm' b hb).symm.imp_left (hm b)
    rw [find?_listAddAfterLen htn hs, hf, filter_append]
    split_ifs with hp
    · rw [filter_cons_of_pos hp, filter_nil, argmax_concat]
      rfl
    · rw [filter_cons_of_neg hp, filter_nil, append_nil]

/-- `argmax` takes the first of several entries of the highest rank. -/
theorem getPrefixNodeForName_eq (hone : OneWildcard entries) (name : List Char) :
    getPrefixNodeForName (entries.foldl listAddAfterLen []) name =
      (entries.filter (·.covers name)).argmax (·.rank) :=
  (insert_all hone).2.2 _

theorem getPrefixNodeForName_eq_ro : getPrefixNodeForName
      ([⟨['*'], 0, by decide⟩, ⟨['r', 'o'], 1, by decide⟩].foldl listAddAfterLen [])
      ['r', 'o', '.'] = some (⟨['r', 'o'], 1, by decide⟩ : PrefixNode ℕ) := by
  refine (getPrefixNodeForName_eq ?_ _).trans (by decide)
  unfold OneWildcard
  decide

/-- Of two `*` the later is found. -/
theorem later_wildcard_found : getPrefixNodeForName
      ([⟨['*'], 0, by decide⟩, ⟨['*'], 1, by decide⟩].foldl listAddAfterLen []) ['r'] =
    some (⟨['*'], 1, by decide⟩ : PrefixNode ℕ) := by
  decide

end ContextsSplit
