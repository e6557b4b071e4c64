import Mathlib.Data.Finset.Card
import Mathlib.Data.Finset.Range
import Mathlib.Data.List.Basic

/-! # The suffix tree of the drafter

`common_suffix_tree` stores every suffix of the token history up to a depth. New tokens lengthen
the suffixes that the old end had cut short and bring new ones. However the history is cut into
calls, the tree is the same: a word has a node if it occurs, and the node counts where.
-/
namespace ExpertStreaming.Speculative
open List

variable {τ : Type} [DecidableEq τ]

/-- The nodes below the root, by the tokens that lead to them, with their counts. -/
abbrev Nodes (τ : Type) := List τ → Option Nat

/-- The node of a word is created or counted once more. -/
def visit (nodes : Nodes τ) (word : List τ) : Nodes τ :=
  Function.update nodes word (some ((nodes word).elim 1 (· + 1)))

/-- The counting loop: from a node along the tokens. -/
def descend (nodes : Nodes τ) (node : List τ) : List τ → Nodes τ
  | [] => nodes
  | tok :: rest => descend (visit nodes (node ++ [tok])) (node ++ [tok]) rest

/-- The first loop of `_extend_suffix`, which only follows children. -/
def walk (nodes : Nodes τ) (node : List τ) : List τ → Option (List τ)
  | [] => some node
  | tok :: rest => if (nodes (node ++ [tok])).isSome then walk nodes (node ++ [tok]) rest else none

structure SuffixTree (τ : Type) where
  maxDepth : Nat
  nodes : Nodes τ := fun _ => none
  tokens : List τ := []
  nInserted : Nat := 0

variable (maxDepth : Nat)

def insertSuffix (tokens : List τ) (nodes : Nodes τ) (startPos : Nat) : Nodes τ :=
  descend nodes [] ((tokens.drop startPos).take (min (tokens.length - startPos) maxDepth))

def extendSuffix (tokens : List τ) (nodes : Nodes τ) (startPos oldLen newLen : Nat) : Nodes τ :=
  match walk nodes [] ((tokens.drop startPos).take oldLen) with
  | none => nodes
  | some node => descend nodes node (((tokens.drop startPos).take newLen).drop oldLen)

namespace SuffixTree

/-- One round of the loop of `extend`, with the tokens already appended. -/
def reinsert (s : SuffixTree τ) (tokens : List τ) (nodes : Nodes τ) (i : Nat) : Nodes τ :=
  if i < s.nInserted then
    let oldLen := min (s.tokens.length - i) s.maxDepth
    let newLen := min (tokens.length - i) s.maxDepth
    if oldLen < newLen then extendSuffix tokens nodes i oldLen newLen else nodes
  else insertSuffix s.maxDepth tokens nodes i

def extend (s : SuffixTree τ) (more : List τ) : SuffixTree τ :=
  if more = [] then s
  else
    let tokens := s.tokens ++ more
    let reinsertFrom := s.tokens.length - s.maxDepth
    { s with
      nodes := (range' reinsertFrom (tokens.length - reinsertFrom)).foldl (s.reinsert tokens)
        s.nodes
      tokens, nInserted := tokens.length }

end SuffixTree

/-! ## What the nodes count -/

variable {nodes : Nodes τ} {cover : Nat → List τ} {n j : Nat}

/-- The nodes count, for each word, the starts below `n` whose covered part begins with it. -/
def Counts (nodes : Nodes τ) (cover : Nat → List τ) (n : Nat) : Prop :=
  ∀ w, nodes w = if w = [] ∨ {i ∈ Finset.range n | w <+: cover i}.card = 0 then none
    else some {i ∈ Finset.range n | w <+: cover i}.card

theorem descend_apply (nodes : Nodes τ) (node rest w : List τ) :
    descend nodes node rest w = if node.length < w.length ∧ w <+: node ++ rest
      then some ((nodes w).elim 1 (· + 1)) else nodes w := by
  induction rest generalizing nodes node with
  | nil =>
    rw [descend, if_neg]
    rintro ⟨hlt, hpre⟩
    have := hpre.length_le
    simp at this
    omega
  | cons tok rest ih =>
    rw [descend, ih, append_assoc, singleton_append]
    by_cases hw : w = node ++ [tok]
    · subst hw
      simp [visit]
    · have hsame : visit nodes (node ++ [tok]) w = nodes w := Function.update_of_ne hw _ _
      have hlen : w <+: node ++ tok :: rest → w.length ≠ node.length + 1 := fun hpre heq => by
        have hword : node ++ [tok] <+: node ++ tok :: rest := by simp
        refine hw ((prefix_of_prefix_length_le hpre hword ?_).eq_of_length ?_) <;> simp [heq]
      rw [hsame, length_append, length_singleton]
      refine if_congr (and_congr_left fun hpre => ?_) rfl rfl
      have := hlen hpre
      omega

/-- Covering more of one suffix is counting from where its covered part ends. -/
theorem Counts.grow (h : Counts nodes cover n) (hj : j < n) (rest : List τ) :
    Counts (descend nodes (cover j) rest) (Function.update cover j (cover j ++ rest)) n := by
  intro w
  rw [descend_apply]
  by_cases hnew : (cover j).length < w.length ∧ w <+: cover j ++ rest
  · have hout : j ∉ {i ∈ Finset.range n | w <+: cover i} := by
      simp only [Finset.mem_filter, not_and]
      intro _ hpre
      have := hpre.length_le
      omega
    have hins : {i ∈ Finset.range n | w <+: Function.update cover j (cover j ++ rest) i} =
        insert j {i ∈ Finset.range n | w <+: cover i} := by
      ext i
      by_cases hi : i = j
      · simp [hi, hj, hnew.2]
      · simp [hi]
    have hne : w ≠ [] := by
      rintro rfl
      simp at hnew
    rw [if_pos hnew, hins, Finset.card_insert_of_notMem hout, h w]
    generalize {i ∈ Finset.range n | w <+: cover i}.card = count
    cases count with
    | zero => simp [hne]
    | succ => simp [hne]
  · have hsame : {i ∈ Finset.range n | w <+: Function.update cover j (cover j ++ rest) i} =
        {i ∈ Finset.range n | w <+: cover i} := by
      refine Finset.filter_congr fun i _ => ?_
      by_cases hi : i = j
      · subst hi
        rw [Function.update_self]
        refine ⟨fun hpre => ?_, fun hpre => hpre.trans (prefix_append _ _)⟩
        exact prefix_of_prefix_length_le hpre (prefix_append _ _)
          (Nat.not_lt.mp fun hlt => hnew ⟨hlt, hpre⟩)
      · rw [Function.update_of_ne hi]
    rw [if_neg hnew, hsame]
    exact h w

omit [DecidableEq τ] in
theorem walk_eq {node rest : List τ} (h : ∀ w, w <+: node ++ rest → node.length < w.length →
    (nodes w).isSome) : walk nodes node rest = some (node ++ rest) := by
  induction rest generalizing node with
  | nil => simp [walk]
  | cons tok rest ih =>
    rw [walk, if_pos (h _ (by simp) (by simp)), ih fun w hpre hlt => h w (by simpa using hpre) ?_]
    · simp
    · simp at hlt
      omega

/-- The part of a suffix that the tree covers. -/
def covered (tokens : List τ) (i : Nat) : List τ := (tokens.drop i).take maxDepth

omit [DecidableEq τ] in
theorem take_min_covered (maxDepth i : Nat) (tokens : List τ) :
    (tokens.drop i).take (min (tokens.length - i) maxDepth) = covered maxDepth tokens i := by
  rw [covered, take_eq_take_iff, length_drop]
  omega

theorem Counts.isSome (h : Counts nodes cover n) (hj : j < n) {w : List τ} (hne : w ≠ [])
    (hpre : w <+: cover j) : (nodes w).isSome := by
  have hpos : {i ∈ Finset.range n | w <+: cover i}.card ≠ 0 :=
    Finset.card_ne_zero_of_mem (Finset.mem_filter.mpr ⟨Finset.mem_range.mpr hj, hpre⟩)
  rw [h w, if_neg (by simp [hne, hpos])]
  rfl

namespace SuffixTree

variable {s : SuffixTree τ} {tokens : List τ}

/-- One round brings the tree to cover its suffix as far as the new tokens go. -/
theorem reinsert_counts (hs : s.nInserted = s.tokens.length) (hpre : s.tokens <+: tokens)
    (h : Counts nodes cover n) (hj : j < n) (hold : cover j = covered s.maxDepth s.tokens j) :
    Counts (s.reinsert tokens nodes j)
      (Function.update cover j (covered s.maxDepth tokens j)) n := by
  have hcover : cover j <+: covered s.maxDepth tokens j := by
    rw [hold]
    exact (hpre.drop j).take s.maxDepth
  obtain ⟨rest, hrest⟩ := hcover
  have hgrow := h.grow hj rest
  have hlen : (cover j).length = min (s.tokens.length - j) s.maxDepth := by
    simp [hold, covered, Nat.min_comm]
  rw [hrest] at hgrow
  unfold reinsert
  split
  next hin =>
    dsimp only
    rw [← hlen]
    split
    next hlt =>
      -- the walk follows the part that is covered already
      have hpart : (tokens.drop j).take (cover j).length = cover j := by
        have := congrArg (take (cover j).length) hrest
        rw [take_left, covered, take_take, Nat.min_eq_left (by omega)] at this
        exact this.symm
      have hwalk : walk nodes [] (cover j) = some (cover j) :=
        walk_eq fun w hw hpos => h.isSome hj (ne_nil_of_length_pos hpos) hw
      have hdrop : (covered s.maxDepth tokens j).drop (cover j).length = rest := by
        rw [← hrest, drop_left]
      rw [extendSuffix, hpart, hwalk, take_min_covered, hdrop]
      exact hgrow
    next hge =>
    have hsame : covered s.maxDepth tokens j = cover j := by
      have hshort : (covered s.maxDepth tokens j).length ≤ (cover j).length := by
        simp only [covered, length_take, length_drop]
        omega
      exact (IsPrefix.eq_of_length_le ⟨rest, hrest⟩ hshort).symm
    rw [hsame, Function.update_eq_self]
    exact h
  next hout =>
  have hnil : cover j = [] := length_eq_zero_iff.mp (by omega)
  rw [hnil, nil_append] at hrest
  rw [hnil, hrest] at hgrow
  rw [insertSuffix, take_min_covered]
  exact hgrow

theorem reinsert_all (hs : s.nInserted = s.tokens.length) (hpre : s.tokens <+: tokens) (k : Nat)
    {a : Nat} (hn : a + k ≤ n) (h : Counts nodes (fun i =>
      if i < a then covered s.maxDepth tokens i else covered s.maxDepth s.tokens i) n) :
    Counts ((range' a k).foldl (s.reinsert tokens) nodes) (fun i =>
      if i < a + k then covered s.maxDepth tokens i else covered s.maxDepth s.tokens i) n := by
  induction k generalizing a nodes with
  | zero => exact h
  | succ k ih =>
    rw [range'_succ, foldl_cons, show a + (k + 1) = a + 1 + k by omega]
    refine ih (by omega) ?_
    have hone := reinsert_counts hs hpre h (j := a) (by omega) (by simp)
    convert hone using 1
    funext i
    by_cases hi : i = a
    · simp [hi]
    · have : i < a + 1 ↔ i < a := by omega
      simp [hi, this]

/-- The tree covers every suffix of its tokens. -/
structure Complete (s : SuffixTree τ) : Prop where
  inserted : s.nInserted = s.tokens.length
  counts : ∀ n, s.tokens.length ≤ n → Counts s.nodes (covered s.maxDepth s.tokens) n

theorem Complete.extend (h : s.Complete) (more : List τ) : (s.extend more).Complete := by
  unfold SuffixTree.extend
  split
  next => exact h
  refine ⟨rfl, fun n hn => ?_⟩
  dsimp only at hn ⊢
  have hsize : (s.tokens ++ more).length = s.tokens.length + more.length := length_append
  -- suffixes that end before the old end were never cut short
  have hfirst : (fun i => if i < s.tokens.length - s.maxDepth then
      covered s.maxDepth (s.tokens ++ more) i else covered s.maxDepth s.tokens i) =
      covered s.maxDepth s.tokens := by
    funext i
    split
    next hi =>
      rw [covered, covered, drop_append_of_le_length (by omega), take_append_of_le_length]
      rw [length_drop]
      omega
    next => rfl
  have hlast := reinsert_all h.inserted (prefix_append s.tokens more)
    ((s.tokens ++ more).length - (s.tokens.length - s.maxDepth)) (by omega)
    (hfirst ▸ h.counts n (by omega))
  convert hlast using 1
  funext i
  split
  next => rfl
  next hi =>
  have hnew : (s.tokens ++ more).drop i = [] := drop_eq_nil_of_le (by omega)
  have hold : s.tokens.drop i = [] := drop_eq_nil_of_le (by omega)
  simp [covered, hnew, hold]

theorem extend_tokens (s : SuffixTree τ) (more : List τ) :
    (s.extend more).tokens = s.tokens ++ more ∧ (s.extend more).maxDepth = s.maxDepth := by
  unfold SuffixTree.extend
  split
  next hnil => simp [hnil]
  next => exact ⟨rfl, rfl⟩

theorem Complete.chunks (h : s.Complete) (chunks : List (List τ)) :
    (chunks.foldl SuffixTree.extend s).Complete ∧
      (chunks.foldl SuffixTree.extend s).tokens = s.tokens ++ chunks.flatten ∧
      (chunks.foldl SuffixTree.extend s).maxDepth = s.maxDepth := by
  induction chunks generalizing s with
  | nil => exact ⟨h, by simp, rfl⟩
  | cons more chunks ih =>
    obtain ⟨hall, htokens, hdepth⟩ := ih (h.extend more)
    obtain ⟨hmore, hsame⟩ := s.extend_tokens more
    exact ⟨hall, by simp [htokens, hmore], hdepth.trans hsame⟩

theorem complete_empty : ({ maxDepth } : SuffixTree τ).Complete := by
  refine ⟨rfl, fun n _ w => ?_⟩
  by_cases hw : w = []
  · simp [hw]
  · simp [covered, hw]

theorem Complete.eq {t : SuffixTree τ} (h : s.Complete) (ht : t.Complete)
    (hdepth : s.maxDepth = t.maxDepth) (htokens : s.tokens = t.tokens) : s = t := by
  have hnodes : s.nodes = t.nodes := by
    funext w
    rw [h.counts _ le_rfl, ht.counts _ le_rfl, hdepth, htokens]
  have hinserted := h.inserted.trans (htokens ▸ ht.inserted.symm)
  cases s
  cases t
  simp_all

/-- **However the tokens are cut into calls, the tree is that of one call**: a word within the depth
has a node if it occurs, and the node counts its occurrences. -/
theorem chunks_build_one_tree (chunks : List (List τ)) :
    chunks.foldl extend { maxDepth } = extend { maxDepth } chunks.flatten ∧
    ∀ w, w ≠ [] → w.length ≤ maxDepth →
      (chunks.foldl extend { maxDepth }).nodes w =
        let count := {i ∈ Finset.range chunks.flatten.length | w <+: chunks.flatten.drop i}.card
        if count = 0 then none else some count := by
  obtain ⟨hall, htokens, hdepth⟩ := (complete_empty (τ := τ) maxDepth).chunks chunks
  obtain ⟨hone, honeDepth⟩ := ({ maxDepth } : SuffixTree τ).extend_tokens chunks.flatten
  refine ⟨hall.eq ((complete_empty maxDepth).extend _) (hdepth.trans honeDepth.symm)
    (htokens.trans hone.symm), fun w hne hlen => ?_⟩
  rw [hall.counts _ le_rfl, htokens, hdepth]
  simp [hne, covered, prefix_take_iff, hlen]

end SuffixTree
end ExpertStreaming.Speculative
