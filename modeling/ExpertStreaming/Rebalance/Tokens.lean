import ExpertStreaming.Lib.OrdMap

/-! # Cached tokens with media

The tokens that a slot has cached. A media chunk is a run of them that must be kept or
dropped as a whole, so a cut moves back to the start of a chunk it would split.
-/
namespace ExpertStreaming.Rebalance

open Lib

/-- `server_tokens`: the chunks, by their first token, lie inside and do not overlap. -/
structure Tokens where
  tokens : List Int
  hasMtmd : Bool
  media : OrdMap Nat Nat
  plain : hasMtmd = false → media.isEmpty = true
  bounded : ∀ start n, media.find? start = some n → start + n ≤ tokens.length
  apart : ∀ a n b m, media.find? a = some n → media.find? b = some m → a < b → a + n ≤ b

def Tokens.text (tokens : List Int) (hasMtmd : Bool) : Tokens :=
  ⟨tokens, hasMtmd, OrdMap.empty, fun _ => rfl, fun _ _ h => (by cases h), fun _ _ _ _ h => by cases h⟩

def cutAt (result : Nat) : List (Nat × Nat) → Nat
  | [] => result
  | (start, n) :: rest =>
    if result ≤ start then result
    else if result - start < n then start
    else cutAt result rest

namespace Tokens

def mediaSafePrefixSize (t : Tokens) (requested : Nat) : Nat :=
  let result := min requested t.tokens.length
  if t.hasMtmd = false ∨ t.media.isEmpty = true then result else cutAt result t.media.toList

end Tokens

theorem cutAt_le (result : Nat) (chunks : List (Nat × Nat)) : cutAt result chunks ≤ result := by
  induction chunks with
  | nil => exact Nat.le_refl _
  | cons chunk rest ih =>
    rw [cutAt]
    split
    · exact Nat.le_refl _
    split
    · omega
    · exact ih

theorem le_cutAt {lower result chunks} (hresult : lower ≤ result)
    (hchunks : ∀ c ∈ chunks, lower ≤ c.1) : lower ≤ cutAt result chunks := by
  induction chunks with
  | nil => exact hresult
  | cons chunk rest ih =>
    rw [cutAt]
    split
    · exact hresult
    split
    · exact hchunks chunk (by simp)
    · exact ih fun c hc => hchunks c (List.mem_cons_of_mem _ hc)

theorem cutAt_cutAt {chunks} (result : Nat) (hsorted : chunks.Pairwise fun a b => a.1 + a.2 ≤ b.1) :
    cutAt (cutAt result chunks) chunks = cutAt result chunks := by
  induction chunks with
  | nil => rfl
  | cons chunk rest ih =>
    obtain ⟨start, n⟩ := chunk
    obtain ⟨hhead, hrest⟩ := List.pairwise_cons.mp hsorted
    by_cases hbefore : result ≤ start
    · simp [cutAt, hbefore]
    by_cases hcut : result - start < n
    · simp [cutAt, hbefore, hcut]
    have hcutAt : cutAt result ((start, n) :: rest) = cutAt result rest := by
      rw [cutAt, if_neg hbefore, if_neg hcut]
    have hge : start + n ≤ cutAt result rest := le_cutAt (by omega) hhead
    rw [hcutAt, cutAt]
    split
    · rfl
    rw [if_neg (by omega)]
    exact ih hrest

theorem cutAt_eq_self {chunks result} (hsorted : chunks.Pairwise fun a b => a.1 < b.1)
    (h : cutAt result chunks = result) {start n} (hmem : (start, n) ∈ chunks)
    (hbelow : start < result) :
    start + n ≤ result := by
  induction chunks with
  | nil => cases hmem
  | cons chunk rest ih =>
    obtain ⟨hhead, hrest⟩ := List.pairwise_cons.mp hsorted
    rw [cutAt] at h
    split at h
    next hstop =>
      -- the chunks after this one start even later
      rcases List.mem_cons.mp hmem with rfl | hmem
      · omega
      · have := hhead _ hmem
        omega
    split at h
    · omega
    · rcases List.mem_cons.mp hmem with rfl | hmem
      · omega
      · exact ih hrest h hmem

namespace Tokens

theorem sorted_chunks (t : Tokens) : t.media.toList.Pairwise fun a b => a.1 + a.2 ≤ b.1 := by
  refine t.media.sorted.imp_of_mem fun {a b} ha hb hlt => ?_
  exact t.apart a.1 a.2 b.1 b.2 (OrdMap.find?_eq_some.mpr ha) (OrdMap.find?_eq_some.mpr hb) hlt

theorem mediaSafePrefixSize_le (t : Tokens) (requested : Nat) :
    t.mediaSafePrefixSize requested ≤ t.tokens.length := by
  unfold mediaSafePrefixSize
  dsimp only
  split
  · exact Nat.min_le_right _ _
  · exact Nat.le_trans (cutAt_le _ _) (Nat.min_le_right _ _)

theorem mediaSafePrefixSize_of_le {t : Tokens} {size : Nat} (h : size ≤ t.tokens.length) :
    t.mediaSafePrefixSize size =
      if t.hasMtmd = false ∨ t.media.isEmpty = true then size else cutAt size t.media.toList := by
  unfold mediaSafePrefixSize
  rw [Nat.min_eq_left h]

/-- **A safe prefix is safe to cut at.** -/
theorem mediaSafePrefixSize_idem (t : Tokens) (requested : Nat) :
    t.mediaSafePrefixSize (t.mediaSafePrefixSize requested) = t.mediaSafePrefixSize requested := by
  rw [mediaSafePrefixSize_of_le (t.mediaSafePrefixSize_le requested)]
  unfold mediaSafePrefixSize
  dsimp only
  split
  · rfl
  · exact cutAt_cutAt _ t.sorted_chunks

theorem whole_chunks {t : Tokens} {size : Nat} (hsize : size ≤ t.tokens.length)
    (hsafe : t.mediaSafePrefixSize size = size) {start n : Nat}
    (hmedia : t.media.find? start = some n) (hbelow : start < size) : start + n ≤ size := by
  rw [mediaSafePrefixSize_of_le hsize] at hsafe
  have hnonempty : t.media.isEmpty ≠ true := fun hempty => by
    rw [OrdMap.isEmpty_iff.mp hempty start] at hmedia
    cases hmedia
  have hmtmd : ¬ (t.hasMtmd = false ∨ t.media.isEmpty = true) := by
    rintro (hplain | hempty)
    · exact hnonempty (t.plain hplain)
    · exact hnonempty hempty
  rw [if_neg hmtmd] at hsafe
  exact cutAt_eq_self t.media.sorted hsafe (OrdMap.find?_eq_some.mp hmedia) hbelow

/-- Drops the tokens behind a safe prefix; `none` when the process aborts. -/
def shrinkToMediaSafePrefix (t : Tokens) (size : Nat) : Option Tokens :=
  if h : size ≤ t.tokens.length ∧ t.mediaSafePrefixSize size = size then
    some
      { tokens := t.tokens.take size
        hasMtmd := t.hasMtmd
        media := t.media.below size
        plain := fun hplain => by
          rw [OrdMap.isEmpty_iff]
          intro k
          rw [OrdMap.find?_below, OrdMap.isEmpty_iff.mp (t.plain hplain)]
          split <;> rfl
        bounded := fun start n hmedia => by
          rw [OrdMap.find?_below] at hmedia
          split at hmedia
          next hbelow =>
            rw [List.length_take, Nat.min_eq_left h.1]
            exact whole_chunks h.1 h.2 hmedia hbelow
          · cases hmedia
        apart := fun a n b m ha hb hlt => by
          rw [OrdMap.find?_below] at ha hb
          split at ha
          · split at hb
            · exact t.apart a n b m ha hb hlt
            · cases hb
          · cases ha }
  else none

theorem shrink_isSome (t : Tokens) (requested : Nat) :
    ∃ t', t.shrinkToMediaSafePrefix (t.mediaSafePrefixSize requested) = some t' ∧
      t'.tokens = t.tokens.take (t.mediaSafePrefixSize requested) := by
  unfold shrinkToMediaSafePrefix
  rw [dif_pos ⟨t.mediaSafePrefixSize_le requested, t.mediaSafePrefixSize_idem requested⟩]
  exact ⟨_, rfl, rfl⟩

end Tokens

end ExpertStreaming.Rebalance
