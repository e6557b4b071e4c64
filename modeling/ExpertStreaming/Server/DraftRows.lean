import Mathlib.Data.List.Forall2
import Mathlib.Data.List.Nodup
import Mathlib.Data.List.Pairwise

/-! # Taking draft rows out of a batch

The slots share one batch and record the indices of their rows in it. A slot whose checkpoint
cannot be saved goes on with its root row only: `make_root_only` moves the later rows up over its
draft rows and gives the slot the new index of its root. The indices of the other slots stay as
they were, so they are right only where nothing before them was taken out.
-/
namespace ExpertStreaming.Server
open List

/-- What a slot records of the batch. -/
structure BatchSlot where
  iBatch : Int := -1
  iBatchDft : List Int := []
  promptBatchI0 : Int := -1
  promptBatchI1 : Int := -1
  deriving DecidableEq

variable {ρ : Type}

/-- The loop over the rows (token, position, sequences, logits): what stays, and `remap`. -/
def compact (remove : Nat → Bool) (read write : Nat) : List ρ → List ρ × List Int
  | [] => ([], [])
  | row :: rows =>
    if remove read then
      let rest := compact remove (read + 1) write rows
      (rest.1, -1 :: rest.2)
    else
      let rest := compact remove (read + 1) (write + 1) rows
      (row :: rest.1, write :: rest.2)

/-- `make_root_only`. -/
def makeRootOnly (rows : List ρ) (slot : BatchSlot) : List ρ × BatchSlot :=
  match slot.iBatchDft with
  | [] => (rows, slot)
  | rootIndex :: drafts =>
    let out := compact (fun index => drafts.contains index) 0 0 rows
    let iBatch := if 0 ≤ rootIndex ∧ rootIndex < rows.length then out.2.getD rootIndex.toNat (-1)
      else slot.iBatch
    (out.1, { slot with iBatch, iBatchDft := [] })

/-- The loop over the slots; the flag of a slot says that its checkpoint was not saved. -/
def removeDrafts (rows : List ρ) : List (BatchSlot × Bool) → List ρ × List BatchSlot
  | [] => (rows, [])
  | (slot, failed) :: rest =>
    let out := if failed then makeRootOnly rows slot else (rows, slot)
    let last := removeDrafts out.1 rest
    (last.1, out.2 :: last.2)

/-- The row indices a slot has recorded. -/
def BatchSlot.recorded (slot : BatchSlot) : List Int :=
  slot.iBatch :: (slot.iBatchDft ++
    (range (slot.promptBatchI1 - slot.promptBatchI0).toNat).map fun k : Nat =>
      slot.promptBatchI0 + k)

def rowAt (rows : List ρ) (x : Int) : Option ρ := if 0 ≤ x then rows[x.toNat]? else none

/-- The rows that a slot's indices designate. -/
def BatchSlot.designates (slot : BatchSlot) (rows : List ρ) : List (Option ρ) :=
  slot.recorded.map (rowAt rows)

/-- What a slot is to record of the batch before: the root only, if its checkpoint failed. -/
def rooted : BatchSlot × Bool → BatchSlot
  | (slot, false) => slot
  | (slot, true) =>
    match slot.iBatchDft with
    | [] => slot
    | root :: _ => { slot with iBatch := root, iBatchDft := [] }

/-- The rows a slot takes out. -/
def draftsOf (e : BatchSlot × Bool) : List Int := if e.2 then e.1.iBatchDft.tail else []

/-- The rows other than those with these indices, in their order. -/
def rowsBut (drafts : List Int) (rows : List ρ) : List ρ :=
  (rows.zipIdx.filter fun e => !drafts.contains (e.2 : Int)).map Prod.fst

/-- What is recorded in `slot` lies before every row that `e` takes out. -/
def Before (e : BatchSlot × Bool) (slot : BatchSlot) : Prop :=
  ∀ d ∈ draftsOf e, ∀ x ∈ slot.recorded, x < d

/-! ## Batches as they are built -/

/-- `add_sampled_tokens` and `batch_pending_prompt` give one slot after another the next rows. -/
inductive Built : List ρ → List BatchSlot → Prop
  | clear (n : Nat) : Built [] (replicate n {})
  | sampled {rows : List ρ} {slots : List BatchSlot} {i : Nat} (h : Built rows slots)
      (hi : slots[i]? = some {}) (row : ρ) :
      Built (rows ++ [row]) (slots.set i { iBatch := rows.length })
  | drafted {rows : List ρ} {slots : List BatchSlot} {i : Nat} (h : Built rows slots)
      (hi : slots[i]? = some {}) (root : ρ) (drafts : List ρ) :
      Built (rows ++ root :: drafts) (slots.set i
        { iBatchDft := (range (drafts.length + 1)).map fun k : Nat => (rows.length : Int) + k })
  | prompt {rows : List ρ} {slots : List BatchSlot} {i : Nat} (h : Built rows slots)
      (hi : slots[i]? = some {}) (part : List ρ) (hpart : part ≠ []) (complete : Bool) :
      Built (rows ++ part) (slots.set i
        { promptBatchI0 := rows.length
          promptBatchI1 := (rows.length + part.length : Nat)
          iBatch := if complete then (rows.length + part.length : Nat) - 1 else -1 })

/-- The rows of two slots do not overlap. -/
def Apart (a b : BatchSlot) : Prop :=
  (∀ x ∈ a.recorded, ∀ y ∈ b.recorded, 0 ≤ x → 0 ≤ y → x < y) ∨
    ∀ x ∈ a.recorded, ∀ y ∈ b.recorded, 0 ≤ x → 0 ≤ y → y < x

theorem Apart.symm {a b : BatchSlot} (h : Apart a b) : Apart b a :=
  h.elim (fun h => .inr fun x hx y hy hx0 hy0 => h y hy x hx hy0 hx0)
    fun h => .inl fun x hx y hy hx0 hy0 => h y hy x hx hy0 hx0

/-- How the slots have recorded the rows of a batch. -/
structure Laid (rows : List ρ) (slots : List BatchSlot) : Prop where
  inside : ∀ slot ∈ slots, ∀ x ∈ slot.recorded, x < rows.length
  drafting : ∀ slot ∈ slots, ∀ {root drafts}, slot.iBatchDft = root :: drafts →
    slot.iBatch = -1 ∧ slot.promptBatchI1 ≤ slot.promptBatchI0 ∧ 0 ≤ root ∧
      ∀ d ∈ drafts, root < d
  apart : slots.Pairwise Apart

/-- A slot takes the rows behind those there are. -/
theorem Laid.add {rows part : List ρ} {slots : List BatchSlot} {new : BatchSlot}
    (h : Laid rows slots) (i : Nat)
    (hnew : ∀ x ∈ new.recorded, x = -1 ∨ rows.length ≤ x ∧ x < (rows.length + part.length : Nat))
    (hdrafting : ∀ {root drafts}, new.iBatchDft = root :: drafts →
      new.iBatch = -1 ∧ new.promptBatchI1 ≤ new.promptBatchI0 ∧ 0 ≤ root ∧
        ∀ d ∈ drafts, root < d) :
    Laid (rows ++ part) (slots.set i new) where
  inside slot hslot x hx := by
    rw [length_append]
    rcases mem_or_eq_of_mem_set hslot with hslot | rfl
    · have := h.inside slot hslot x hx
      omega
    · have := hnew x hx
      omega
  drafting slot hslot := by
    rcases mem_or_eq_of_mem_set hslot with hslot | rfl
    · exact h.drafting slot hslot
    · exact hdrafting
  apart := by
    have hbehind : ∀ slot ∈ slots, Apart slot new := fun slot hslot =>
      .inl fun x hx y hy _ hy0 => by
        have := h.inside slot hslot x hx
        have := hnew y hy
        omega
    rw [pairwise_iff_getElem]
    intro a b ha hb hab
    rw [length_set] at ha hb
    rw [getElem_set, getElem_set]
    split
    next =>
      rw [if_neg (by omega)]
      exact (hbehind _ (getElem_mem hb)).symm
    next =>
      split
      · exact hbehind _ (getElem_mem ha)
      · exact pairwise_iff_getElem.mp h.apart a b ha hb hab

theorem Built.laid {rows : List ρ} {slots : List BatchSlot} (h : Built rows slots) :
    Laid rows slots := by
  induction h with
  | clear n =>
    refine ⟨fun slot hslot => ?_, fun slot hslot => ?_, ?_⟩
    · obtain rfl := (mem_replicate.mp hslot).2
      simp [BatchSlot.recorded]
    · obtain rfl := (mem_replicate.mp hslot).2
      nofun
    · exact pairwise_replicate.mpr (.inr (.inl (by simp [BatchSlot.recorded])))
  | sampled h hi row ih =>
    refine ih.add _ (fun x hx => ?_) nofun
    obtain rfl : x = _ := by simpa [BatchSlot.recorded] using hx
    exact .inr ⟨Int.le_refl _, by rw [length_singleton]; omega⟩
  | @drafted rows slots i h hi root drafts ih =>
    refine ih.add _ (fun x hx => ?_) fun {r ds} hdft => ?_
    · have : x = -1 ∨ ∃ k < drafts.length + 1, (rows.length : Int) + (k : Int) = x := by
        simpa [BatchSlot.recorded] using hx
      rw [length_cons]
      rcases this with rfl | ⟨k, hk, rfl⟩ <;> omega
    · rw [range_succ_eq_map, map_cons, cons.injEq] at hdft
      obtain ⟨rfl, rfl⟩ := hdft
      refine ⟨rfl, Int.le_refl _, by simp, fun d hd => ?_⟩
      obtain ⟨k, -, rfl⟩ : ∃ k < drafts.length, (rows.length : Int) + ((k : Int) + 1) = d := by
        simpa using hd
      omega
  | @prompt rows slots i h hi part hpart complete ih =>
    have hpos := length_pos_iff.mpr hpart
    have hcount :
        (((rows.length + part.length : Nat) : Int) - rows.length).toNat = part.length := by
      omega
    refine ih.add _ (fun x hx => ?_) nofun
    rw [BatchSlot.recorded, hcount, nil_append, mem_cons, mem_map] at hx
    rcases hx with hx | ⟨k, hk, rfl⟩
    · dsimp only at hx
      split at hx <;> omega
    · have := mem_range.mp hk
      dsimp only
      omega

/-! ## One slot -/

theorem compact_rows (remove : Nat → Bool) (read write : Nat) (rows : List ρ) :
    (compact remove read write rows).1 =
      ((rows.zipIdx read).filter fun e => !remove e.2).map Prod.fst := by
  induction rows generalizing read write with
  | nil => rfl
  | cons row rows ih =>
    rw [compact, zipIdx_cons]
    split
    next hremove => simp [ih, hremove]
    next hremove => simp [ih, hremove]

/-- Before the first row taken out nothing moves. -/
theorem compact_before {remove : Nat → Bool} {x : Nat} (read write : Nat) {rows : List ρ}
    (h : ∀ i ≤ x, remove (read + i) = false) :
    (compact remove read write rows).1[x]? = rows[x]? ∧
      (x < rows.length → (compact remove read write rows).2.getD x (-1) = write + x) := by
  induction rows generalizing read write x with
  | nil => simp [compact]
  | cons row rows ih =>
    rw [compact, if_neg (by simpa using h 0 (Nat.zero_le _))]
    cases x with
    | zero => simp
    | succ x =>
      obtain ⟨hrow, hindex⟩ := ih (read + 1) (write + 1) (x := x) fun i hi => by
        rw [Nat.add_right_comm]
        exact h (i + 1) (Nat.succ_le_succ hi)
      refine ⟨hrow, fun hlt => ?_⟩
      have := hindex (Nat.lt_of_succ_lt_succ hlt)
      simp only [getD_cons_succ, this]
      omega

@[simp] theorem rowsBut_nil (rows : List ρ) : rowsBut [] rows = rows := by simp [rowsBut]

theorem clear_before {drafts : List Int} {x : Nat} (h : ∀ d ∈ drafts, (x : Int) < d) :
    ∀ i ≤ x, drafts.contains ((0 + i : Nat) : Int) = false := by
  intro i hi
  rw [Nat.zero_add, contains_eq_mem, decide_eq_false_iff_not]
  intro hmem
  have := h _ hmem
  omega

theorem rowsBut_before {drafts : List Int} {x : Nat} (rows : List ρ)
    (h : ∀ d ∈ drafts, (x : Int) < d) : (rowsBut drafts rows)[x]? = rows[x]? := by
  have hrow := (@compact_before ρ (fun index => drafts.contains (index : Int)) x 0 0 rows
    (clear_before h)).1
  rwa [compact_rows] at hrow

/-- **Behind a row taken out an index designates another row**, or none. -/
theorem rowsBut_behind {drafts : List Int} {rows : List ρ} {d y : Nat} (hrows : rows.Nodup)
    (hd : (d : Int) ∈ drafts) (hdy : d < y) (hy : y < rows.length) :
    (rowsBut drafts rows)[y]? ≠ rows[y]? := by
  have hsplit := take_append_drop (y + 1) rows
  have hlen : (rows.take (y + 1)).length = y + 1 := by
    rw [length_take]
    omega
  -- of the first `y + 1` rows at least one is gone, so what is at `y` now comes from behind them
  have hfew : ((rows.take (y + 1)).zipIdx.filter fun e => !drafts.contains (e.2 : Int)).length <
      y + 1 := by
    have hone := length_filter_lt_length_iff_exists (l := (rows.take (y + 1)).zipIdx)
      (p := fun e => !drafts.contains (e.2 : Int)) |>.mpr ⟨(rows[d], d), by
        rw [mem_zipIdx_iff_getElem?]
        simp [show d < y + 1 by omega], by simp [hd]⟩
    rwa [length_zipIdx, hlen] at hone
  intro heq
  rw [getElem?_eq_getElem hy] at heq
  have hmem : rows[y] ∈ rows.drop (y + 1) := by
    rw [rowsBut] at heq
    nth_rewrite 1 [← hsplit] at heq
    rw [zipIdx_append, filter_append, map_append, getElem?_append_right (by
      rw [length_map]
      omega)] at heq
    obtain ⟨e, he, hrow⟩ := mem_map.mp (mem_of_getElem? heq)
    rw [← hrow]
    exact fst_mem_of_mem_zipIdx (mem_of_mem_filter he)
  rw [← hsplit] at hrows
  refine disjoint_of_nodup_append hrows ?_ hmem
  rw [mem_iff_getElem?]
  exact ⟨y, by simp⟩

/-- A slot that fails keeps the index of its root, if that is still in the batch. -/
theorem makeRootOnly_eq (rows : List ρ) {slot : BatchSlot} {root drafts}
    (hdft : slot.iBatchDft = root :: drafts) (hroot : 0 ≤ root) (hbefore : ∀ d ∈ drafts, root < d) :
    makeRootOnly rows slot = (rowsBut drafts rows,
      { slot with iBatch := if root < rows.length then root else slot.iBatch, iBatchDft := [] }) := by
  have hclear := @clear_before drafts root.toNat fun d hd => by
    have := hbefore d hd
    omega
  have hindex :=
    (@compact_before ρ (fun index => drafts.contains (index : Int)) _ 0 0 rows hclear).2
  unfold makeRootOnly
  rw [hdft]
  dsimp only
  rw [compact_rows, ← rowsBut]
  by_cases hin : root < rows.length
  · rw [if_pos ⟨hroot, hin⟩, if_pos hin, hindex (by omega)]
    simp [Int.toNat_of_nonneg hroot]
  · rw [if_neg fun h => hin h.2, if_neg hin]

/-! ## All slots -/

variable {rows : List ρ} {slots : List (BatchSlot × Bool)}

theorem recorded_draft {e : BatchSlot × Bool} {d : Int} (h : d ∈ draftsOf e) :
    d ∈ e.1.recorded := by
  unfold draftsOf at h
  split at h
  · exact mem_cons_of_mem _ (mem_append_left _ (mem_of_mem_tail h))
  · cases h

/-- Two slots that both take rows out would each record one behind the other's. -/
theorem nil_or_nil_of_before {e : BatchSlot × Bool}
    (h : ∀ f ∈ slots, Before e f.1 ∧ Before f e.1) :
    draftsOf e = [] ∨ slots.flatMap draftsOf = [] := by
  by_contra hboth
  rw [not_or] at hboth
  obtain ⟨d, hd⟩ := exists_mem_of_ne_nil _ hboth.1
  obtain ⟨d', hd'⟩ := exists_mem_of_ne_nil _ hboth.2
  obtain ⟨f, hf, hd'⟩ := mem_flatMap.mp hd'
  have hfirst := (h f hf).1 d hd d' (recorded_draft hd')
  have hsecond := (h f hf).2 d' hd' d (recorded_draft hd)
  omega

/-- Where nothing is recorded behind a row taken out, every slot keeps its indices. -/
theorem removeDrafts_of_before
    (hdrafting : ∀ e ∈ slots, ∀ {root drafts}, e.1.iBatchDft = root :: drafts →
      0 ≤ root ∧ root < rows.length ∧ ∀ d ∈ drafts, root < d)
    (hothers : slots.Pairwise fun e f => Before e f.1 ∧ Before f e.1) :
    removeDrafts rows slots = (rowsBut (slots.flatMap draftsOf) rows, slots.map rooted) := by
  induction slots generalizing rows with
  | nil => simp [removeDrafts]
  | cons e slots ih =>
    obtain ⟨hhead, hrest⟩ := pairwise_cons.mp hothers
    have hstays : removeDrafts rows (e :: slots) =
        ((removeDrafts rows slots).1, rooted e :: (removeDrafts rows slots).2) →
        draftsOf e = [] → removeDrafts rows (e :: slots) =
          (rowsBut ((e :: slots).flatMap draftsOf) rows, (e :: slots).map rooted) :=
      fun hstep hnone => by
        rw [hstep, ih (fun f hf => hdrafting f (mem_cons_of_mem _ hf)) hrest, flatMap_cons,
          hnone, nil_append, map_cons]
    obtain ⟨slot, failed⟩ := e
    cases failed with
    | false => exact hstays rfl rfl
    | true =>
      cases hdft : slot.iBatchDft with
      | nil =>
        refine hstays ?_ (by simp [draftsOf, hdft])
        simp [removeDrafts, makeRootOnly, rooted, hdft]
      | cons root drafts =>
        obtain ⟨hroot, hin, hbefore⟩ := hdrafting _ mem_cons_self hdft
        have hdrafts : draftsOf (slot, true) = drafts := by simp [draftsOf, hdft]
        have hrooted : rooted (slot, true) = { slot with iBatch := root, iBatchDft := [] } := by
          simp [rooted, hdft]
        rw [removeDrafts, if_pos rfl, makeRootOnly_eq rows hdft hroot hbefore, if_pos hin]
        dsimp only
        rw [ih (fun f hf r ds hfdft => ?_) hrest, flatMap_cons, map_cons, hdrafts, hrooted]
        · rcases nil_or_nil_of_before hhead with hnil | hnil
          · rw [← hdrafts, hnil, rowsBut_nil, nil_append]
          · rw [hnil, rowsBut_nil, append_nil]
        · -- a later root lies before the rows taken out, so it is still in the batch
          obtain ⟨hr, hrin, hrbefore⟩ := hdrafting f (mem_cons_of_mem _ hf) hfdft
          have hsame := @rowsBut_before _ drafts r.toNat rows fun d hd => by
            have := (hhead f hf).1 d (hdrafts ▸ hd) r (by simp [BatchSlot.recorded, hfdft])
            omega
          rw [getElem?_eq_getElem (show r.toNat < rows.length by omega)] at hsame
          have := (List.getElem?_eq_some_iff.mp hsame).1
          exact ⟨hr, by omega, hrbefore⟩

/-- Whatever is taken out, no index but that of a root changes, and that one at most to none. -/
theorem removeDrafts_slots (h : Laid rows (slots.map Prod.fst)) :
    Forall₂ (fun e slot => slot = rooted e ∨ slot = { rooted e with iBatch := -1 }) slots
      (removeDrafts rows slots).2 := by
  have hdrafting := fun e (he : e ∈ slots) => @h.drafting e.1 (mem_map_of_mem he)
  clear h
  induction slots generalizing rows with
  | nil => exact .nil
  | cons e slots ih =>
    obtain ⟨slot, failed⟩ := e
    refine .cons ?_ (ih fun f hf => hdrafting f (mem_cons_of_mem _ hf))
    cases failed with
    | false => exact .inl rfl
    | true =>
      cases hdft : slot.iBatchDft with
      | nil => exact .inl (by simp [makeRootOnly, rooted, hdft])
      | cons root drafts =>
        obtain ⟨hunset, -, hroot, hbefore⟩ := hdrafting _ mem_cons_self hdft
        rw [if_pos rfl, makeRootOnly_eq rows hdft hroot hbefore, rooted, hdft]
        dsimp only
        split
        · exact .inl rfl
        · exact .inr (by rw [hunset])

theorem exists_of_forall₂ {α β : Type} {R S : α → β → Prop} {l : List α} {u : List β}
    (hr : Forall₂ R l u) (hs : Forall₂ S l u) {a} (ha : a ∈ l) : ∃ b, R a b ∧ S a b := by
  induction hr with
  | nil => cases ha
  | cons h _ ih =>
    cases hs with
    | cons h' hs =>
      rcases mem_cons.mp ha with rfl | ha
      · exact ⟨_, h, h'⟩
      · exact ih hs ha

theorem recorded_of_rooted {e : BatchSlot × Bool} {x : Int} (h : x ∈ (rooted e).recorded) :
    x ∈ e.1.recorded := by
  obtain ⟨slot, failed⟩ := e
  cases failed with
  | false => exact h
  | true =>
    cases hdft : slot.iBatchDft with
    | nil => simpa [rooted, hdft] using h
    | cons root drafts =>
      simp only [rooted, hdft, BatchSlot.recorded, nil_append, mem_cons, cons_append] at h ⊢
      rcases h with rfl | h
      · exact .inr (.inl rfl)
      · exact .inr (.inr (mem_append_right _ h))

theorem Laid.before_own (h : Laid rows (slots.map Prod.fst)) {e} (he : e ∈ slots) :
    Before e (rooted e) := by
  obtain ⟨slot, failed⟩ := e
  intro d hd x hx
  cases failed with
  | false => cases hd
  | true =>
    cases hdft : slot.iBatchDft with
    | nil => simp [draftsOf, hdft] at hd
    | cons root drafts =>
      obtain ⟨-, hprompt, -, hbefore⟩ := h.drafting slot (mem_map_of_mem he) hdft
      have hnone : (slot.promptBatchI1 - slot.promptBatchI0).toNat = 0 := by omega
      obtain rfl : x = root := by simpa [rooted, hdft, BatchSlot.recorded, hnone] using hx
      exact hbefore d (by simpa [draftsOf, hdft] using hd)

theorem Laid.draft_nonneg (h : Laid rows (slots.map Prod.fst)) {e} (he : e ∈ slots) {d : Int}
    (hd : d ∈ draftsOf e) : 0 ≤ d := by
  unfold draftsOf at hd
  split at hd
  · obtain ⟨root, drafts, hdft⟩ := exists_cons_of_ne_nil fun hnil : e.1.iBatchDft = [] => by
      simp [hnil] at hd
    obtain ⟨-, -, hroot, hbefore⟩ := h.drafting e.1 (mem_map_of_mem he) hdft
    rw [hdft] at hd
    have := hbefore d hd
    omega
  · cases hd

/-- A slot with all its rows behind `d` still records one of them, its root if it failed. -/
theorem Laid.rooted_behind (h : Laid rows (slots.map Prod.fst)) {f} (hf : f ∈ slots) {d x : Int}
    (hbehind : ∀ y ∈ f.1.recorded, 0 ≤ y → d < y) (hx : x ∈ f.1.recorded) (hx0 : 0 ≤ x) :
    ∃ y ∈ (rooted f).recorded, y ∈ f.1.recorded ∧ d < y := by
  obtain ⟨slot, failed⟩ := f
  have hdx := hbehind x hx hx0
  cases failed with
  | false => exact ⟨x, hx, hx, hdx⟩
  | true =>
    cases hdft : slot.iBatchDft with
    | nil => exact ⟨x, by simpa [rooted, hdft] using hx, hx, hdx⟩
    | cons root drafts =>
      have hmem : root ∈ slot.recorded := by simp [BatchSlot.recorded, hdft]
      obtain ⟨-, -, hroot, -⟩ := h.drafting slot (mem_map_of_mem hf) hdft
      exact ⟨root, by simp [rooted, hdft, BatchSlot.recorded], hmem, hbehind root hmem hroot⟩

/-- If the indices of a slot designate what they did, they lie before the rows of another. -/
theorem before_of_designates {e f : BatchSlot × Bool} {slot : BatchSlot} {gone : List Int}
    (hlaid : Laid rows (slots.map Prod.fst)) (hrows : rows.Nodup) (he : e ∈ slots) (hf : f ∈ slots)
    (hapart : Apart e.1 f.1) (hgone : ∀ d ∈ draftsOf e, d ∈ gone)
    (hslot : slot = rooted f ∨ slot = { rooted f with iBatch := -1 })
    (hsame : slot.designates (rowsBut gone rows) = (rooted f).designates rows) :
    Before e f.1 := by
  intro d hd x hx
  by_contra hle
  have hd0 := hlaid.draft_nonneg he hd
  -- the slot's other rows lie behind `d` as well, its root among them
  have hbehind : ∀ y ∈ f.1.recorded, 0 ≤ y → d < y := by
    rcases hapart with hlt | hgt
    · exact fun y hy hy0 => hlt d (recorded_draft hd) y hy hd0 hy0
    · exact absurd (hgt d (recorded_draft hd) x hx hd0 (by omega)) hle
  obtain ⟨y, hy, hyin, hdy⟩ := hlaid.rooted_behind hf hbehind hx (by omega)
  have hylt := hlaid.inside f.1 (mem_map_of_mem hf) y hyin
  have hrow : rowAt (rowsBut gone rows) y = rowAt rows y := by
    rcases hslot with rfl | rfl
    · exact map_inj_left.mp hsame y hy
    · obtain ⟨hfirst, hrest⟩ := cons.inj hsame
      rcases mem_cons.mp hy with rfl | hy
      · have hnone : rowAt rows (rooted f).iBatch = none := hfirst.symm
        rw [rowAt, if_pos (by omega), getElem?_eq_none_iff] at hnone
        omega
      · exact map_inj_left.mp hrest y hy
  rw [rowAt, rowAt, if_pos (by omega), if_pos (by omega)] at hrow
  refine rowsBut_behind (d := d.toNat) hrows ?_ (by omega) (by omega) hrow
  rw [Int.toNat_of_nonneg hd0]
  exact hgone d hd

/-- **The batch keeps exactly the other rows and every index its row if and only if nothing is
recorded behind a draft row of another slot that failed.** -/
theorem recorded_rows_stay (hbuilt : Built rows (slots.map Prod.fst)) (hrows : rows.Nodup) :
    ((removeDrafts rows slots).1 = rowsBut (slots.flatMap draftsOf) rows ∧
      Forall₂ (fun e slot =>
        slot.designates (removeDrafts rows slots).1 = (rooted e).designates rows)
        slots (removeDrafts rows slots).2) ↔
    slots.Pairwise fun e f => Before e f.1 ∧ Before f e.1 := by
  have hlaid := hbuilt.laid
  constructor
  · rintro ⟨hrest, hsame⟩
    rw [hrest] at hsame
    have hslots := removeDrafts_slots hlaid
    have hall : ∀ {e f : BatchSlot × Bool}, e ∈ slots → f ∈ slots → Apart e.1 f.1 →
        Before e f.1 := fun he hf hapart => by
      obtain ⟨slot, hslot, hdesignates⟩ := exists_of_forall₂ hslots hsame hf
      exact before_of_designates hlaid hrows he hf hapart
        (fun d hd => mem_flatMap.mpr ⟨_, he, hd⟩) hslot hdesignates
    exact (pairwise_map.mp hlaid.apart).imp_of_mem fun he hf hapart =>
      ⟨hall he hf hapart, hall hf he hapart.symm⟩
  · intro hothers
    have hsymm : Std.Symm fun e f : BatchSlot × Bool => Before e f.1 ∧ Before f e.1 :=
      ⟨fun _ _ => And.symm⟩
    rw [removeDrafts_of_before (fun e he root drafts hdft => ?_) hothers]
    · refine ⟨rfl, forall₂_map_right_iff.mpr (forall₂_same.mpr fun e he => ?_)⟩
      refine map_congr_left fun x hx => ?_
      rw [rowAt, rowAt]
      split
      next hx0 =>
        refine rowsBut_before rows fun d hd => ?_
        obtain ⟨f, hf, hd⟩ := mem_flatMap.mp hd
        rw [Int.toNat_of_nonneg hx0]
        by_cases hef : f = e
        · exact hlaid.before_own he d (hef ▸ hd) x hx
        · exact (hothers.forall hf he hef).1 d hd x (recorded_of_rooted hx)
      · rfl
    · obtain ⟨-, -, hroot, hbefore⟩ := hlaid.drafting e.1 (mem_map_of_mem he) hdft
      exact ⟨hroot, hlaid.inside e.1 (mem_map_of_mem he) root (by simp [BatchSlot.recorded, hdft]),
        hbefore⟩

/-- The last of two slots loses its draft rows. -/
theorem last_slot_goes_on_with_its_root :
    removeDrafts [10, 20, 21] [(⟨0, [], -1, -1⟩, false), (⟨-1, [1, 2], -1, -1⟩, true)] =
        ([10, 20], [⟨0, [], -1, -1⟩, ⟨1, [], -1, -1⟩]) ∧
      (removeDrafts [10, 20, 21] [(⟨0, [], -1, -1⟩, false), (⟨-1, [1, 2], -1, -1⟩, true)]).1 =
        rowsBut [2] [10, 20, 21] := by
  have hbuilt : Built [10, 20, 21] [⟨0, [], -1, -1⟩, ⟨-1, [1, 2], -1, -1⟩] :=
    .drafted (i := 1) (.sampled (i := 0) (.clear 2) rfl 10) rfl 20 [21]
  refine ⟨rfl, ((recorded_rows_stay hbuilt (by decide)).mpr ?_).1⟩
  simp only [Before, draftsOf, BatchSlot.recorded, pairwise_cons]
  simp

/-- The first of two slots fails: the index of the second is now outside the batch. -/
theorem later_index_is_not_remapped :
    let slots : List (BatchSlot × Bool) :=
      [(⟨-1, [0, 1, 2], -1, -1⟩, true), (⟨3, [], -1, -1⟩, false)]
    (removeDrafts [10, 11, 12, 20] slots).2[1]? = some ⟨3, [], -1, -1⟩ ∧
      [10, 11, 12, 20][3]? = some 20 ∧ (removeDrafts [10, 11, 12, 20] slots).1[3]? = none := by
  decide

end ExpertStreaming.Server
