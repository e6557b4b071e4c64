import ExpertStreaming.KvCache.Runs

/-! # Pending copies of recurrent states

`llama_kv_cache_seq_cp` only notes that slot `d` is to receive the state of slot `s`, in the
source entry of cell `d`; an update carries all such copies out at once. In between, row `d`
of the attention part is freed, moved and filled like any other row, and none of that should
reach the source entry. `seq_rm` and `seq_keep` reset the entry of a row they free, so a pending
copy survives them only when it was not recorded in a row that falls free.
-/
namespace ExpertStreaming.KvCache
open Lib Option

/-- The slot whose state a slot ends up with after some copies, the latest first. -/
def origin : List (Nat × Nat) → Nat → Nat
  | [], slot => slot
  | (source, destination) :: earlier, slot =>
    origin earlier (if slot = destination then source else slot)

namespace Cache

def sources (c : Cache) : List Nat := c.cells.map Cell.src

theorem copySources_eq (c : Cache) (i : Nat) : c.copySources i = c.sources.getD i 0 := by
  unfold copySources cell sources
  rw [List.getD_eq_getElem?_getD, List.getD_eq_getElem?_getD, List.getElem?_map]
  cases c.cells[i]? <;> rfl

/-- What an operation on attention rows should leave alone. -/
structure SameStates (c c' : Cache) : Prop where
  states : c'.s = c.s
  pending : c'.doCopy = c.doCopy
  sources : c'.sources = c.sources

namespace SameStates

variable {c c' c'' : Cache}

theorem refl (c : Cache) : SameStates c c := ⟨rfl, rfl, rfl⟩

theorem trans (h : SameStates c c') (h' : SameStates c' c'') : SameStates c c'' :=
  ⟨h'.states.trans h.states, h'.pending.trans h.pending, h'.sources.trans h.sources⟩

end SameStates

/-! ## Operations that leave the states alone -/

variable {c c' : Cache}

variable {cells : List Cell} {cell : Cell} {seq p0 p1 : Int} {env : Env} {side : Option String}
  {reply : Reply}

theorem map_src_set {i} (h : cell.src = (cells.getD i {}).src) :
    (cells.set i cell).map Cell.src = cells.map Cell.src := by
  by_cases hi : i < cells.length
  · rw [List.getD_eq_getElem _ _ hi] at h
    rw [List.map_set, h, ← List.getElem_map Cell.src (h := by rwa [List.length_map]),
      List.set_getElem_self]
  · rw [List.set_eq_of_length_le (Nat.le_of_not_lt hi)]

theorem src_getD_congr {cells' : List Cell} (h : cells'.map Cell.src = cells.map Cell.src)
    (i : Nat) : (cells'.getD i {}).src = (cells.getD i {}).src := by
  have hget : (cells'.map Cell.src)[i]? = (cells.map Cell.src)[i]? := by rw [h]
  rw [List.getElem?_map, List.getElem?_map] at hget
  rw [List.getD_eq_getElem?_getD, List.getD_eq_getElem?_getD]
  cases hold : cells[i]? with
  | none =>
    rw [hold, map_none, map_eq_none_iff] at hget
    rw [hget]
  | some a =>
    rw [hold, map_some, map_eq_some_iff] at hget
    obtain ⟨b, hb, heq⟩ := hget
    rw [hb]
    exact heq

theorem sameStates_sweep {f}
    (h : ∀ i cell, c.cells[i]? = some cell → (f i cell).cell.src = cell.src) :
    SameStates c (c.sweep f) := by
  refine ⟨rfl, rfl, List.ext_getElem? fun i => ?_⟩
  unfold sources
  rw [List.getElem?_map, List.getElem?_map, getElem?_sweep, map_map]
  cases hi : c.cells[i]? with
  | none => rfl
  | some cell =>
    rw [map_some, map_some]
    exact congrArg some (h i cell hi)

theorem src_replaceRow (orders : List Int) (src dst : Int) (i : Nat) (cell : Cell) :
    (replaceRow orders src dst i cell).cell.src = cell.src := by
  unfold replaceRow
  split
  · dsimp only
    split <;> rfl
  · rfl

theorem sameStates_replaceOrders (src dst p0 p1 : Int) :
    SameStates c (c.replaceOrders src dst p0 p1) := by
  unfold replaceOrders
  split
  · exact sameStates_sweep fun i cell _ => src_replaceRow _ _ _ i cell
  · exact .refl c

theorem map_src_map {f : Cell → Cell} (h : ∀ cell, (f cell).src = cell.src) :
    (cells.map f).map Cell.src = cells.map Cell.src := by
  rw [List.map_map]
  exact List.map_congr_left fun cell _ => h cell

theorem sameStates_shareRows (src dst p0 p1 : Int) :
    SameStates c (c.shareRows src dst p0 p1) :=
  ⟨rfl, rfl, map_src_map fun cell => by split <;> rfl⟩

theorem sameStates_seqAdd {delta} (hplain : c.recurrent = false)
    (h : c.seqAdd seq p0 p1 delta = some c') : SameStates c c' := by
  rcases seqAdd_cases hplain h with rfl | ⟨shift, head, rfl⟩
  · exact .refl _
  obtain ⟨h₁, h₂, h₃⟩ := sameStates_sweep (c := c) (f := c.addRow seq p0 p1 delta)
    fun i cell _ => by
      unfold addRow
      split
      · split <;> rfl
      · rfl
  exact ⟨h₁, h₂, h₃⟩

theorem sameStates_seqDiv {d} (hplain : c.recurrent = false) (h : c.seqDiv seq p0 p1 d = some c') :
    SameStates c c' := by
  rcases seqDiv_cases hplain h with rfl | ⟨shift, rfl⟩
  · exact .refl _
  · exact ⟨rfl, rfl, map_src_map fun cell => by split <;> rfl⟩

theorem planRows_src {t : Transform} {rows : List Nat} {plan plan' : Plan}
    (h : t.planRows cells rows plan = .ok plan')
    (hplan : ∀ change ∈ plan.changes, change.2.src = (cells.getD change.1 {}).src) :
    ∀ change ∈ plan'.changes, change.2.src = (cells.getD change.1 {}).src := by
  induction rows generalizing plan with
  | nil =>
    cases h
    exact hplan
  | cons row rest ih =>
    unfold Transform.planRows at h
    split at h
    · cases h
    next planned hrow =>
    refine ih h fun change hmem => ?_
    cases Transform.planRow_ok hrow with
    | stay => exact hplan change hmem
    | drop =>
      rcases List.mem_append.mp hmem with hmem | hmem
      · exact hplan change hmem
      · obtain rfl := List.mem_singleton.mp hmem
        show (t.dropped _).src = _
        unfold Transform.dropped
        split <;> rfl
    | split =>
      rcases List.mem_append.mp hmem with hmem | hmem
      · exact hplan change hmem
      · rcases List.mem_pair.mp hmem with rfl | rfl <;> rfl
    | move =>
      rcases List.mem_append.mp hmem with hmem | hmem
      · exact hplan change hmem
      · obtain rfl := List.mem_singleton.mp hmem
        rfl

theorem map_src_applyChanges {changes : List (Nat × Cell)}
    (h : ∀ change ∈ changes, change.2.src = (cells.getD change.1 {}).src) :
    (applyChanges cells changes).map Cell.src = cells.map Cell.src := by
  unfold applyChanges
  induction changes generalizing cells with
  | nil => rfl
  | cons change rest ih =>
    have hset := map_src_set (h change List.mem_cons_self)
    rw [List.foldl_cons, ih, hset]
    intro other hmem
    rw [src_getD_congr hset]
    exact h other (List.mem_cons_of_mem _ hmem)

theorem sameStates_transformPositions (env : Env) (seq p0 p1 delta divisor : Int)
    (side : Option String) :
    SameStates c (c.transformPositions env seq p0 p1 delta divisor side).1 := by
  rcases transformPositions_cases env c seq p0 p1 delta divisor side with
    heq | ⟨plan, ⟨-, hplan⟩, heq⟩
  · rw [heq]
    exact .refl c
  · rw [heq]
    exact ⟨rfl, rfl, map_src_applyChanges (planRows_src hplan fun _ hmem => (nomatch hmem))⟩

theorem sameStates_addPositions {delta} (hplain : c.recurrent = false)
    (h : c.addPositions env seq p0 p1 delta side = some (c', reply)) : SameStates c c' := by
  rcases addPositions_cases h with rfl | ⟨-, rfl⟩ | ⟨-, -, -, hmoved⟩
  · exact .refl _
  · exact sameStates_transformPositions env seq p0 p1 delta 1 side
  · exact sameStates_seqAdd hplain hmoved

theorem sameStates_dividePositions {d} (hplain : c.recurrent = false)
    (h : c.dividePositions env seq p0 p1 d side = some (c', reply)) : SameStates c c' := by
  rcases dividePositions_cases h with rfl | ⟨-, -, rfl⟩ | ⟨-, -, -, hmoved⟩
  · exact .refl _
  · exact sameStates_transformPositions env seq p0 p1 0 d side
  · exact sameStates_seqDiv hplain hmoved

theorem map_src_moveCell (cells : List Cell) (i j : Nat) :
    (moveCell cells i j).map Cell.src = cells.map Cell.src := by
  unfold moveCell
  have hfirst : (cells.set j { cells.getD i {} with src := (cells.getD j {}).src }).map Cell.src =
      cells.map Cell.src := map_src_set rfl
  rw [map_src_set, hfirst]
  rw [src_getD_congr hfirst]

theorem Compacts.map_src {now} (h : Compacts cells now) :
    now.map Cell.src = cells.map Cell.src := by
  induction h with
  | refl => rfl
  | move _ _ _ _ ih => rw [map_src_moveCell, ih]

theorem sameStates_applyShift (g : Graphs) : SameStates c (c.applyShift g) :=
  ⟨rfl, rfl, map_src_map fun _ => rfl⟩

theorem sameStates_shifted {g : Graphs} (h : c' = c ∨ c' = c.applyShift g) : SameStates c c' := by
  rcases h with rfl | rfl
  · exact .refl _
  · exact sameStates_applyShift g

theorem sameStates_settleDefrag {g} (h : c.settleDefrag g = some c') :
    SameStates c c' := by
  unfold settleDefrag at h
  split at h
  · obtain ⟨moved, hmoved, rfl⟩ := map_eq_some_iff.mp h
    have hsources := Compacts.map_src (defragInternal_compacts hmoved)
    unfold defragInternal at hmoved
    dsimp only at hmoved
    obtain ⟨d, -, rfl⟩ := map_eq_some_iff.mp hmoved
    refine ⟨?_, ?_, hsources⟩ <;> dsimp only <;> split <;> rfl
  · cases h
    exact .refl c

theorem sameStates_update {g : Graphs} {status : Nat} (hcopy : c.doCopy = false)
    (h : c.update g = some (c', status)) : SameStates c c' := by
  rcases update_cases h with ⟨rfl, -⟩ | ⟨shifted, copied, hshift, -, hcopied, hdefrag, -⟩
  · exact .refl _
  · have hshifted := sameStates_shifted hshift
    have hsame : copied = shifted := by
      unfold settleCopies at hcopied
      rw [hshifted.pending, hcopy, Bool.and_false, if_neg Bool.false_ne_true] at hcopied
      exact (some.inj hcopied).symm
    subst hsame
    exact hshifted.trans (sameStates_settleDefrag hdefrag)

/-! ## Operations that can cancel a copy -/

def FreesNoCopy (c : Cache) (f : Nat → Cell → Swept) : Prop :=
  ∀ i < c.size, (f i (c.cell i)).freed = true → (c.cell i).src = i

instance (c : Cache) (f : Nat → Cell → Swept) : Decidable (c.FreesNoCopy f) :=
  inferInstanceAs (Decidable (∀ i < c.size, _))

theorem FreesNoCopy.src_eq {f} (h : c.FreesNoCopy f) {i} (hi : c.cells[i]? = some cell)
    (hfreed : (f i cell).freed = true) : cell.src = i := by
  obtain ⟨hlt, hget⟩ := List.getElem?_eq_some_iff.mp hi
  have hcell : c.cell i = cell := by
    unfold Cache.cell
    rw [List.getD_eq_getElem _ _ hlt, hget]
  rw [← hcell] at hfreed ⊢
  exact h i hlt hfreed

theorem src_freeRow {i} (h : cell.src = i) :
    (c.freeRow i cell).src = cell.src := by
  unfold freeRow
  dsimp only
  split
  · exact h.symm
  · rfl

theorem sameStates_seqRm (h : c.FreesNoCopy (c.rmRow seq p0 p1)) :
    SameStates c (c.seqRm seq p0 p1).1 := by
  unfold seqRm
  split
  · exact .refl c
  · obtain ⟨h₁, h₂, h₃⟩ := sameStates_sweep (c := c) (f := c.rmRow seq p0 p1)
      fun i cell hi => by
        have hfreed := h.src_eq hi
        unfold rmRow at hfreed ⊢
        split
        next hguard =>
          rw [if_pos hguard] at hfreed
          split
          next hleft =>
            rw [if_pos hleft] at hfreed
            exact src_freeRow (hfreed rfl)
          · rfl
        · rfl
    exact ⟨h₁, h₂, h₃⟩

theorem sameStates_seqKeep (h : c.FreesNoCopy (c.keepRow seq)) :
    SameStates c (c.seqKeep seq) := by
  obtain ⟨h₁, h₂, h₃⟩ := sameStates_sweep (c := c) (f := c.keepRow seq)
    fun i cell hi => by
      have hfreed := h.src_eq hi
      unfold keepRow at hfreed ⊢
      split
      · rfl
      next hguard =>
        rw [if_neg hguard] at hfreed
        exact src_freeRow (hfreed rfl)
  exact ⟨h₁, h₂, h₃⟩

/-! ## Recording a copy -/

def recorded (c : Cache) : Call × Reply → Option (Nat × Nat)
  | (.seqCp src dst _ _ _, .done) =>
    if src ≠ dst ∧ c.qnextSeqIdInRange src ∧ c.qnextSeqIdInRange dst then
      some (src.toNat, dst.toNat) else none
  | _ => none

def copiesOf (evs : List (Event Cache (Call × Reply))) : List (Nat × Nat) :=
  evs.filterMap fun ev => ev.before.recorded ev.label

/-- The recurrent part of a hybrid cache: every layer has the same slots, no more than rows. -/
structure HybridStates (c : Cache) : Prop where
  plain : c.recurrent = false
  hybrid : c.hybrid = true
  stored : c.hasQnextState = true
  fits : c.qnextStateSlots ≤ c.size
  layers : ∀ t, some t ∈ c.s → t.ne1 = c.qnextStateSlots

def Settled (c : Cache) : Prop := ∀ i < c.size, c.sources.getD i 0 = i

instance (c : Cache) : Decidable c.Settled := inferInstanceAs (Decidable (∀ i < c.size, _))

theorem lt_of_inRange (h : c.qnextSeqIdInRange seq = true) :
    0 ≤ seq ∧ seq.toNat < c.qnextStateSlots := by
  unfold qnextSeqIdInRange at h
  simp only [Bool.and_eq_true, decide_eq_true_eq] at h
  omega

theorem copiesState_iff (hstored : c.hasQnextState = true) (hfits : c.qnextStateSlots ≤ c.size)
    {src dst} : c.copiesState src dst = true ↔
      c.qnextSeqIdInRange src = true ∧ c.qnextSeqIdInRange dst = true := by
  unfold copiesState
  simp only [Bool.and_eq_true, decide_eq_true_eq]
  constructor
  · rintro ⟨⟨⟨⟨-, hdst⟩, hsrc⟩, -⟩, -⟩
    exact ⟨hsrc, hdst⟩
  · rintro ⟨hsrc, hdst⟩
    obtain ⟨-, hlt⟩ := lt_of_inRange hsrc
    obtain ⟨-, hlt'⟩ := lt_of_inRange hdst
    exact ⟨⟨⟨⟨hstored, hdst⟩, hsrc⟩, by omega⟩, by omega⟩

theorem sources_recordCopy (src dst : Int) : (c.recordCopy src dst).sources =
    c.sources.set dst.toNat (c.sources.getD src.toNat 0) := by
  have hsrc : (c.cell src.toNat).src = c.sources.getD src.toNat 0 := copySources_eq c src.toNat
  unfold recordCopy sources
  dsimp only
  rw [hsrc]
  refine List.ext_getElem? fun i => ?_
  rw [List.getElem?_map, List.getElem?_modify, map_eq_map, map_map,
    List.getElem?_set, List.length_map, List.getElem?_map]
  by_cases hi : dst.toNat = i
  · rw [if_pos hi]
    cases hcell : c.cells[i]? with
    | none =>
      rw [if_neg (Nat.not_lt.mpr (List.getElem?_eq_none_iff.mp hcell |> fun h => hi ▸ h))]
      rfl
    | some cell =>
      rw [if_pos (hi ▸ (List.getElem?_eq_some_iff.mp hcell).1)]
      simp only [map_some, Function.comp, if_pos hi]
      rfl
  · rw [if_neg hi]
    cases c.cells[i]? with
    | none => rfl
    | some cell => simp only [map_some, Function.comp, if_neg hi]

theorem seqCp_states {src dst : Int} (hplain : c.recurrent = false)
    (h : c.seqCp src dst p0 p1 = some c') :
    (c.copiesState src dst = true ∧ c'.s = c.s ∧ c'.doCopy = true ∧
      c'.sources = c.sources.set dst.toNat (c.sources.getD src.toNat 0)) ∨
    (c.copiesState src dst = false ∧ SameStates c c') := by
  unfold seqCp at h
  rw [if_neg (by simp [hplain])] at h
  split at h
  next hstate =>
    split at h
    · cases h
      have hshared := sameStates_shareRows (c := c.recordCopy src dst) (c.rowSource src dst) dst p0 p1
      exact .inl ⟨hstate, hshared.states, hshared.pending,
        hshared.sources.trans (sources_recordCopy src dst)⟩
    · cases h
  next hstate =>
    cases h
    exact .inr ⟨Bool.eq_false_of_not_eq_true hstate, sameStates_shareRows src dst p0 p1⟩

/-! ## Between two applications -/

def Between (c : Cache) : Call → Prop
  | .clear | .decode .. => False
  | .update => c.doCopy = false
  | _ => True

instance (c : Cache) (a : Call) : Decidable (c.Between a) :=
  match a with
  | .clear | .decode .. => inferInstanceAs (Decidable False)
  | .update => inferInstanceAs (Decidable (c.doCopy = false))
  | .seqCp .. | .seqRm .. | .seqKeep .. | .seqAdd .. | .seqDiv .. | .defrag =>
    inferInstanceAs (Decidable True)

def KeepsCopies (c : Cache) : Call → Prop
  | .seqRm seq p0 p1 => c.FreesNoCopy (c.rmRow seq p0 p1)
  | .seqKeep seq => c.FreesNoCopy (c.keepRow seq)
  | .seqCp src _ p0 p1 _ => c.ordered = true → c.copiedOrders src p0 p1 ≠ []
  | _ => True

instance (c : Cache) (a : Call) : Decidable (c.KeepsCopies a) :=
  match a with
  | .seqRm seq p0 p1 => inferInstanceAs (Decidable (c.FreesNoCopy (c.rmRow seq p0 p1)))
  | .seqKeep seq => inferInstanceAs (Decidable (c.FreesNoCopy (c.keepRow seq)))
  | .seqCp src _ p0 p1 _ =>
    inferInstanceAs (Decidable (c.ordered = true → c.copiedOrders src p0 p1 ≠ []))
  | .decode .. | .seqAdd .. | .seqDiv .. | .clear | .defrag | .update =>
    inferInstanceAs (Decidable True)

/-- **Between two applications** the source entries tell where the copies asked for lead. -/
structure Noted (c₁ : Cache) (copies : List (Nat × Nat)) (c : Cache) : Prop where
  kind : SameKind c₁ c
  states : c.s = c₁.s
  sources : ∀ i < c₁.size, c.sources.getD i 0 = origin copies.reverse i
  pending : copies ≠ [] → c.doCopy = true
  slots : ∀ copy ∈ copies, copy.1 < c₁.qnextStateSlots ∧ copy.2 < c₁.qnextStateSlots

variable {c₁ : Cache} {copies : List (Nat × Nat)}

theorem Noted.same (h : Noted c₁ copies c) (hkind : SameKind c c') (hsame : SameStates c c') :
    Noted c₁ copies c' :=
  ⟨h.kind.trans hkind, hsame.states.trans h.states,
    fun i hi => by rw [hsame.sources]; exact h.sources i hi,
    fun hne => hsame.pending.trans (h.pending hne), h.slots⟩

theorem Noted.copy (h : Noted c₁ copies c) (hkind : SameKind c c') (hstates : c'.s = c.s)
    (hcopy : c'.doCopy = true) {source destination} (hsource : source < c₁.qnextStateSlots)
    (hdestination : destination < c₁.qnextStateSlots) (hfits : c₁.qnextStateSlots ≤ c₁.size)
    (hsources : c'.sources = c.sources.set destination (c.sources.getD source 0)) :
    Noted c₁ (copies ++ [(source, destination)]) c' := by
  have hlen : c.sources.length = c₁.size := by
    unfold Cache.sources
    rw [List.length_map]
    exact h.kind.size
  refine ⟨h.kind.trans hkind, hstates.trans h.states, fun i hi => ?_, fun _ => hcopy, ?_⟩
  · rw [hsources, List.reverse_append, List.reverse_singleton, List.singleton_append, origin,
      List.getD_eq_getElem?_getD, List.getElem?_set]
    by_cases hid : destination = i
    · rw [if_pos hid, if_pos hid.symm, if_pos (by omega), getD_some]
      exact h.sources source (by omega)
    · rw [if_neg hid, if_neg (Ne.symm hid), ← List.getD_eq_getElem?_getD]
      exact h.sources i hi
  · intro copy hmem
    rcases List.mem_append.mp hmem with hmem | hmem
    · exact h.slots copy hmem
    · obtain rfl := List.mem_singleton.mp hmem
      exact ⟨hsource, hdestination⟩

theorem Noted.seqCp {src dst} (h : Noted c₁ copies c) (hc₁ : c₁.HybridStates)
    (hstep : c.copySequence env src dst p0 p1 side = some (c', reply))
    (hsome : c.ordered = true → c.copiedOrders src p0 p1 ≠ []) :
    Noted c₁ (copies ++ (c.recorded (.seqCp src dst p0 p1 side, reply)).toList) c' := by
  have hkind := (framed_copySequence hstep).toSameKind
  have hrange : ∀ {c c' : Cache} {seq : Int}, SameKind c c' →
      c'.qnextSeqIdInRange seq = c.qnextSeqIdInRange seq := by
    intro c c' seq hkind
    unfold qnextSeqIdInRange
    rw [hkind.slots]
  have hnone : c' = c → c.recorded (.seqCp src dst p0 p1 side, reply) = none →
      Noted c₁ (copies ++ (c.recorded (.seqCp src dst p0 p1 side, reply)).toList) c' := by
    rintro rfl hnone
    rw [hnone, toList_none, List.append_nil]
    exact h
  rcases copySequence_cases hstep with ⟨rfl, hwhy⟩ | ⟨hne, rfl, hcopied⟩
  · refine hnone rfl ?_
    unfold recorded
    split
    next heq =>
      cases heq
      rcases hwhy rfl with hself | hempty
      · exact if_neg fun hc => hc.1 hself
      · exact absurd hempty.2 (hsome hempty.1)
    · rfl
  · have hreplaced := sameStates_replaceOrders (c := c) src dst p0 p1
    have hrkind := framed_replaceOrders (c := c) src dst p0 p1
    have hplain := hrkind.recurrent.trans (h.kind.recurrent.trans hc₁.plain)
    have hall := h.kind.trans hrkind.toSameKind
    have hiff : (c.replaceOrders src dst p0 p1).copiesState src dst = true ↔ _ :=
      copiesState_iff (hall.hasQnextState.trans hc₁.stored) (by
        rw [hall.slots, size, hall.size]
        exact hc₁.fits)
    rw [hrange hrkind.toSameKind, hrange hrkind.toSameKind] at hiff
    have hrecorded : c.recorded (.seqCp src dst p0 p1 side, .done) =
        if (c.replaceOrders src dst p0 p1).copiesState src dst then some (src.toNat, dst.toNat)
        else none := by
      show (if _ then _ else _) = _
      refine if_congr ?_ rfl rfl
      rw [hiff]
      exact ⟨fun hc => hc.2, fun hc => ⟨hne, hc⟩⟩
    rw [hrecorded]
    rcases seqCp_states hplain hcopied with ⟨hstate, hs, hdo, hsources⟩ | ⟨hstate, hsame⟩
    · obtain ⟨hsrc, hdst⟩ := hiff.mp hstate
      rw [if_pos hstate, toList_some]
      rw [hreplaced.sources] at hsources
      refine h.copy hkind (hs.trans hreplaced.states) hdo ?_ ?_ hc₁.fits hsources
      · exact h.kind.slots ▸ (lt_of_inRange hsrc).2
      · exact h.kind.slots ▸ (lt_of_inRange hdst).2
    · rw [if_neg (by simp [hstate]), toList_none, List.append_nil]
      exact h.same hkind (hreplaced.trans hsame)

/-- **One call between two applications.** -/
theorem Noted.step {label} (hc₁ : c₁.HybridStates) (h : Noted c₁ copies c)
    (hstep : Step env c label c') (hbetween : c.Between label.1) (hkeeps : c.KeepsCopies label.1) :
    Noted c₁ (copies ++ (c.recorded label).toList) c' := by
  obtain ⟨a, reply⟩ := label
  have hplain := h.kind.recurrent.trans hc₁.plain
  have hkind := sameKind_call hplain hstep
  have hother : c.recorded (a, reply) = none → SameStates c c' →
      Noted c₁ (copies ++ (c.recorded (a, reply)).toList) c' := by
    intro hnone hsame
    rw [hnone, toList_none, List.append_nil]
    exact h.same hkind hsame
  unfold Step at hstep
  cases a with
  | decode batch side => exact absurd hbetween id
  | seqRm seq p0 p1 =>
    refine hother rfl ?_
    obtain rfl := congrArg Prod.fst (some.inj hstep)
    exact sameStates_seqRm hkeeps
  | seqCp src dst p0 p1 side => exact h.seqCp hc₁ hstep hkeeps
  | seqKeep seq =>
    refine hother rfl ?_
    obtain rfl := congrArg Prod.fst (some.inj hstep)
    exact sameStates_seqKeep hkeeps
  | seqAdd seq p0 p1 delta side => exact hother rfl (sameStates_addPositions hplain hstep)
  | seqDiv seq p0 p1 d side => exact hother rfl (sameStates_dividePositions hplain hstep)
  | clear => exact absurd hbetween id
  | defrag =>
    refine hother rfl ?_
    obtain rfl := congrArg Prod.fst (some.inj hstep)
    show SameStates c c.defrag
    unfold Cache.defrag
    split
    · exact .refl c
    · exact ⟨rfl, rfl, rfl⟩
  | update =>
    refine hother rfl ?_
    unfold call at hstep
    obtain ⟨⟨settled, status⟩, hsettled, heq⟩ := map_eq_some_iff.mp hstep
    cases heq
    exact sameStates_update hbetween hsettled

theorem copiesOf_snoc (past : List (Event Cache (Call × Reply))) (ev : Event Cache (Call × Reply)) :
    copiesOf (past ++ [ev]) = copiesOf past ++ (ev.before.recorded ev.label).toList := by
  unfold copiesOf
  rw [List.filterMap_append]
  cases hrecorded : ev.before.recorded ev.label with
  | none => simp [hrecorded]
  | some copy => simp [hrecorded]

theorem Noted.run {c₂ evs} (hc₁ : c₁.HybridStates) (hsettled : c₁.Settled)
    (hrun : Trace (Step env) c₁ evs c₂) (hbetween : ∀ ev ∈ evs, ev.before.Between ev.label.1)
    (hkeeps : ∀ ev ∈ evs, ev.before.KeepsCopies ev.label.1) :
    Noted c₁ (copiesOf evs) c₂ := by
  have hstart : Noted c₁ (copiesOf []) c₁ :=
    ⟨.refl c₁, rfl, hsettled, fun hne => absurd rfl hne, fun _ hmem => (nomatch hmem)⟩
  have hall := hrun.history_of (H := fun past c => Noted c₁ (copiesOf past) c)
    (C := fun ev => ev.before.Between ev.label.1 ∧ ev.before.KeepsCopies ev.label.1)
    (fun past s a s' hpast hstep hok => by
      rw [copiesOf_snoc]
      exact hpast.step hc₁ hstep hok.1 hok.2)
    (fun ev hev => ⟨hbetween ev hev, hkeeps ev hev⟩) hstart
  rw [List.nil_append] at hall
  exact hall

/-! ## Carrying the copies out -/

theorem origin_lt {slots slot} (h : ∀ copy ∈ copies, copy.1 < slots) (hslot : slot < slots) :
    origin copies slot < slots := by
  induction copies generalizing slot with
  | nil => exact hslot
  | cons copy earlier ih =>
    unfold origin
    refine ih (fun copy hmem => h copy (List.mem_cons_of_mem _ hmem)) ?_
    split
    · exact h copy List.mem_cons_self
    · exact hslot

theorem row_gatherRows (t : Tensor) (ids : Nat → Nat) {slot} (h : slot < t.ne1) :
    (t.gatherRows t.nb1 ids).row t.nb1 slot = t.row t.nb1 (ids slot) := by
  refine List.ext_getElem? fun k => ?_
  show (Memory.read _ _ _)[k]? = (Memory.read _ _ _)[k]?
  rw [Memory.getElem?_read, Memory.getElem?_read]
  split
  next hk =>
    have hwithin : slot * t.nb1 + k < t.nbytes := by
      have hle : (slot + 1) * t.nb1 ≤ t.ne1 * t.nb1 := Nat.mul_le_mul_right _ h
      rw [Nat.succ_mul] at hle
      unfold Tensor.nbytes
      omega
    have hdiv : (slot * t.nb1 + k) / t.nb1 = slot := by
      rw [Nat.mul_comm, Nat.mul_add_div (by omega), Nat.div_eq_of_lt hk, Nat.add_zero]
    have hmod : (slot * t.nb1 + k) % t.nb1 = k := by
      rw [Nat.mul_comm, Nat.mul_add_mod, Nat.mod_eq_of_lt hk]
    show some (if _ then _ else _) = _
    rw [if_pos hwithin, hdiv, hmod]
  · rfl

theorem Noted.applicable (h : Noted c₁ copies c) (hc₁ : c₁.HybridStates) :
    ∀ i < c.qnextStateSlots, c.copySources i < c.qnextStateSlots := by
  intro i hi
  rw [h.kind.slots] at hi ⊢
  rw [copySources_eq, h.sources i (Nat.lt_of_lt_of_le hi hc₁.fits)]
  refine origin_lt (fun copy hmem => ?_) hi
  exact (h.slots copy (List.mem_reverse.mp hmem)).1

theorem Noted.settles (h : Noted c₁ copies c) (hc₁ : c₁.HybridStates) :
    ∃ copied, c.settleCopies = some copied := by
  unfold settleCopies
  split
  · unfold applyCopies
    have hplain : c.recurrent = true → ∀ i < c.size, c.copySources i < c.size := by
      intro hr
      rw [h.kind.recurrent, hc₁.plain] at hr
      cases hr
    rw [if_pos ⟨h.applicable hc₁, hplain⟩]
    exact ⟨_, rfl⟩
  · exact ⟨c, rfl⟩

theorem Noted.states_settled (h : Noted c₁ copies c) (hc₁ : c₁.HybridStates) {copied : Cache}
    (hcopied : c.settleCopies = some copied) {layer : Nat} {t : Tensor}
    (ht : c₁.s[layer]? = some (some t)) :
    ∃ t', copied.s[layer]? = some (some t') ∧ t'.nb1 = t.nb1 ∧ t'.ne1 = t.ne1 ∧
      ∀ slot < c₁.qnextStateSlots, t'.row t.nb1 slot = t.row t.nb1 (origin copies.reverse slot) := by
  have hne1 := hc₁.layers t (List.mem_of_getElem? ht)
  rw [← h.states] at ht
  unfold settleCopies at hcopied
  split at hcopied
  · unfold applyCopies at hcopied
    split at hcopied
    · cases hcopied
      refine ⟨t.gatherRows t.nb1 c.copySources, ?_, rfl, rfl, fun slot hslot => ?_⟩
      · rw [List.getElem?_map, ht]
        rfl
      · rw [row_gatherRows t _ (hne1 ▸ hslot), copySources_eq,
          h.sources slot (Nat.lt_of_lt_of_le hslot hc₁.fits)]
    · cases hcopied
  next hnone =>
  cases hcopied
  -- nothing was pending, so no copy was asked for
  have hempty : copies = [] := by
    by_contra hne
    refine hnone ?_
    rw [h.pending hne, h.kind.hasQnextState, hc₁.stored, Bool.or_true]
    rfl
  subst hempty
  exact ⟨t, ht, rfl, rfl, fun _ _ => rfl⟩

/-- **The copies asked for since the last application are carried out**: a slot receives the state
of the last copy's source, resolved through the copies before; others keep theirs. -/
theorem pending_copies_are_carried_out {env : Env} {c₂ : Cache}
    {evs : List (Event Cache (Call × Reply))} (hc₁ : c₁.HybridStates) (hsettled : c₁.Settled)
    (hrun : Trace (Step env) c₁ evs c₂) (hbetween : ∀ ev ∈ evs, ev.before.Between ev.label.1)
    (hkeeps : ∀ ev ∈ evs, ev.before.KeepsCopies ev.label.1) :
    (∃ copied, c₂.settleCopies = some copied) ∧
    ∀ g c₃, c₂.update g = some (c₃, 0) → ∀ (layer : Nat) (t : Tensor),
      c₁.s[layer]? = some (some t) →
      ∃ t' : Tensor, c₃.s[layer]? = some (some t') ∧ t'.nb1 = t.nb1 ∧ t'.ne1 = t.ne1 ∧
        ∀ slot < c₁.qnextStateSlots,
          t'.row t.nb1 slot = t.row t.nb1 (origin (copiesOf evs).reverse slot) := by
  have hnoted := Noted.run hc₁ hsettled hrun hbetween hkeeps
  refine ⟨hnoted.settles hc₁, fun g c₃ hupdate layer t ht => ?_⟩
  rcases update_cases hupdate with
    ⟨-, hfailed⟩ | ⟨shifted, copied, hshift, hframe, hcopied, hdefrag, -⟩
  · cases hfailed
  · have hshifted := hnoted.same hframe.toSameKind (sameStates_shifted hshift)
    obtain ⟨t', ht', hshape⟩ := hshifted.states_settled hc₁ hcopied ht
    refine ⟨t', ?_, hshape⟩
    rw [(sameStates_settleDefrag hdefrag).states]
    exact ht'

/-- A cache in which row 0 holds a token of sequence 0 and row 1 one of sequence 2. -/
def twoTokens : Cache :=
  { eightRows with
    used := 2
    cells := { pos := 0, order := 0, src := 0, seqId := {0} } ::
      { pos := 0, order := 0, src := 1, seqId := {2} } ::
      (List.range 6).map fun i => { src := i + 2 } }

theorem twoTokens_hybridStates : twoTokens.HybridStates where
  plain := rfl
  hybrid := rfl
  stored := by decide
  fits := by decide
  layers t ht := by
    obtain rfl := some.inj (List.mem_singleton.mp ht)
    rfl

/-- Two copies in a row lead back to the first slot. -/
theorem pending_copies_are_carried_out_in_a_chain :
    ∃ evs c₂ c₃, Trace (Step threeSequences) twoTokens evs c₂ ∧
      c₂.update stillGraphs = some (c₃, 0) ∧ copiesOf evs = [(0, 1), (1, 2)] ∧
      ∃ t : Tensor, c₃.s[0]? = some (some t) ∧ t.row 4 2 = [0, 1, 2, 3] := by
  have hruns : (execute (call threeSequences) twoTokens
      [.seqCp 0 1 0 (-1) none, .seqCp 1 2 0 (-1) none, .seqRm 0 0 (-1)]).any (fun r =>
        r.1.all (fun ev => decide (ev.before.Between ev.label.1)) &&
        r.1.all (fun ev => decide (ev.before.KeepsCopies ev.label.1)) &&
        decide (copiesOf r.1 = [(0, 1), (1, 2)]) &&
        (r.2.update stillGraphs).any fun r' => decide (r'.2 = 0)) = true := by decide +kernel
  obtain ⟨⟨evs, c₂⟩, hrun, hok⟩ := (any_eq_true _ _).mp hruns
  simp only [Bool.and_eq_true, decide_eq_true_eq, List.all_eq_true] at hok
  obtain ⟨⟨⟨hbetween, hkeeps⟩, hcopies⟩, hupdate⟩ := hok
  obtain ⟨⟨c₃, status⟩, hupdate, hstatus⟩ := (any_eq_true _ _).mp hupdate
  simp only [decide_eq_true_eq] at hstatus
  subst hstatus
  have hmain := (pending_copies_are_carried_out twoTokens_hybridStates (by decide +kernel)
    (execute_trace hrun) hbetween hkeeps).2 stillGraphs c₃ hupdate 0 _ rfl
  obtain ⟨t, ht, -, -, hrows⟩ := hmain
  refine ⟨evs, c₂, c₃, execute_trace hrun, hupdate, hcopies, t, ht, ?_⟩
  have hrow := hrows 2 (by decide)
  rw [hcopies] at hrow
  exact hrow.trans (by decide)

/-- The token of sequence 2 lies in row 1. Removing it cancels the copy into slot 1. -/
theorem removal_cancels_a_pending_copy :
    ∃ evs c₂ c₃, twoTokens.HybridStates ∧ twoTokens.Settled ∧
      Trace (Step threeSequences) twoTokens evs c₂ ∧
      (∀ ev ∈ evs, ev.before.Between ev.label.1) ∧ c₂.update stillGraphs = some (c₃, 0) ∧
      copiesOf evs = [(0, 1)] ∧
      ∃ t : Tensor, c₃.s[0]? = some (some t) ∧ t.row 4 1 = [4, 5, 6, 7] := by
  have hruns : (execute (call threeSequences) twoTokens
      [.seqCp 0 1 0 (-1) none, .seqRm 2 0 (-1)]).any (fun r =>
        r.1.all (fun ev => decide (ev.before.Between ev.label.1)) &&
        decide (copiesOf r.1 = [(0, 1)]) &&
        (r.2.update stillGraphs).any fun r' => decide (r'.2 = 0) &&
          (r'.1.s[0]?).any fun t => t.any fun t => decide (t.row 4 1 = [4, 5, 6, 7])) = true := by
    decide +kernel
  obtain ⟨⟨evs, c₂⟩, hrun, hok⟩ := (any_eq_true _ _).mp hruns
  simp only [Bool.and_eq_true, decide_eq_true_eq, List.all_eq_true] at hok
  obtain ⟨⟨hbetween, hcopies⟩, hupdate⟩ := hok
  obtain ⟨⟨c₃, status⟩, hupdate, hstate⟩ := (any_eq_true _ _).mp hupdate
  simp only [Bool.and_eq_true, decide_eq_true_eq] at hstate
  obtain ⟨rfl, hlayer⟩ := hstate
  obtain ⟨layer, hlayer, hrow⟩ := (any_eq_true _ _).mp hlayer
  obtain ⟨t, rfl, hrow⟩ := (any_eq_true _ _).mp hrow
  exact ⟨evs, c₂, c₃, twoTokens_hybridStates, by decide +kernel, execute_trace hrun, hbetween,
    hupdate, hcopies, t, hlayer, of_decide_eq_true hrow⟩

end Cache

end ExpertStreaming.KvCache
