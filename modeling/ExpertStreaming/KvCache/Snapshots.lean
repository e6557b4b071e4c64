import ExpertStreaming.KvCache.Retained

/-! # What a snapshot counts on

Besides the cells, a snapshot counts on recurrent layers that keep their shape, so that a row can
be written where it was read, and on the history of its sequence below the position it was made
at.
-/
namespace ExpertStreaming.KvCache
open Lib List Option

namespace Cache

variable {c c' c'' : Cache}

/-! ## Rows -/

theorem row_write_self (t : Tensor) {slot data} (h : data.length = t.nb1) :
    Tensor.row { t with bytes := t.bytes.write (slot * t.nb1) data } t.nb1 slot = data := by
  unfold Tensor.row
  rw [← h]
  exact Memory.read_write_self _ _ _

theorem row_write_ne (t : Tensor) {slot other data} (h : data.length = t.nb1) (hne : other ≠ slot) :
    Tensor.row { t with bytes := t.bytes.write (slot * t.nb1) data } t.nb1 other =
      t.row t.nb1 other := by
  unfold Tensor.row
  refine Memory.read_write_apart _ ?_
  rcases Nat.lt_or_gt_of_ne hne with hlt | hgt
  · left
    have := Nat.mul_le_mul_right t.nb1 hlt
    rw [Nat.succ_mul] at this
    simpa [Region.stop] using this
  · right
    have := Nat.mul_le_mul_right t.nb1 hgt
    rw [Nat.succ_mul] at this
    simpa [Region.stop, h] using this

theorem length_stateRow {c₀ : Cache} (h : c.stateShapes = c₀.stateShapes) (slot : Nat)
    {layer : Nat} {t : Tensor} (ht : c.s[layer]? = some (some t)) :
    ∃ data, (c₀.stateRows slot)[layer]? = some (some data) ∧ data.length = t.nb1 := by
  have hshape : (c.stateShapes)[layer]? = some (some (t.type, t.ne0, t.ne1)) := by
    rw [stateShapes, getElem?_map, ht]
    rfl
  rw [h, stateShapes, getElem?_map, map_eq_some_iff] at hshape
  obtain ⟨tensor, htensor, hsame⟩ := hshape
  obtain ⟨t₀, rfl, hsame⟩ := map_eq_some_iff.mp hsame
  obtain ⟨htype, hne0, -⟩ : t₀.type = t.type ∧ t₀.ne0 = t.ne0 ∧ t₀.ne1 = t.ne1 := by
    simpa using hsame
  refine ⟨t₀.row t₀.nb1 slot, by rw [stateRows, getElem?_map, htensor]; rfl, ?_⟩
  unfold Tensor.row Tensor.nb1
  rw [Memory.length_read, htype, hne0]

theorem getElem?_stateRows_write (slot other layer : Nat)
    (rows : List (Option (List UInt8))) :
    ((c.writeStateRows slot rows).stateRows other)[layer]? = c.s[layer]?.map (Option.map fun t =>
      Tensor.row { t with bytes := t.bytes.write (slot * t.nb1) ((rows.getD layer none).getD []) }
        t.nb1 other) := by
  unfold stateRows writeStateRows mapBytes
  simp only [getElem?_map, getElem?_mapIdx, Option.map_map]
  cases c.s[layer]? with
  | none => rfl
  | some tensor => cases tensor <;> rfl

/-- **A row that is written back is there again.** -/
theorem stateRows_write_self {c₀ : Cache} (h : c.stateShapes = c₀.stateShapes) (slot : Nat) :
    (c.writeStateRows slot (c₀.stateRows slot)).stateRows slot = c₀.stateRows slot := by
  have hlength : c.s.length = c₀.s.length := by
    simpa [stateShapes] using congrArg length h
  refine ext_getElem? fun layer => ?_
  rw [getElem?_stateRows_write]
  cases hlayer : c.s[layer]? with
  | none =>
    have : (c₀.stateRows slot).length ≤ layer := by
      rw [stateRows, length_map, ← hlength]
      exact getElem?_eq_none_iff.mp hlayer
    rw [getElem?_eq_none this]
    rfl
  | some tensor =>
    cases tensor with
    | none =>
      have hshape : (c₀.stateShapes)[layer]? = some none := by
        rw [← h, stateShapes, getElem?_map, hlayer]
        rfl
      rw [stateShapes, getElem?_map, map_eq_some_iff] at hshape
      obtain ⟨tensor, htensor, hnone⟩ := hshape
      obtain rfl := map_eq_none_iff.mp hnone
      rw [stateRows, getElem?_map, htensor]
      rfl
    | some t =>
      obtain ⟨data, hdata, hlen⟩ := length_stateRow h slot hlayer
      rw [hdata, getD_eq_getElem?_getD, hdata]
      exact congrArg (fun row => some (some row)) (row_write_self t hlen)

/-- **The other rows are left alone.** -/
theorem stateRows_write_ne {c₀ : Cache} (h : c.stateShapes = c₀.stateShapes) {slot other : Nat}
    (hne : other ≠ slot) :
    (c.writeStateRows slot (c₀.stateRows slot)).stateRows other = c.stateRows other := by
  refine ext_getElem? fun layer => ?_
  have hold : (c.stateRows other)[layer]? = c.s[layer]?.map (Option.map fun t =>
      t.row t.nb1 other) := getElem?_map
  rw [getElem?_stateRows_write, hold]
  cases hlayer : c.s[layer]? with
  | none => rfl
  | some tensor =>
    cases tensor with
    | none => rfl
    | some t =>
      obtain ⟨data, hdata, hlen⟩ := length_stateRow h slot hlayer
      rw [getD_eq_getElem?_getD, hdata]
      exact congrArg (fun row => some (some row)) (row_write_ne t hlen hne)

end Cache

/-! ## Histories -/

namespace History

variable {h h' h'' : History} {seq bound : Int}

/-- **The entries of a sequence below a bound are as before.** -/
structure Retains (seq bound : Int) (h h' : History) : Prop where
  entries : ∀ order, (h'.lookup seq order).filter (fun entry => decide (entry.1 < bound)) =
    (h.lookup seq order).filter fun entry => decide (entry.1 < bound)

/-- **Entries have orders and positions that can be restored.** -/
structure Valid (h : History) : Prop where
  entries : ∀ {seq order : Int} {entry : Int × Nat}, h.lookup seq order = some entry →
    0 ≤ order ∧ order ≠ orderMax ∧ 0 ≤ entry.1

namespace Retains

theorem refl (h : History) : Retains seq bound h h := ⟨fun _ => rfl⟩

theorem trans (hr : Retains seq bound h h') (hr' : Retains seq bound h' h'') :
    Retains seq bound h h'' := ⟨fun order => (hr'.entries order).trans (hr.entries order)⟩

theorem of_entries {f} (hlookup : ∀ order, h'.lookup seq order = (h.lookup seq order).bind f)
    (hf : ∀ order entry, h.lookup seq order = some entry → f entry = some entry ∨
      (bound ≤ entry.1 ∧ ∀ entry' ∈ f entry, bound ≤ entry'.1)) : Retains seq bound h h' := by
  refine ⟨fun order => ?_⟩
  rw [hlookup]
  cases hentry : h.lookup seq order with
  | none => rfl
  | some entry =>
    rw [bind_some]
    rcases hf order entry hentry with hsame | ⟨hold, hnew⟩
    · rw [hsame]
    · rw [filter_some, if_neg (by simpa using hold)]
      cases hf' : f entry with
      | none => rfl
      | some entry' =>
        rw [filter_some, if_neg (by simpa using hnew entry' hf')]

end Retains

theorem lowest_ge (p0 : Int) : p0 ≤ lowest p0 := by
  unfold lowest
  split <;> omega

theorem lowest_nonneg (p0 : Int) : 0 ≤ lowest p0 := by
  unfold lowest
  split <;> omega

variable {q p0 p1 : Int}

theorem retains_remove (hq : (0 ≤ q ∧ q ≠ seq) ∨ bound ≤ p0 ∨ p1 = 0) :
    Retains seq bound h (h.remove q p0 p1) := by
  rcases hq with ⟨hnonneg, hne⟩ | hbehind
  · refine ⟨fun order => ?_⟩
    rw [lookup_remove, if_neg]
    rintro (hneg | rfl)
    · exact absurd hneg (Int.not_lt.mpr hnonneg)
    · exact hne rfl
  · by_cases hconcerns : Concerns q seq
    · refine .of_entries (fun order => (lookup_remove ..).trans (if_pos hconcerns))
        fun order entry _ => ?_
      split
      next hin =>
        refine .inr ⟨?_, nofun⟩
        rcases hbehind with hp0 | rfl
        · exact Int.le_trans hp0 (Int.le_trans (lowest_ge p0) hin.1)
        · exact absurd (Int.lt_of_le_of_lt (Int.le_trans (lowest_nonneg p0) hin.1) hin.2)
            (by decide)
      · exact .inl rfl
    · refine ⟨fun order => ?_⟩
      rw [lookup_remove, if_neg hconcerns]

theorem retains_keep : Retains seq bound h (h.keep seq) := by
  refine ⟨fun order => ?_⟩
  rw [lookup_keep, if_pos rfl]

theorem retains_copy {src dst} (hdst : dst ≠ seq) (hok : h.copy src dst p0 p1 = .ok h') :
    Retains seq bound h h' := by
  refine ⟨fun order => ?_⟩
  rw [lookup_copy hok, if_neg (Ne.symm hdst)]

/-- **A change of positions that a sequence does not notice below a bound.** -/
def MovesBehind (h : History) (q p0 p1 : Int) (next : Int → Option Int) (seq bound : Int) :
    Prop :=
  Concerns q seq → ∀ entry ∈ (h.tokens seq).values, Within p0 p1 entry.1 →
    bound ≤ entry.1 ∧ ∀ pos ∈ next entry.1, bound ≤ pos

instance (h : History) (q p0 p1 : Int) (next : Int → Option Int) (seq bound : Int) :
    Decidable (h.MovesBehind q p0 p1 next seq bound) :=
  inferInstanceAs (Decidable (_ → ∀ entry ∈ _, _))

theorem mem_tokens {order entry} (hentry : h.lookup seq order = some entry) :
    entry ∈ (h.tokens seq).values := by
  refine OrdMap.mem_values.mpr ⟨order, ?_⟩
  rw [tokens, lookup_getD]
  exact hentry

theorem retains_add {delta} (hvalid : h.Valid)
    (hmoves : h.MovesBehind q p0 p1 (Cache.shifted delta) seq bound)
    (hok : h.add q p0 p1 delta = .ok h') : Retains seq bound h h' := by
  refine .of_entries (lookup_add hok (fun hentry => (hvalid.entries hentry).2.2) seq)
    fun order entry hentry => ?_
  split
  next hmoved =>
    obtain ⟨hold, hnew⟩ := hmoves hmoved.1 entry (mem_tokens hentry) hmoved.2
    refine .inr ⟨hold, fun entry' hentry' => ?_⟩
    split at hentry'
    · cases hentry'
    next hnonneg =>
      cases hentry'
      exact hnew _ (by simp [Cache.shifted, hnonneg])
  · exact .inl rfl

theorem retains_divide {d} (hmoves : h.MovesBehind q p0 p1 (Cache.divided d) seq bound)
    (hok : h.divide q p0 p1 d = .ok h') : Retains seq bound h h' := by
  have hlookup : ∀ order, h'.lookup seq order = (h.lookup seq order).bind fun entry => some
      (if Concerns q seq ∧ Within p0 p1 entry.1 then (entry.1.tdiv d, entry.2) else entry) := by
    intro order
    rw [lookup_divide hok, map_eq_bind]
    rfl
  refine .of_entries hlookup fun order entry hentry => ?_
  split
  next hmoved =>
    obtain ⟨hold, hnew⟩ := hmoves hmoved.1 entry (mem_tokens hentry) hmoved.2
    exact .inr ⟨hold, fun entry' hentry' => by cases hentry'; exact hnew _ rfl⟩
  · exact .inl rfl

theorem lookup_accept {pos token} (hvalid : h.Valid) (hok : h.accept q pos token = .ok h') :
    0 ≤ pos ∧ ∃ order, 0 ≤ order ∧ order ≠ orderMax ∧ h.lookup q order = none ∧
      ∀ seq o, h'.lookup seq o =
        if seq = q ∧ o = order then some (pos, token) else h.lookup seq o := by
  have hput : ∀ order seq o,
      (h.put q ((h.sequences.find? q).getD {}) order pos token).lookup seq o =
        if seq = q ∧ o = order then some (pos, token) else h.lookup seq o := by
    intro order seq o
    unfold put
    rw [lookup_insert]
    by_cases hq : seq = q
    · subst hq
      rw [if_pos rfl, OrdMap.find?_insert]
      by_cases ho : o = order
      · simp [ho]
      · rw [if_neg ho, if_neg fun hboth => ho hboth.2, lookup_getD]
    · rw [if_neg hq, if_neg fun hboth => hq hboth.1]
  unfold accept at hok
  split at hok
  · cases hok
  next hposition =>
  rw [not_or, Int.not_lt] at hposition
  refine ⟨hposition.1, ?_⟩
  dsimp only at hok
  split at hok
  · cases hok
  split at hok
  next hnone =>
    cases hok
    have hempty := OrdMap.last?_eq_none hnone pos
    rw [lookup_getD] at hempty
    exact ⟨pos, hposition.1, hposition.2, hempty, hput pos⟩
  next last hlast =>
  split at hok
  · cases hok
  next hroom =>
  cases hok
  obtain ⟨hfind, hmax⟩ := OrdMap.last?_eq_some hlast
  rw [lookup_getD] at hfind
  obtain ⟨hnonneg, -, -⟩ := hvalid.entries hfind
  refine ⟨last.1 + 1, by omega, by omega, ?_, hput _⟩
  cases hnext : h.lookup q (last.1 + 1) with
  | none => rfl
  | some entry =>
    rw [← lookup_getD] at hnext
    have := hmax _ _ hnext
    omega

/-! ## Histories that can be restored -/

theorem valid_empty : ({} : History).Valid := ⟨nofun⟩

namespace Valid

theorem of_entries (hvalid : h.Valid)
    (hold : ∀ {seq order : Int} {entry' : Int × Nat}, h'.lookup seq order = some entry' →
      ∃ q entry, h.lookup q order = some entry ∧ (0 ≤ entry.1 → 0 ≤ entry'.1)) : h'.Valid := by
  refine ⟨fun hentry => ?_⟩
  obtain ⟨q, entry, hlookup, hpos⟩ := hold hentry
  obtain ⟨horder, hmax, hnonneg⟩ := hvalid.entries hlookup
  exact ⟨horder, hmax, hpos hnonneg⟩

theorem remove (hvalid : h.Valid) (q p0 p1 : Int) : (h.remove q p0 p1).Valid := by
  refine hvalid.of_entries fun {seq order entry'} hentry => ?_
  rw [lookup_remove] at hentry
  split at hentry
  · obtain ⟨entry, hlookup, hkept⟩ := bind_eq_some_iff.mp hentry
    split at hkept
    · cases hkept
    · cases hkept
      exact ⟨seq, _, hlookup, id⟩
  · exact ⟨seq, _, hentry, id⟩

theorem keep (hvalid : h.Valid) (q : Int) : (h.keep q).Valid := by
  refine hvalid.of_entries fun {seq order entry'} hentry => ?_
  rw [lookup_keep] at hentry
  split at hentry
  · exact ⟨seq, _, hentry, id⟩
  · cases hentry

theorem copy {src dst p0 p1} (hvalid : h.Valid) (hok : h.copy src dst p0 p1 = .ok h') :
    h'.Valid := by
  refine hvalid.of_entries fun {seq order entry'} hentry => ?_
  rw [lookup_copy hok] at hentry
  split at hentry
  · rcases or_eq_some_iff.mp hentry with hcopied | ⟨-, hown⟩
    · exact ⟨src, _, (filter_eq_some_iff.mp hcopied).1, id⟩
    · exact ⟨dst, _, hown, id⟩
  · exact ⟨seq, _, hentry, id⟩

theorem add {q p0 p1 delta} (hvalid : h.Valid) (hok : h.add q p0 p1 delta = .ok h') :
    h'.Valid := by
  refine hvalid.of_entries fun {seq order entry'} hentry => ?_
  rw [lookup_add hok fun hentry => (hvalid.entries hentry).2.2] at hentry
  obtain ⟨entry, hlookup, hmoved⟩ := bind_eq_some_iff.mp hentry
  refine ⟨seq, entry, hlookup, fun hpos => ?_⟩
  split at hmoved
  · split at hmoved
    · cases hmoved
    next hnonneg =>
      cases hmoved
      exact Int.not_lt.mp hnonneg
  · cases hmoved
    exact hpos

theorem divide {q p0 p1 d} (hvalid : h.Valid) (hd : 0 < d) (hok : h.divide q p0 p1 d = .ok h') :
    h'.Valid := by
  refine hvalid.of_entries fun {seq order entry'} hentry => ?_
  rw [lookup_divide hok, map_eq_some_iff] at hentry
  obtain ⟨entry, hlookup, rfl⟩ := hentry
  refine ⟨seq, entry, hlookup, fun hpos => ?_⟩
  split
  · exact Int.tdiv_nonneg hpos (Int.le_of_lt hd)
  · exact hpos

theorem accept {q pos token} (hvalid : h.Valid) (hok : h.accept q pos token = .ok h') :
    h'.Valid := by
  obtain ⟨hpos, order, hnonneg, hmax, -, hlookup⟩ := lookup_accept hvalid hok
  refine ⟨fun {seq o entry} hentry => ?_⟩
  rw [hlookup] at hentry
  split at hentry
  next hnew =>
    cases hentry
    exact ⟨hnew.2 ▸ hnonneg, hnew.2 ▸ hmax, hpos⟩
  · exact hvalid.entries hentry

end Valid

theorem retains_accept {pos token} (hvalid : h.Valid) (hbehind : seq = q → bound ≤ pos)
    (hok : h.accept q pos token = .ok h') :
    Retains seq bound h h' := by
  obtain ⟨-, order, -, -, hfresh, hlookup⟩ := lookup_accept hvalid hok
  refine ⟨fun o => ?_⟩
  rw [hlookup]
  split
  next hnew =>
    rw [hnew.1, hnew.2, hfresh, filter_some,
      if_neg (by simpa using hbehind hnew.1)]
    rfl
  · rfl

theorem lookup_restore {tokens refused} (hok : h.restore q tokens refused = some h')
    (seq order : Int) :
    h'.lookup seq order = if seq = q then tokens.find? order else h.lookup seq order := by
  have herase : lookup { sequences := h.sequences.erase q } seq order =
      if seq = q then none else h.lookup seq order := by
    unfold lookup
    rw [OrdMap.find?_erase]
    split <;> rfl
  unfold restore at hok
  split at hok
  · cases hok
  split at hok
  next hempty =>
    cases hok
    rw [herase, OrdMap.isEmpty_iff.mp hempty]
  split at hok
  · cases hok
  · cases hok
    rw [show (⟨(h.sequences.erase q).insert q (Stream.rebuild tokens)⟩ : History).lookup seq order =
      _ from lookup_insert ⟨h.sequences.erase q⟩ q seq order _]
    split
    · rfl
    next hne => rw [herase, if_neg hne]

theorem restore_tokens (hvalid : h.Valid) (h₁ : History) (seq : Int) :
    ∃ h', h₁.restore seq (h.tokens seq) false = some h' := by
  unfold restore
  rw [if_neg (by decide)]
  split
  · exact ⟨_, rfl⟩
  rw [if_neg]
  · exact ⟨_, rfl⟩
  · intro hany
    obtain ⟨⟨order, entry⟩, hmem, hbad⟩ := any_eq_true.mp hany
    have hlookup : h.lookup seq order = some entry := by
      rw [← lookup_getD]
      exact OrdMap.find?_eq_some.mpr hmem
    obtain ⟨hnonneg, hmax, hpos⟩ := hvalid.entries hlookup
    simp only [decide_eq_true_eq] at hbad
    omega

end History

/-! ## Calls of a Qwen context -/

namespace Qwen

theorem acceptBatch_retains {h h' batch} (hvalid : h.Valid) (hok : acceptBatch h batch = .ok h') :
    h'.Valid ∧ ∀ seq bound, (∀ token ∈ batch, seq ∈ token.seqs → bound ≤ token.pos) →
      History.Retains seq bound h h' := by
  induction batch generalizing h with
  | nil =>
    cases hok
    exact ⟨hvalid, fun _ _ _ => .refl _⟩
  | cons token rest ih =>
    unfold acceptBatch at hok
    split at hok
    · cases hok
    next hone =>
    split at hok
    · cases hok
    next next haccept =>
    obtain ⟨hrest, hretains⟩ := ih (hvalid.accept haccept) hok
    refine ⟨hrest, fun seq bound hbehind => ?_⟩
    refine (History.retains_accept hvalid (fun heq => ?_) haccept).trans
      (hretains seq bound fun token hmem => hbehind token (mem_cons_of_mem _ hmem))
    obtain ⟨own, hown⟩ := length_eq_one_iff.mp (not_not.mp hone)
    refine hbehind token (by simp) ?_
    rw [heq, hown]
    exact mem_cons_self

end Qwen

end ExpertStreaming.KvCache
