import ExpertStreaming.Transient.Grant

/-! # What an unfinished policy change leaves behind

From its preparation until it is freed a policy transaction blocks every acquisition.
Unless it is finalized, everything it did can be undone: a publication that fails and says
that it restored the owners, a rollback, and freeing it without finalization all leave the
flags, the budgets, the policy and the owners as they were before it was prepared.
-/
namespace ExpertStreaming.Transient

open Lib Planner Option

/-! ## Steps of the abstract machine -/

/-- An open transaction that is neither finalized nor poisoned can be undone to this view. -/
def Undoable (before : View) (c : Core) : Prop :=
  ∀ t, c.transaction = some t → t.poisoned = false → t.state ≠ .finalized → c.base = before

variable {before : View} {c c' : Core} {target : TransientPolicy} {s s' : Manager}
  {label : Call × Reply} {answers : Answers} {arg : Manager.TransactionArg}

theorem Undoable.step {op} (h : Undoable before c) (hinv : Inv c) (hopen : c.transaction ≠ none)
    (hstep : CoreStep c op c') :
    Undoable before c' := by
  obtain ⟨t, ht⟩ := ne_none_iff_exists'.mp hopen
  have hepoch := (hinv.exclusive t ht).2
  have hleases : ∀ k l, c.leases.find? k ≠ some l := fun k l hl =>
    hopen (hinv.closed_of_lease hl)
  cases hstep with
  | quiet => exact h
  | register _ _ closed => exact absurd closed hopen
  | lease _ _ _ _ admitted => exact absurd admitted.closed hopen
  | join _ _ _ _ _ admitted => exact absurd admitted.closed hopen
  | opens _ _ _ _ _ _ _ _ admitted => exact absurd admitted.closed hopen
  | returned k _ entry found => exact absurd found (hleases k entry)
  | left k _ entry _ found => exact absurd found (hleases k entry)
  | commits k _ entry _ found => exact absurd found (hleases k entry)
  | undoes k _ entry _ found => exact absurd found (hleases k entry)
  | prepares _ _ closed => exact absurd closed hopen
  | publishes _ t ts live running sane state published =>
    intro t' _ _ _
    have hdrafted := hinv.drafted t running sane state
    rw [base_published hepoch hdrafted (published hdrafted.nodup)]
    have hbase := h t running sane (by simp [state])
    rw [Core.base_of_unpublished hepoch running (by simp [state])]
      at hbase
    exact hbase
  | rollsBack _ t ts _ running sane state =>
    intro t' _ _ _
    rw [base_rollback hepoch, ← Core.base_of_published hepoch running state]
    exact h t running sane (by simp [state])
  | finalizes _ t running sane =>
    intro t' ht' _ hnot
    cases ht'
    exact absurd rfl hnot
  | poisons _ t ts live _ running =>
    intro t' ht' hsane
    cases ht'
    cases hsane
  | frees => exact fun t' ht' => nomatch ht'

theorem CoreStep.unfinalized {op} (h : CoreStep c op c') (hopen : c.transaction ≠ none)
    (hc : ∀ t, c.transaction = some t → t.state ≠ .finalized)
    (hop : ∀ arg, op ≠ .finalizePolicy arg) :
    ∀ t, c'.transaction = some t → t.state ≠ .finalized := by
  cases h with
  | prepares _ _ closed => exact absurd closed hopen
  | publishes =>
    intro t ht
    cases ht
    exact fun hne => nomatch hne
  | rollsBack =>
    intro t ht
    cases ht
    exact fun hne => nomatch hne
  | finalizes arg => exact absurd rfl (hop arg)
  | poisons _ t _ _ _ running =>
    intro t' ht'
    cases ht'
    exact hc t running
  | frees => exact fun t ht => nomatch ht
  | quiet | register | lease | join | opens | returned | left | commits | undoes => exact hc

theorem CoreStep.closing {op} (h : CoreStep c op c') (hinv : Inv c) (hopen : c.transaction ≠ none)
    (hclosed : c'.transaction = none) :
    (∀ before, Undoable before c → (∀ t, c.transaction = some t → t.state ≠ .finalized) →
      c'.view = before) ∧ c'.leases.isEmpty = true ∧ c'.epoch = none := by
  have hsame : c'.transaction ≠ c.transaction := by
    rw [hclosed]
    exact hopen.symm
  cases h with
  | frees _ t running sane state =>
    obtain ⟨hidle, hepoch⟩ := hinv.exclusive t running
    refine ⟨fun before hundo hnot => ?_, hidle, hepoch⟩
    have hbase := hundo t running sane (hnot t running)
    rw [Core.base_of_unpublished hepoch running state] at hbase
    exact hbase
  | prepares => cases hclosed
  | publishes => cases hclosed
  | rollsBack => cases hclosed
  | finalizes => cases hclosed
  | poisons => cases hclosed
  | quiet | register | lease | join | opens | returned | left | commits | undoes =>
    exact absurd rfl hsame

theorem CoreStep.preparing (h : CoreStep c (.preparePolicy target) c')
    (hclosed : c.transaction = none) (hopen : c'.transaction ≠ none) :
    Undoable c.view c' ∧ ∀ t, c'.transaction = some t → t.state ≠ .finalized := by
  cases h with
  | quiet => exact absurd hclosed hopen
  | prepares _ t _ _ none_open drafted =>
    have hbase : ({ c with transaction := some t } : Core).base = c.view := by
      rw [Core.base_setTransaction c t none_open, drafted.state]
      rfl
    refine ⟨fun _ _ _ _ => hbase, fun t' ht' => ?_⟩
    cases ht'
    rw [drafted.state]
    exact fun hne => nomatch hne
  | rollsBack _ _ _ policy => cases policy
  | poisons _ _ _ _ policy => cases policy

/-! ## Calls of the manager -/

/-- A property of open transactions that every step keeps is kept by every call. -/
theorem step_while_open {P : Core → Prop} (hinv : Inv s.core) (hopen : s.transaction ≠ none)
    (hstep : Step s label s') (hclosed : ∀ c, c.transaction = none → P c)
    (hkeep : ∀ c c', Inv c → c.transaction ≠ none → CoreStep c label.1.op c' → P c → P c')
    (h : P s.core) : P s'.core := by
  rcases step_refines hinv.ordered hstep with hone | ⟨arg, c, hop, hfirst, hsecond⟩
  · exact hkeep _ _ hinv hopen hone h
  · by_cases hc : c.transaction = none
    · rw [hsecond.free_of_closed hc]
      exact hclosed c hc
    · have hmiddle := hkeep _ _ hinv hopen (hop ▸ hfirst) h
      exact hkeep _ _ (hinv.step hfirst) hc (hop ▸ hsecond) hmiddle

theorem undoable_step (hinv : Inv s.core)
    (hopen : s.transaction ≠ none) (hstep : Step s label s') (h : Undoable before s.core) :
    Undoable before s'.core :=
  step_while_open hinv hopen hstep
    (fun c hc t ht => by rw [hc] at ht; cases ht)
    (fun _ _ hinv hopen hone h => h.step hinv hopen hone) h

theorem finalizePolicy_refused {reply} (h : s.finalizePolicy answers arg = (s', reply))
    (hreply : reply ≠ .accepted) (hs : ∀ t, s.transaction = some t → t.state ≠ .finalized) :
    ∀ t, s'.transaction = some t → t.state ≠ .finalized := by
  unfold Manager.finalizePolicy at h
  split at h
  · cases h
    exact hs
  next t hopen =>
  split at h
  · cases h
    intro t' ht'
    cases ht'
    exact hs t (openTransaction_spec hopen).2.1
  · cases h
    exact absurd rfl hreply

def Finalizes (ev : Event Manager (Call × Reply)) : Prop :=
  ev.label.2 = .accepted ∧ ∃ arg, ev.label.1.op = .finalizePolicy arg

theorem unfinalized_step (hinv : Inv s.core) (hopen : s.transaction ≠ none)
    (hstep : Step s label s') (hnot : ¬ Finalizes ⟨s, label, s'⟩)
    (h : ∀ t, s.transaction = some t → t.state ≠ .finalized) :
    ∀ t, s'.transaction = some t → t.state ≠ .finalized := by
  by_cases hop : ∃ arg, label.1.op = .finalizePolicy arg
  · obtain ⟨⟨op, answers⟩, reply⟩ := label
    obtain ⟨arg, rfl⟩ := hop
    exact finalizePolicy_refused (some.inj hstep) (fun haccepted => hnot
      ⟨haccepted, arg, rfl⟩) h
  · have hop : ∀ arg, label.1.op ≠ .finalizePolicy arg := fun arg heq => hop ⟨arg, heq⟩
    exact step_while_open (P := fun c => ∀ t, c.transaction = some t → t.state ≠ .finalized)
      hinv hopen hstep (fun c hc t ht => by rw [hc] at ht; cases ht)
      (fun _ _ _ hopen hone h => hone.unfinalized hopen h hop) h

/-- What is known of an open transaction from what has happened since its preparation. -/
structure Pending (before : View) (past : List (Event Manager (Call × Reply))) (s : Manager) :
    Prop where
  inv : Inv s.core
  running : s.transaction ≠ none
  undoable : Undoable before s.core
  unfinalized : (∀ ev ∈ past, ¬ Finalizes ev) → ∀ t, s.transaction = some t → t.state ≠ .finalized

theorem pending_step {past} (h : Pending before past s) (hstep : Step s label s')
    (hopen : s'.transaction ≠ none) : Pending before (past ++ [⟨s, label, s'⟩]) s' := by
  refine ⟨inv_step h.inv hstep, hopen, undoable_step h.inv h.running hstep h.undoable,
    fun hnone => ?_⟩
  refine unfinalized_step h.inv h.running hstep (hnone _ (by simp)) (h.unfinalized ?_)
  exact fun ev hev => hnone ev (List.mem_append_left _ hev)

theorem preparePolicy_accepted (h : s.preparePolicy answers target = (s', .accepted)) :
    s.transaction = none ∧ s'.transaction ≠ none := by
  unfold Manager.preparePolicy at h
  dsimp only at h
  split at h
  · cases h
  next hclosed =>
  split at h
  · cases h
  split at h
  · cases h
  · cases h
  split at h
  · cases h
  split at h
  · cases h
  split at h
  · cases h
  · cases h
    exact ⟨not_isSome_iff_eq_none.mp hclosed, fun hne => nomatch hne⟩

theorem pending_prepared
    (hinv : Inv s.core) (hstep : Step s (⟨.preparePolicy target, answers⟩, .accepted) s') :
    Pending s.core.view [] s' := by
  obtain ⟨hclosed, hopen⟩ := preparePolicy_accepted (some.inj hstep)
  have hcore := preparePolicy_steps s answers target
  rw [some.inj hstep] at hcore
  obtain ⟨hundoable, hstate⟩ := hcore.preparing hclosed hopen
  exact ⟨inv_step hinv hstep, hopen, hundoable, fun _ => hstate⟩

theorem publishPolicy_restored
    {id : String} (hordered : s.core.Ordered)
    (h : s.publishPolicy answers arg =
      (s', .refused ("failed to publish transient module residency: " ++ id))) :
    s'.core = s.core ∧ ∃ t, s.transaction = some t ∧ t.poisoned = false ∧ t.state = .prepared := by
  -- no other message of the call starts like this one
  have hother : ∀ message : String, message.toList.head? ≠ some 'f' →
      message ≠ "failed to publish transient module residency: " ++ id := by
    rintro message hhead rfl
    exact hhead (by simp)
  unfold Manager.publishPolicy at h
  split at h
  · exact absurd (Reply.refused.inj (congrArg Prod.snd h)) (hother _ (by decide))
  next t hopen =>
  obtain ⟨-, ht, hsane, hstate⟩ := openTransaction_spec hopen
  refine ⟨?_, t, ht, hsane, hstate⟩
  split at h
  · exact absurd (Reply.refused.inj (congrArg Prod.snd h)) (hother _ (by decide))
  split at h
  · exact absurd (Reply.refused.inj (congrArg Prod.snd h)) (hother _ (by decide))
  split at h
  next id' restored any s₁ modules hpub =>
    cases restored with
    | false =>
      exact absurd (Reply.refused.inj (congrArg Prod.snd h))
        (hother "transient policy publication could not restore prior owners" (by decide))
    | true =>
      rw [← congrArg (fun p => Manager.core p.1) h]
      exact core_restoredPublication hordered ht hsane hstate hpub
  · cases h

theorem freePolicy_closes {reply} (hinv : Inv s.core) (hopen : s.transaction ≠ none)
    (hstep : Step s (⟨.freePolicy arg, answers⟩, reply) s') (hfreed : s'.transaction = none) :
    (∀ before, Undoable before s.core → (∀ t, s.transaction = some t → t.state ≠ .finalized) →
      s'.core.view = before) ∧ s'.leases.isEmpty = true ∧ s'.epoch = none := by
  rcases step_refines hinv.ordered hstep with hone | ⟨arg', c, -, hfirst, hsecond⟩
  · exact hone.closing hinv hopen hfreed
  by_cases hc : c.transaction = none
  · have hclosing := hfirst.closing hinv hopen hc
    rw [← hsecond.free_of_closed hc] at hclosing
    exact hclosing
  · obtain ⟨hview, hidle, hepoch⟩ := hsecond.closing (hinv.step hfirst) hc hfreed
    refine ⟨fun before hundoable hnot => ?_, hidle, hepoch⟩
    exact hview before (hundoable.step hinv hopen hfirst)
      (hfirst.unfinalized hopen hnot fun _ hne => nomatch hne)

theorem acquire_blocked (h : s.transaction ≠ none) (answers : Answers)
    (requested : List String) (restorePrior : Bool) :
    s.acquire answers requested restorePrior = some (s.countTransaction.refuse
      "transient module acquisition is blocked by policy reconfiguration") := by
  have hblocked : s.countTransaction.admitRequest requested = .error (.plain
      "transient module acquisition is blocked by policy reconfiguration") := by
    unfold Manager.admitRequest
    exact if_pos (isSome_iff_ne_none.mpr h)
  unfold Manager.acquire
  dsimp only
  rw [hblocked]

/-- **A policy change that is not finalized is undone as a whole, and blocks the manager until it
is freed.** A publication that fails and says so, a rollback and freeing the transaction leave
flags, budgets, policy and owners as before the preparation; once it is freed, requests that fit
are granted. -/
theorem policy_is_undone (budgets : OrdMap Int DeviceBudget) (s₀ s₁ s₂ : Manager)
    (past during : List (Event Manager (Call × Reply))) (target : TransientPolicy)
    (answers : Answers) (hpast : Trace Step (Manager.start budgets) past s₀)
    (hprepare : Step s₀ (⟨.preparePolicy target, answers⟩, .accepted) s₁)
    (hduring : Trace Step s₁ during s₂) (hopen : ∀ ev ∈ during, ev.after.transaction ≠ none) :
    (∀ answers arg id s₃, Step s₂ (⟨.publishPolicy arg, answers⟩,
        .refused ("failed to publish transient module residency: " ++ id)) s₃ →
      s₃.core.view = s₀.core.view) ∧
    (∀ answers arg s₃, Step s₂ (⟨.rollbackPolicy arg, answers⟩, .accepted) s₃ →
      s₃.core.view = s₀.core.view) ∧
    (∀ answers arg reply s₃, Step s₂ (⟨.freePolicy arg, answers⟩, reply) s₃ →
      s₃.transaction = none → (∀ ev ∈ during, ¬ Finalizes ev) → s₃.core.view = s₀.core.view) ∧
    (∀ answers requested restorePrior reply s₃,
      Step s₂ (⟨.acquire requested restorePrior, answers⟩, reply) s₃ →
        reply = .refused "transient module acquisition is blocked by policy reconfiguration" ∧
        s₃.core = s₂.core) ∧
    (∀ answers arg reply s₃, Step s₂ (⟨.freePolicy arg, answers⟩, reply) s₃ →
      s₃.transaction = none → ∀ requested restorePrior, Grantable s₃ requested →
        ∃ s₄ k, Step s₃ (⟨.acquire requested restorePrior, {}⟩, .lease k) s₄) := by
  have hpending : Pending s₀.core.view ([] ++ during) s₂ :=
    hduring.history_of (fun _ _ _ _ hp hs hc => pending_step hp hs hc) hopen
      (pending_prepared (inv_of_run hpast) hprepare)
  obtain ⟨hinv, hrunning, hundoable, hunfinalized⟩ := hpending
  refine ⟨?_, ?_, ?_, ?_, ?_⟩
  · intro answers arg id s₃ hstep
    obtain ⟨hsame, t, ht, hsane, hstate⟩ :=
      publishPolicy_restored hinv.ordered (some.inj hstep)
    have hbase := hundoable t ht hsane (by simp [hstate])
    rw [Core.base_of_unpublished (hinv.exclusive t ht).2 ht
      (by simp [hstate])] at hbase
    rw [hsame, hbase]
  · intro answers arg s₃ hstep
    obtain ⟨t, ht, hsane, hstate⟩ :=
      rollbackPolicy_accepted (some.inj hstep) fun _ hne => nomatch hne
    have hundoable₃ := undoable_step hinv hrunning hstep hundoable
    have hbase := hundoable₃ t ht hsane (by simp [hstate])
    rw [Core.base_of_unpublished ((inv_step hinv hstep).exclusive t ht).2 ht
      (by simp [hstate])] at hbase
    exact hbase
  · intro answers arg reply s₃ hstep hfreed hnone
    exact (freePolicy_closes hinv hrunning hstep hfreed).1 _ hundoable (hunfinalized hnone)
  · intro answers requested restorePrior reply s₃ hstep
    have hblocked := (acquire_blocked hrunning answers requested restorePrior).symm.trans hstep
    cases hblocked
    exact ⟨rfl, rfl⟩
  · intro answers arg reply s₃ hstep hfreed requested restorePrior hgrantable
    obtain ⟨-, hidle, hepoch⟩ := freePolicy_closes hinv hrunning hstep hfreed
    exact acquire_granted (inv_step hinv hstep) hidle hepoch hfreed hgrantable restorePrior

/-- A policy that takes the draft module away is published and rolled back. -/
theorem published_policy_is_rolled_back :
    ∃ past during s₀ s₁ s₂ s₃, Trace Step (Manager.start tenBytes) past s₀ ∧
      Step s₀ (⟨.preparePolicy .multimodalOnly, {}⟩, .accepted) s₁ ∧ Trace Step s₁ during s₂ ∧
      Step s₂ (⟨.rollbackPolicy .own, {}⟩, .accepted) s₃ ∧ s₀.isResident "mtp" = true ∧
      s₂.isResident "mtp" = false ∧ s₃.core.view = s₀.core.view := by
  have hruns : (execute next (Manager.start tenBytes) (swapCalls.take 2)).any (fun r₀ =>
      (next r₀.2 ⟨.preparePolicy .multimodalOnly, {}⟩).any fun r₁ =>
        (execute next r₁.1 [⟨.publishPolicy .own, {}⟩]).any fun r₂ =>
          (next r₂.2 ⟨.rollbackPolicy .own, {}⟩).any fun r₃ =>
            decide (r₁.2 = .accepted) && decide (r₃.2 = .accepted) &&
            r₂.1.all (fun ev => ev.after.transaction.isSome) &&
            r₀.2.isResident "mtp" && !r₂.2.isResident "mtp") = true := by
    decide +kernel
  obtain ⟨⟨past, s₀⟩, hpast, hrest⟩ := (any_eq_true _ _).mp hruns
  obtain ⟨⟨s₁, reply₁⟩, hprepare, hrest⟩ := (any_eq_true _ _).mp hrest
  obtain ⟨⟨during, s₂⟩, hduring, hrest⟩ := (any_eq_true _ _).mp hrest
  obtain ⟨⟨s₃, reply₃⟩, hrollback, hok⟩ := (any_eq_true _ _).mp hrest
  simp only [Bool.and_eq_true, List.all_eq_true, decide_eq_true_eq, Bool.not_eq_true'] at hok
  obtain ⟨⟨⟨⟨rfl, rfl⟩, hopen⟩, h₀⟩, h₂⟩ := hok
  refine ⟨past, during, s₀, s₁, s₂, s₃, execute_trace hpast, hprepare, execute_trace hduring,
    hrollback, h₀, h₂, ?_⟩
  exact (policy_is_undone tenBytes s₀ s₁ s₂ past during .multimodalOnly {} (execute_trace hpast)
    hprepare (execute_trace hduring) fun ev hev =>
      isSome_iff_ne_none.mp (hopen ev hev)).2.1 {} .own s₃ hrollback

end ExpertStreaming.Transient
