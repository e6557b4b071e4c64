import ExpertStreaming.Transient.Invariant

/-! # Room on the devices

The resident modules fit their devices, and so do those that undoing the open change
would leave. The checks of the code carry the first half; the second is kept by every step
but one, a registration during an epoch, which has to leave room for undoing it.
-/
namespace ExpertStreaming.Transient

open Lib Planner Transient.Core

/-! ## All modules together -/

namespace Core

theorem totalBytes_update {c : Core} {f : String → Held → Held}
    (hf : ∀ id m, (f id m).desc = m.desc) : (c.update f).totalBytes = c.totalBytes := by
  unfold totalBytes update
  rw [OrdMap.sumBy_mapWithKey]
  simp only [hf]

variable (c : Core)

theorem totalBytes_lease (k : Nat) (entry : LeaseEntry) :
    (c.lease k entry).totalBytes = c.totalBytes := by
  unfold lease
  rw [totalBytes_update]
  · rfl
  · exact fun _ _ => rfl

theorem totalBytes_retire (k : Nat) (entry : LeaseEntry) :
    (c.retire k entry).totalBytes = c.totalBytes := by
  unfold retire
  rw [totalBytes_update]
  · rfl
  · exact fun _ _ => rfl

theorem totalBytes_move (live : String → Option Owner)
    (resident : String → Bool → Bool) : (c.move live resident).totalBytes = c.totalBytes := by
  unfold move
  rw [totalBytes_update]
  · rfl
  · exact fun _ _ => rfl

theorem totalBytes_setFlags (live : String → Option Owner) (ts : List PolicyTransition)
    (enabled resident : PolicyTransition → Bool) :
    (c.setFlags live ts enabled resident).totalBytes = c.totalBytes := by
  unfold setFlags
  rw [totalBytes_update]
  · rfl
  · exact fun _ _ => rfl

end Core

theorem CoreStep.total_le {c c' op} (h : CoreStep c op c') :
    c.totalBytes ≤ c'.totalBytes := by
  cases h with
  | register desc owner _ fresh =>
    unfold totalBytes add
    rw [OrdMap.sumBy_insert _ _ fresh]
    exact Nat.le_add_left _ _
  | lease => exact Nat.le_of_eq (totalBytes_lease _ _ _).symm
  | join => exact Nat.le_of_eq (totalBytes_lease _ _ _).symm
  | opens _ _ _ _ evicted activated _ live =>
    rw [← c.totalBytes_move live (residentAfter evicted activated)]
    exact Nat.le_of_eq (totalBytes_lease _ _ _).symm
  | returned => exact Nat.le_of_eq (totalBytes_retire _ _ _).symm
  | left => exact Nat.le_of_eq (totalBytes_retire _ _ _).symm
  | commits => exact Nat.le_of_eq (totalBytes_retire _ _ _).symm
  | undoes k _ entry =>
    rw [← c.totalBytes_retire k entry]
    exact Nat.le_of_eq (totalBytes_move _ _ _).symm
  | publishes => exact Nat.le_of_eq (totalBytes_setFlags _ _ _ _ _).symm
  | rollsBack => exact Nat.le_of_eq (totalBytes_setFlags _ _ _ _ _).symm
  | quiet | prepares | finalizes | poisons | frees => exact Nat.le_refl _

/-! ## Room now and after undoing -/

/-- The resident modules fit, now and after undoing the open change. -/
structure Room (c : Core) : Prop where
  fits : c.view.Fits
  baseFits : c.Sane → c.base.Fits

/-- **A module registered as resident while an epoch is open also fits next to the
modules that undoing the epoch would bring back.** -/
def RegistersBeside (c : Core) (desc : ModuleDesc) : Prop :=
  c.epoch ≠ none → desc.initiallyResident = true →
    c.base.residentBytes desc.device + desc.bytes ≤ usableOf c.budgets desc.device

theorem View.residentBytes_insert {v v' : View} {id : String} {f : Facet}
    (hnew : v.modules.find? id = none) (hv' : v'.modules = v.modules.insert id f) (device : Int) :
    v'.residentBytes device = v.residentBytes device +
      if f.resident ∧ f.desc.device = device then f.desc.bytes else 0 := by
  unfold View.residentBytes
  rw [hv', OrdMap.sumBy_insert _ _ hnew]
  omega

theorem View.Fits.add {v : View} (h : v.Fits) {desc : ModuleDesc} (owner : Owner)
    (hnew : v.modules.find? desc.id = none)
    (hroom : desc.initiallyResident = true →
      v.residentBytes desc.device + desc.bytes ≤ usableOf v.budgets desc.device) :
    (v.add desc owner).Fits := by
  intro device
  have hbytes : (v.add desc owner).residentBytes device = _ :=
    View.residentBytes_insert hnew rfl device
  rw [hbytes]
  change _ ≤ usableOf v.budgets device
  split
  next hboth =>
    obtain ⟨hresident, rfl⟩ := hboth
    exact hroom hresident
  · exact h device

theorem Room.register_step {c : Core} (h : Room c) (hinv : Inv c) {desc : ModuleDesc}
    {owner : Owner} (hclosed : c.transaction = none) (hnew : c.modules.find? desc.id = none)
    (hfits : (c.add desc owner).view.residentBytes desc.device ≤ usableOf c.budgets desc.device)
    (hbeside : RegistersBeside c desc) : Room (c.add desc owner) := by
  have hsane : c.Sane := sane_of_closed hclosed
  have hview := c.view_add desc owner
  have hviewNew : c.view.modules.find? desc.id = none := by
    rw [view, OrdMap.find?_mapWithKey, hnew]
    rfl
  have hviewFits : (c.add desc owner).view.Fits := by
    rw [hview]
    refine h.fits.add owner hviewNew fun hresident => ?_
    have hbytes := View.residentBytes_insert hviewNew (congrArg View.modules hview) desc.device
    rw [if_pos ⟨hresident, rfl⟩] at hbytes
    exact Nat.le_trans (Nat.le_of_eq hbytes.symm) hfits
  refine ⟨hviewFits, fun _ => ?_⟩
  cases hepoch : c.epoch with
  | none =>
    rw [base_of_idle (c := c.add desc owner) hepoch hclosed]
    exact hviewFits
  | some e =>
    have hbase := base_of_epoch hepoch
    have hnewBase : c.base.modules.find? desc.id = none := by
      rw [hbase, View.undoEpoch, OrdMap.find?_mapWithKey, hviewNew]
      rfl
    have hbudgets : c.base.budgets = c.budgets := by
      rw [hbase]
      rfl
    rw [hinv.base_add hclosed hnew]
    refine (h.baseFits hsane).add owner hnewBase fun hresident => ?_
    rw [hbudgets]
    exact hbeside (by simp [hepoch]) hresident

theorem Room.of_views {c : Core} {v w : View} (hview : c.view = v) (hv : v.Fits)
    (hbase : c.base = w) (hw : w.Fits) : Room c :=
  ⟨hview ▸ hv, fun _ => hbase ▸ hw⟩

/-- **Every step leaves room** if all modules together fit a machine word and a
registration during an epoch leaves room for undoing it. -/
theorem Room.step {c c' op} (h : Room c) (hinv : Inv c) (hstep : CoreStep c op c')
    (htotal : c'.totalBytes ≤ u64Max)
    (hbeside : ∀ desc, op = .registerModule desc → RegistersBeside c desc) : Room c' := by
  have hbefore := Nat.le_trans hstep.total_le htotal
  cases hstep with
  | quiet => exact h
  | register desc owner closed fresh _ fits =>
    exact h.register_step hinv closed fresh (fits htotal) (hbeside desc rfl)
  | lease _ restorePrior k ids admitted =>
    have hfits := h.baseFits (sane_of_closed admitted.closed)
    exact .of_views (c.view_lease k _) h.fits (c.base_lease k _) hfits
  | join _ restorePrior k ids e admitted _ running =>
    have hfits := h.baseFits (sane_of_closed admitted.closed)
    have hview := c.view_lease k ⟨ids, restorePrior, some e.serial⟩
    exact .of_views hview h.fits (base_setEpoch running rfl hview) hfits
  | opens _ restorePrior k ids evicted activated e live admitted _ opened =>
    have hview := (c.move live (residentAfter evicted activated)).view_lease k
      ⟨ids, restorePrior, some e.serial⟩
    exact .of_views hview (opened.fits hbefore h.fits) (opened.base_eq k _) h.fits
  | returned k _ entry found =>
    have hfits := h.baseFits (sane_of_closed (hinv.closed_of_lease found))
    exact .of_views (c.view_retire k entry) h.fits (c.base_retire k entry) hfits
  | left k _ entry e found _ running =>
    have hfits := h.baseFits (sane_of_closed (hinv.closed_of_lease found))
    have hview := c.view_retire k entry
    exact .of_views hview h.fits (base_setEpoch running rfl hview) hfits
  | commits k _ entry e found =>
    have hview := c.view_retire k entry
    have hbase := base_of_idle (c := { c.retire k entry with epoch := none }) rfl
      (hinv.closed_of_lease found)
    exact .of_views hview h.fits (hbase.trans hview) h.fits
  | undoes k _ entry e found _ running =>
    have hclosed := hinv.closed_of_lease found
    have hfits := h.baseFits (sane_of_closed hclosed)
    rw [base_of_epoch running] at hfits
    have hview := c.view_undo k entry e.owners
    have hbase := base_of_idle (c := { (c.retire k entry).move
      (undoAll c.live e.owners.handles) e.owners.prior with epoch := none }) rfl hclosed
    exact .of_views hview hfits (hbase.trans hview) hfits
  | prepares _ t _ _ none_open drafted =>
    have hbase := base_setTransaction c t none_open
    rw [drafted.state] at hbase
    exact .of_views rfl h.fits hbase h.fits
  | publishes _ t ts live running sane state published =>
    have hdrafted := hinv.drafted t running sane state
    have hpub := published hdrafted.nodup
    have hfits := hdrafted.fits hinv.budgeted
    rw [← hpub.targets_eq] at hfits
    have hbase := base_published (hinv.exclusive t running).2 hdrafted hpub
    exact .of_views rfl hfits hbase h.fits
  | rollsBack _ t ts _ running sane state =>
    have hepoch := (hinv.exclusive t running).2
    have hfits := h.baseFits (sane_of_open running sane)
    rw [base_of_published hepoch running state] at hfits
    exact .of_views (c.view_rollback t _) hfits (base_rollback hepoch ts) hfits
  | finalizes _ t running =>
    have hbase := base_setTransaction c { t with state := .finalized }
      (hinv.exclusive t running).2
    exact .of_views rfl h.fits hbase h.fits
  | poisons _ t ts live _ running =>
    refine ⟨h.fits, fun hsane => ?_⟩
    cases hsane _ rfl
  | frees _ t running =>
    have hbase := base_of_idle (c := { c with transaction := none })
      (hinv.exclusive t running).2 rfl
    exact .of_views rfl h.fits hbase h.fits

end ExpertStreaming.Transient
