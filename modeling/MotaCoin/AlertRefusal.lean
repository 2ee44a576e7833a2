import MotaCoin.AlertRuns

/-!
# What a refused alert does

`ProcessAlert` takes out what the incoming alert cancels, and only then asks whether one of the others
cancels the incoming one. An alert that is refused at that point has cancelled what it names.

## Main definitions

* `CAlert.CancelsOne`: the alert cancels one of those in effect
* `CAlert.CancelledByRest`: one that it does not cancel cancels it
* `CAlert.KeepsInEffect`: the alerts in effect stay

## Main results

* `CAlert.processAlert_refused_iff`: when the alerts in effect stay after a refusal
-/

namespace MotaCoin

namespace CAlert

variable {K : AlertKey} {m : MapAlerts} {c : AlertCall} {a : CAlert} {now : Int}

variable (now) in
/-- The alert cancels one that is in effect. -/
def CancelsOne (a : CAlert) (m : MapAlerts) : Prop :=
  ∃ h e, m.lookup h = some e ∧ e.isInEffect now = true ∧ a.cancels now e = true

variable (now) in
/-- The alert is cancelled by one that it does not cancel itself. -/
def CancelledByRest (a : CAlert) (m : MapAlerts) : Prop :=
  ∃ h e, m.lookup h = some e ∧ a.cancels now e = false ∧ e.cancels now a = true

variable (now) in
/-- What is in effect of the first alerts is among the second ones. -/
def KeepsInEffect (m m' : MapAlerts) : Prop :=
  ∀ h e, m.lookup h = some e → e.isInEffect now = true → m'.lookup h = some e

theorem KeepsInEffect.refl : KeepsInEffect now m m := fun _ _ h _ => h

/-- What the first loop leaves is all that is in effect when nothing of that is cancelled. -/
theorem keepsInEffect_cancelPrevious_iff :
    KeepsInEffect now m (a.cancelPrevious now m) ↔ ¬ CancelsOne now a m := by
  constructor
  · rintro hkeeps ⟨h, e, he, heff, hc⟩
    obtain ⟨-, hnot, -⟩ := lookup_cancelPrevious.mp (hkeeps h e he heff)
    rw [hc] at hnot
    cases hnot
  · intro hnone h e he heff
    refine lookup_cancelPrevious.mpr ⟨he, ?_, heff⟩
    exact Bool.eq_false_iff.mpr fun hc => hnone ⟨h, e, he, heff, hc⟩

/-- The test of `ProcessAlert` is for an alert that the first loop leaves. -/
theorem any_cancelPrevious_iff :
    ((a.cancelPrevious now m).entries.any fun e => e.2.cancels now a) = true ↔
      CancelledByRest now a m := by
  rw [any_cancels_iff]
  constructor
  · rintro ⟨h, e, he, hc⟩
    obtain ⟨hm, hnot, -⟩ := lookup_cancelPrevious.mp he
    exact ⟨h, e, hm, hnot, hc⟩
  · rintro ⟨h, e, hm, hnot, hc⟩
    -- an alert that cancels is in effect
    have heff : e.isInEffect now = true := by
      rw [cancels, Bool.and_eq_true] at hc
      exact hc.1
    exact ⟨h, e, lookup_cancelPrevious.mpr ⟨hm, hnot, heff⟩, hc⟩

/-- An alert that got as far as `mapAlerts` is refused when one of the rest cancels it. -/
theorem processAlert_fst_eq_false_iff (h : checked K c = some a) :
    (processAlert K c m).1 = false ↔ CancelledByRest c.adjustedTime a m := by
  rw [← any_cancelPrevious_iff, processAlert_of_checked h]
  split
  · next hany => exact iff_of_true rfl hany
  · next hany =>
    refine iff_of_false ?_ hany
    split <;> nofun

/-- What is left by a call that is refused there. -/
theorem processAlert_snd_of_cancelled (h : checked K c = some a)
    (hrest : CancelledByRest c.adjustedTime a m) :
    (processAlert K c m).2 = a.cancelPrevious c.adjustedTime m := by
  rw [processAlert_of_checked h, if_pos (any_cancelPrevious_iff.mpr hrest)]

/-- **When a refused alert cancels nothing.** -/
theorem processAlert_refused_iff (K : AlertKey) (c : AlertCall) (m : MapAlerts) :
    ((processAlert K c m).1 = false → KeepsInEffect c.adjustedTime m (processAlert K c m).2) ↔
      ∀ a, checked K c = some a →
        ¬ (CancelsOne c.adjustedTime a m ∧ CancelledByRest c.adjustedTime a m) := by
  cases h : checked K c with
  | none =>
    have hsame : (processAlert K c m).2 = m := by rw [processAlert, h]
    rw [hsame]
    exact iff_of_true (fun _ => .refl) fun a ha => absurd ha.symm (Option.some_ne_none a)
  | some a =>
    rw [processAlert_fst_eq_false_iff h]
    constructor
    · rintro hkeeps a' ha' ⟨hone, hrest⟩
      obtain rfl := Option.some.inj ha'
      have hkept := hkeeps hrest
      rw [processAlert_snd_of_cancelled h hrest, keepsInEffect_cancelPrevious_iff] at hkept
      exact hkept hone
    · intro hnot hrest
      rw [processAlert_snd_of_cancelled h hrest, keepsInEffect_cancelPrevious_iff]
      exact fun hone => hnot a rfl ⟨hone, hrest⟩

/-! ### An alert that is refused and cancels -/

/-- An alert that expires late. -/
def sampleAlert (nID : Int) (setCancel : List Int) : CUnsignedAlert :=
  ⟨1, 1000, 1000, nID, 0, setCancel, 0, 0, [], 0, [], [], []⟩

/-- A key that takes every signature for good, with the least byte of the id for the hash of a
message. -/
def sampleAlertKey : AlertKey where
  hash vchMsg := (vchMsg.getD 20 0).toNat
  verify _ _ := true

/-- Two alerts, of which the second cancels a third one. -/
def sampleAlerts : MapAlerts :=
  ((∅ : MapAlerts).insert 1 ⟨sampleAlert 1 [], (sampleAlert 1 []).serialize, []⟩).insert 2
    ⟨sampleAlert 2 [3], (sampleAlert 2 [3]).serialize, []⟩

/-- The third one, which cancels the first. -/
def sampleAlertCall : AlertCall := ⟨(sampleAlert 3 [1]).serialize, [], 0⟩

/-- The third alert is refused, and the first one is gone. -/
theorem not_processAlert_keeps :
    ¬ ∀ (K : AlertKey) (c : AlertCall) (m : MapAlerts), (processAlert K c m).1 = false →
      KeepsInEffect c.adjustedTime m (processAlert K c m).2 := by
  intro hall
  have hkept := hall sampleAlertKey sampleAlertCall sampleAlerts (by decide +kernel) 1
    ⟨sampleAlert 1 [], (sampleAlert 1 []).serialize, []⟩ (by decide +kernel) (by decide +kernel)
  revert hkept
  decide +kernel

end CAlert

end MotaCoin
