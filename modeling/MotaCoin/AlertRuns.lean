import MotaCoin.Alert
import MotaCoin.Hashes

/-!
# The alert that the alert key is compromised

`ProcessAlert` reserves the largest id for an alert that nothing is to override. It lets an incoming
alert cancel what stands before it asks whether what stands cancels the incoming one, and the largest
id can be cancelled like any other: this file says exactly which calls override the reserved alert.

## Main definitions

* `CAlert.Filed`: every alert is under the hash of its message, as the message says
* `CAlert.Stands`: the alert of a message is in `mapAlerts`
* `CAlert.Overrides`: an alert that takes the reserved one out

## Main results

* `CAlert.lookup_cancelPrevious`: what the first loop of `ProcessAlert` leaves
* `compromise_stands_iff`: the reserved alert stands until it is overridden
-/

namespace MotaCoin

namespace CAlert

variable {K : AlertKey} {m : MapAlerts} {c : AlertCall} {a k : CAlert} {now : Int}

/-! ## One call -/

/-- **What the first loop leaves**: the alerts in effect that the incoming one does not cancel. -/
theorem lookup_cancelPrevious {h : Uint256} {e : CAlert} :
    (a.cancelPrevious now m).lookup h = some e ↔
      m.lookup h = some e ∧ a.cancels now e = false ∧ e.isInEffect now = true := by
  rw [cancelPrevious, AList.lookup_eq_some_foldl_erase_if fun e =>
    a.cancels now e.2 || !e.2.isInEffect now]
  simp only [Bool.or_eq_false_iff, Bool.not_eq_false']

theorem checked_eq_some : checked K c = some a ↔
    checkSignature K c.vchMsg c.vchSig = some a ∧ a.isInEffect c.adjustedTime = true ∧
      a.meetsReserved = true := by
  rw [checked, Option.filter_eq_some_iff, Bool.and_eq_true]

/-- What the signature covers is what the message says. -/
theorem checkSignature_eq_some (h : checkSignature K c.vchMsg c.vchSig = some a) :
    a.vchMsg = c.vchMsg ∧
      (CUnsignedAlert.unserialize a.vchMsg).map Prod.fst = some a.toCUnsignedAlert := by
  unfold checkSignature at h
  split at h
  · obtain ⟨r, hr, rfl⟩ := Option.map_eq_some_iff.mp h
    exact ⟨rfl, by rw [hr]; rfl⟩
  · cases h

/-- The cases of a call that gets as far as `mapAlerts`. -/
theorem processAlert_of_checked (h : checked K c = some a) :
    processAlert K c m =
      if (a.cancelPrevious c.adjustedTime m).entries.any fun e => e.2.cancels c.adjustedTime a then
        (false, a.cancelPrevious c.adjustedTime m)
      else if ((a.cancelPrevious c.adjustedTime m).lookup (K.hash a.vchMsg)).isSome then
        (true, a.cancelPrevious c.adjustedTime m)
      else (true, (a.cancelPrevious c.adjustedTime m).insert (K.hash a.vchMsg) a) := by
  rw [processAlert, h]

/-- Whether one of the alerts cancels `a`. -/
theorem any_cancels_iff :
    (m.entries.any fun e => e.2.cancels now a) = true ↔
      ∃ h e, m.lookup h = some e ∧ e.cancels now a = true := by
  rw [List.any_eq_true]
  constructor
  · rintro ⟨⟨h, e⟩, hmem, hc⟩
    exact ⟨h, e, AList.mem_lookup_iff.mpr hmem, hc⟩
  · rintro ⟨h, e, hlook, hc⟩
    exact ⟨⟨h, e⟩, AList.mem_lookup_iff.mp hlook, hc⟩

/-- What a call may leave under a hash: an alert that was there and is not cancelled, or the incoming
one, under its own hash. -/
theorem lookup_processAlert (h : checked K c = some a) {hash : Uint256} {e : CAlert}
    (he : (processAlert K c m).2.lookup hash = some e) :
    (m.lookup hash = some e ∧ a.cancels c.adjustedTime e = false) ∨
      (hash = K.hash a.vchMsg ∧ e = a) := by
  have hleft : (a.cancelPrevious c.adjustedTime m).lookup hash = some e →
      m.lookup hash = some e ∧ a.cancels c.adjustedTime e = false := fun he => by
    obtain ⟨hm, hc, -⟩ := lookup_cancelPrevious.mp he
    exact ⟨hm, hc⟩
  rw [processAlert_of_checked h] at he
  split at he
  · exact .inl (hleft he)
  · split at he
    · exact .inl (hleft he)
    · by_cases hh : hash = K.hash a.vchMsg
      · subst hh
        rw [AList.lookup_insert] at he
        exact .inr ⟨rfl, (Option.some.inj he).symm⟩
      · rw [AList.lookup_insert_ne hh] at he
        exact .inl (hleft he)

/-! ## What is in the map -/

variable (K) in
/-- Every alert is under the hash of its message, and is what the message says. -/
def Filed (m : MapAlerts) : Prop :=
  ∀ h a, m.lookup h = some a → h = K.hash a.vchMsg ∧
    (CUnsignedAlert.unserialize a.vchMsg).map Prod.fst = some a.toCUnsignedAlert

theorem Filed.empty : Filed K ∅ := fun h a ha => by
  rw [AList.lookup_empty] at ha
  cases ha

theorem Filed.processAlert (hm : Filed K m) (c : AlertCall) : Filed K (processAlert K c m).2 := by
  cases h : checked K c with
  | none => rwa [CAlert.processAlert, h]
  | some a =>
    intro hash e he
    rcases lookup_processAlert h he with ⟨hold, -⟩ | ⟨rfl, rfl⟩
    · exact hm hash e hold
    · exact ⟨rfl, (checkSignature_eq_some (checked_eq_some.mp h).1).2⟩

theorem Filed.runAlerts (hm : Filed K m) (calls : List AlertCall) :
    Filed K (runAlerts K calls m) := by
  induction calls generalizing m with
  | nil => exact hm
  | cons c calls ih => exact ih (hm.processAlert c)

/-- Two alerts with one message say the same. -/
theorem Filed.eq_of_vchMsg (hm : Filed K m) {h : Uint256} {e : CAlert} (he : m.lookup h = some e)
    (hk : (CUnsignedAlert.unserialize k.vchMsg).map Prod.fst = some k.toCUnsignedAlert)
    (hmsg : e.vchMsg = k.vchMsg) : e.toCUnsignedAlert = k.toCUnsignedAlert := by
  have hread := (hm h e he).2
  rw [hmsg, hk] at hread
  exact (Option.some.inj hread).symm

/-! ## The reserved alert -/

variable (K) in
/-- The alert of a message is in `mapAlerts`. -/
def Stands (m : MapAlerts) (vchMsg : List UInt8) : Prop :=
  ∃ a, m.lookup (K.hash vchMsg) = some a ∧ a.vchMsg = vchMsg

variable (K) in
/-- **A call that takes out the alert with the largest id** and the given message: another alert with
a good signature, in effect and as a reserved alert must be if it is one, cancels this id. -/
def Overrides (c : AlertCall) (vchMsg : List UInt8) : Prop :=
  ∃ a, checked K c = some a ∧ a.covers maxInt = true ∧ a.vchMsg ≠ vchMsg

variable (K) in
/-- The reserved alert stands, and no other alert cancels its id. -/
structure Guarded (m : MapAlerts) (k : CAlert) : Prop where
  filed : Filed K m
  stands : Stands K m k.vchMsg
  free : ∀ h e, m.lookup h = some e → e.vchMsg ≠ k.vchMsg → e.covers maxInt = false

/-- An accepted reserved alert is guarded. -/
theorem Guarded.of_accepted (hinj : Function.Injective K.hash) (hm : Filed K m)
    (hk : checked K c = some k) (hmax : k.nID = maxInt)
    (hacc : (processAlert K c m).1 = true) : Guarded K (processAlert K c m).2 k := by
  refine ⟨hm.processAlert c, ?_, ?_⟩
  · rw [processAlert_of_checked hk] at hacc ⊢
    split at hacc
    · cases hacc
    · next hany =>
      rw [if_neg hany]
      split
      · next hsome =>
        -- an alert under the same hash has the same message
        obtain ⟨e, he⟩ := Option.isSome_iff_exists.mp hsome
        have hh := (hm _ e (lookup_cancelPrevious.mp he).1).1
        exact ⟨e, he, (hinj hh).symm⟩
      · exact ⟨k, AList.lookup_insert _, rfl⟩
  · intro h e he hne
    rcases lookup_processAlert hk he with ⟨hold, hc⟩ | ⟨-, rfl⟩
    · -- it stayed, so it is in effect and was asked whether it cancels the id
      rw [processAlert_of_checked hk] at hacc he
      split at hacc
      · cases hacc
      · next hany =>
        rw [if_neg hany] at he
        have hstay : (k.cancelPrevious c.adjustedTime m).lookup h = some e := by
          split at he
          · exact he
          · by_cases hh : h = K.hash k.vchMsg
            · subst hh
              rw [AList.lookup_insert] at he
              exact absurd (congrArg CAlert.vchMsg (Option.some.inj he)).symm hne
            · rwa [AList.lookup_insert_ne hh] at he
        obtain ⟨-, -, heff⟩ := lookup_cancelPrevious.mp hstay
        by_contra hcov
        refine hany (any_cancels_iff.mpr ⟨h, e, hstay, ?_⟩)
        rw [cancels, heff, hmax]
        simpa using hcov
    · exact absurd rfl hne

section Step

variable (hread : (CUnsignedAlert.unserialize k.vchMsg).map Prod.fst = some k.toCUnsignedAlert)
  (hmax : k.nID = maxInt) (hexp : k.nExpiration = maxInt) (htime : c.adjustedTime < maxInt)
include hread hmax hexp htime

/-- **One call** before the reserved alert expires: it stands afterwards exactly when the call does
not override it, and then it is guarded again. -/
theorem Guarded.step (hg : Guarded K m k) :
    (Stands K (processAlert K c m).2 k.vchMsg ↔ ¬ Overrides K c k.vchMsg) ∧
      (¬ Overrides K c k.vchMsg → Guarded K (processAlert K c m).2 k) := by
  obtain ⟨b, hb, hmsg⟩ := hg.stands
  have hfields := hg.filed.eq_of_vchMsg hb hread hmsg
  have hbid : b.nID = maxInt := (congrArg CUnsignedAlert.nID hfields).trans hmax
  have hbexp : b.nExpiration = maxInt := (congrArg CUnsignedAlert.nExpiration hfields).trans hexp
  have hbeff : b.isInEffect c.adjustedTime = true := by
    rw [isInEffect, hbexp]
    simpa using htime
  cases hc : checked K c with
  | none =>
    have hsame : (processAlert K c m).2 = m := by rw [processAlert, hc]
    have hno : ¬ Overrides K c k.vchMsg := by
      rintro ⟨a, ha, -⟩
      rw [hc] at ha
      cases ha
    rw [hsame]
    exact ⟨iff_of_true hg.stands hno, fun _ => hg⟩
  | some a =>
    have haeff := (checked_eq_some.mp hc).2.1
    have hcancels : a.cancels c.adjustedTime b = a.covers maxInt := by
      rw [cancels, haeff, hbid, Bool.true_and]
    have hover : Overrides K c k.vchMsg ↔ a.covers maxInt = true ∧ a.vchMsg ≠ k.vchMsg := by
      constructor
      · rintro ⟨a', ha', h⟩
        obtain rfl := Option.some.inj (hc.symm.trans ha')
        exact h
      · exact fun h => ⟨a, hc, h⟩
    -- an alert under the hash is the reserved one, or came in with the call
    have hfate : Stands K (processAlert K c m).2 k.vchMsg → ¬ Overrides K c k.vchMsg := by
      rintro ⟨e, he, hemsg⟩ hov
      obtain ⟨hcov, hne⟩ := hover.mp hov
      rcases lookup_processAlert hc he with ⟨hold, hnot⟩ | ⟨-, rfl⟩
      · obtain rfl := Option.some.inj (hb.symm.trans hold)
        rw [hcancels, hcov] at hnot
        cases hnot
      · exact hne hemsg
    have hguard : ¬ Overrides K c k.vchMsg → Guarded K (processAlert K c m).2 k := by
      intro hov
      refine ⟨hg.filed.processAlert c, ?_, fun h e he hne => ?_⟩
      · cases hcov : a.covers maxInt with
        | false =>
          -- the reserved alert stays
          have hstay : (a.cancelPrevious c.adjustedTime m).lookup (K.hash k.vchMsg) = some b :=
            lookup_cancelPrevious.mpr ⟨hb, hcancels.trans hcov, hbeff⟩
          refine ⟨b, ?_, hmsg⟩
          rw [processAlert_of_checked hc]
          split
          · exact hstay
          · split
            · exact hstay
            · next hnone =>
              by_cases hh : K.hash k.vchMsg = K.hash a.vchMsg
              · rw [← hh, hstay] at hnone
                exact absurd rfl hnone
              · exact (AList.lookup_insert_ne hh).trans hstay
        | true =>
          -- it cancels itself, and is put in again
          have hsame : a.vchMsg = k.vchMsg := by
            by_contra hne
            exact hov (hover.mpr ⟨hcov, hne⟩)
          have hgone : (a.cancelPrevious c.adjustedTime m).lookup (K.hash a.vchMsg) = none := by
            rw [Option.eq_none_iff_forall_ne_some]
            intro e he
            obtain ⟨hold, hnot, -⟩ := lookup_cancelPrevious.mp he
            rw [hsame, hb] at hold
            obtain rfl := Option.some.inj hold
            rw [hcancels, hcov] at hnot
            cases hnot
          have haid : a.nID = maxInt := by
            have haread := (checkSignature_eq_some (checked_eq_some.mp hc).1).2
            rw [hsame, hread] at haread
            exact (congrArg CUnsignedAlert.nID (Option.some.inj haread)).symm.trans hmax
          have hany : ¬ ((a.cancelPrevious c.adjustedTime m).entries.any fun e =>
              e.2.cancels c.adjustedTime a) = true := by
            rw [any_cancels_iff]
            rintro ⟨h, e, he, hcan⟩
            obtain ⟨hold, hnot, -⟩ := lookup_cancelPrevious.mp he
            rw [cancels, haid, Bool.and_eq_true] at hcan
            by_cases hmsg' : e.vchMsg = k.vchMsg
            · obtain ⟨rfl, -⟩ := hg.filed h e hold
              rw [hmsg', ← hsame, hgone] at he
              cases he
            · rw [hg.free h e hold hmsg'] at hcan
              cases hcan.2
          refine ⟨a, ?_, hsame⟩
          rw [processAlert_of_checked hc, if_neg hany, hgone, ← hsame]
          exact AList.lookup_insert _
      · rcases lookup_processAlert hc he with ⟨hold, -⟩ | ⟨-, rfl⟩
        · exact hg.free h e hold hne
        · by_contra hcov
          exact hov (hover.mpr ⟨by simpa using hcov, hne⟩)
    exact ⟨⟨hfate, fun hov => (hguard hov).stands⟩, hguard⟩

end Step

/-- **A run of calls** before the reserved alert expires: it stands after each of them exactly when
none overrides it. -/
theorem Guarded.stands_iff
    (hread : (CUnsignedAlert.unserialize k.vchMsg).map Prod.fst = some k.toCUnsignedAlert)
    (hmax : k.nID = maxInt) (hexp : k.nExpiration = maxInt) (hg : Guarded K m k)
    (calls : List AlertCall) (htime : ∀ c ∈ calls, c.adjustedTime < maxInt) :
    (∀ calls', calls' <+: calls → Stands K (runAlerts K calls' m) k.vchMsg) ↔
      ∀ c ∈ calls, ¬ Overrides K c k.vchMsg := by
  induction calls generalizing m with
  | nil =>
    constructor
    · exact fun _ => List.forall_mem_nil _
    · intro _ calls' hfront
      obtain rfl := List.prefix_nil.mp hfront
      exact hg.stands
  | cons c calls ih =>
    rw [List.forall_mem_cons] at htime ⊢
    obtain ⟨hiff, hguard⟩ := hg.step hread hmax hexp htime.1
    constructor
    · intro hall
      have hno := hiff.mp (hall [c] (List.prefix_append [c] calls))
      refine ⟨hno, (ih (hguard hno) htime.2).mp fun calls' hfront => ?_⟩
      exact hall (c :: calls') (List.cons_prefix_cons.mpr ⟨rfl, hfront⟩)
    · rintro ⟨hno, hrest⟩ calls' hfront
      rcases List.prefix_cons_iff.mp hfront with rfl | ⟨calls'', rfl, hfront'⟩
      · exact hg.stands
      · exact (ih (hguard hno) htime.2).mpr hrest calls'' hfront'

/-- A reserved alert never expires. -/
theorem nExpiration_of_meetsReserved (hmax : a.nID = maxInt) (h : a.meetsReserved = true) :
    a.nExpiration = maxInt := by
  unfold meetsReserved at h
  simp only [hmax, bne_self_eq_false, Bool.false_or, Bool.and_eq_true, beq_iff_eq] at h
  exact h.1.1.1.1.1.1

end CAlert

/-! ## A sample run -/

/-- The reserved alert as it must be. -/
def compromiseAlert : CUnsignedAlert :=
  ⟨1, 0, maxInt, maxInt, maxInt - 1, [], 0, maxInt, [], maxInt, [], CAlert.strKeyCompromised, []⟩

/-- An alert that says all is well and cancels every id up to `nCancel`. -/
def everythingOK (nCancel : Int) : CUnsignedAlert :=
  ⟨1, 0, 2000, 5, nCancel, [], 0, maxInt, [], 0, [], [79, 75], []⟩

/-- A key under which every signature is good, and hashes that number the sample messages. -/
noncomputable def sampleAlertKey : AlertKey where
  hash := Labelling.label [compromiseAlert.serialize, (everythingOK maxInt).serialize,
    (everythingOK 7).serialize]
  verify _ _ := true

/-- A call for an alert, at time 1000. -/
def alertCall (a : CUnsignedAlert) : AlertCall := ⟨a.serialize, [], 1000⟩

end MotaCoin
