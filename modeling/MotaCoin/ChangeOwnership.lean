import MotaCoin.CreateBalance
import MotaCoin.EvalLimits
import MotaCoin.PushedStack
import MotaCoin.SolverForms

/-!
# Whether the change is the wallet's own

The change of a transaction that `CreateTransaction` makes goes to a key of the key pool, which is the
wallet's, or, when the coin control asks for its return, to the last destination that a spent coin pays
to. A coin can be the wallet's without a destination, and when no spent coin has one the change pays to
an empty script.

## Main definitions

* `KeyPoolRun.KeysKnown`: the keys that the key pool can hand out are known
* `hasDestination`: a coin pays to a destination

## Main results

* `isMine_setDestination`: the destination of a script of the wallet is the wallet's
* `KeyPoolRun.KeysKnown.run`: the keys stay known, whatever is called
* `createTransaction_change_iff`: when the change is the wallet's
-/

namespace MotaCoin

open Wire

/-! ## Destinations of own scripts -/

theorem standardForm_keyID (id : Uint160) :
    StandardForm (setDestination (.keyID id)) .pubKeyHash [leBytes 20 id] := by
  have hlength : (leBytes 20 id).length = 20 := length_leBytes 20 id
  have hscript : setDestination (.keyID id) = ofOpcode OP_DUP ++ (ofOpcode OP_HASH160 ++
      (pushData (leBytes 20 id) ++ (ofOpcode OP_EQUALVERIFY ++ ofOpcode OP_CHECKSIG))) := by
    simp only [setDestination, List.append_assoc]
  obtain ⟨opcode, hpush, hopcode⟩ := @getOp2_pushData (ofOpcode OP_EQUALVERIFY ++ ofOpcode OP_CHECKSIG)
    (leBytes 20 id) (by omega) (by decide)
  have hend : ParsesAs (ofOpcode OP_EQUALVERIFY ++ ofOpcode OP_CHECKSIG)
      [.plain OP_EQUALVERIFY, .plain OP_CHECKSIG] :=
    parsesAs_cons_iff.2 ⟨_, rfl, parsesAs_cons_iff.2 ⟨_, rfl, parsesAs_nil_iff.2 rfl⟩⟩
  have hkey : ParsesAs _ [(opcode, leBytes 20 id), .plain OP_EQUALVERIFY, .plain OP_CHECKSIG] :=
    parsesAs_cons_iff.2 ⟨_, hpush, hend⟩
  refine ⟨(opcode, leBytes 20 id), hopcode, hlength, ?_, rfl⟩
  rw [hscript]
  exact parsesAs_cons_iff.2 ⟨_, rfl, parsesAs_cons_iff.2 ⟨_, rfl, hkey⟩⟩

theorem standardForm_scriptID {hash : Valtype} (hlength : hash.length = 20) :
    setDestination (.scriptID (ofLE hash)) = ofOpcode OP_HASH160 ++ 0x14 :: hash ++ ofOpcode OP_EQUAL := by
  have hbytes := leBytes_ofLE hash
  rw [hlength] at hbytes
  rw [setDestination, hbytes]
  have hpush : pushData hash = 0x14 :: hash := by
    rw [pushData, if_pos (by rw [hlength]; decide), hlength]
    rfl
  rw [hpush]

namespace OwnKeys

variable {keys : OwnKeys} {scriptPubKey : CScript} {destination : CTxDestination}

/-- A key hash of the right width is read back. -/
theorem isMine_keyID {id : Uint160} (hid : id < 2 ^ 160) (hhave : keys.haveKey id = true) :
    keys.isMine (setDestination (.keyID id)) = true := by
  have hread : ofLE (leBytes 20 id) = id := by
    rw [ofLE_leBytes]
    exact Nat.mod_eq_of_lt hid
  unfold isMine isMineFrom
  rw [(standardForm_keyID id).solver_eq]
  change keys.haveKey (ofLE (leBytes 20 id)) = true
  rw [hread]
  exact hhave

/-- **The destination of a script of the wallet** is the wallet's. -/
theorem isMine_setDestination (hwidth : ∀ vchPubKey, keys.hash160 vchPubKey < 2 ^ 160)
    (hmine : keys.isMine scriptPubKey = true)
    (hdestination : extractDestination keys.hash160 scriptPubKey = some destination) :
    keys.isMine (setDestination destination) = true := by
  unfold isMine isMineFrom at hmine
  rw [extractDestination] at hdestination
  cases hsolved : solver scriptPubKey with
  | mk solved type vSolutions =>
  rw [hsolved] at hmine hdestination
  cases solved with
  | false => cases hdestination
  | true =>
    have hform := standardForm_of_solver hsolved
    cases type with
    | nonstandard => cases hdestination
    | multiSig => cases hdestination
    | pubKey =>
      obtain rfl := Option.some.inj hdestination
      exact isMine_keyID (hwidth _) hmine
    | pubKeyHash =>
      obtain ⟨hash, -, hlength, -, rfl⟩ := hform
      obtain rfl := Option.some.inj hdestination
      have hlt := ofLE_lt hash.2
      rw [hlength] at hlt
      exact isMine_keyID hlt hmine
    | scriptHash =>
      obtain ⟨hash, hlength, hscript, rfl⟩ := hform
      obtain rfl := Option.some.inj hdestination
      rw [List.headD_cons, standardForm_scriptID hlength, ← hscript]
      unfold isMine isMineFrom
      rw [hsolved]
      exact hmine

/-- An empty script is nobody's. -/
theorem isMine_noDestination : keys.isMine (setDestination .noDestination) = false := by
  have hunsolved : (solver (setDestination .noDestination)).solved = false := by decide +kernel
  unfold isMine isMineFrom
  dsimp only
  rw [hunsolved, Bool.not_false, if_pos rfl]

/-- More keys own more scripts. -/
theorem isMineFrom_mono {keys' : OwnKeys} (hhash160 : keys'.hash160 = keys.hash160)
    (hscripts : keys'.mapScripts = keys.mapScripts)
    (hkeys : ∀ id, keys.haveKey id = true → keys'.haveKey id = true) {fuel : Nat} :
    ∀ {scriptPubKey : CScript}, keys.isMineFrom fuel scriptPubKey = true →
      keys'.isMineFrom fuel scriptPubKey = true := by
  have hall (pubkeys : List Valtype) (h : (keys.haveKeys pubkeys == pubkeys.length) = true) :
      (keys'.haveKeys pubkeys == pubkeys.length) = true := by
    rw [beq_iff_eq, haveKeys] at h ⊢
    refine le_antisymm List.countP_le_length (h.symm.le.trans (List.countP_mono_left fun key _ => ?_))
    rw [hhash160]
    exact hkeys _
  induction fuel using Nat.strong_induction_on with
  | _ fuel ih =>
    intro scriptPubKey h
    unfold isMineFrom at h ⊢
    cases hsolved : solver scriptPubKey with
    | mk solved type vSolutions =>
    rw [hsolved] at h
    cases solved with
    | false => exact h
    | true =>
      cases type with
      | nonstandard => exact h
      | pubKey =>
        dsimp only at h ⊢
        rw [hhash160]
        exact hkeys _ h
      | pubKeyHash => exact hkeys _ h
      | multiSig => exact hall _ h
      | scriptHash =>
        dsimp only at h ⊢
        rw [hscripts]
        cases fuel with
        | zero => exact h
        | succ fuel =>
          cases hlookup : keys.mapScripts.lookup (ofLE (vSolutions.headD [])) with
          | none =>
            rw [hlookup] at h
            exact h
          | some subscript =>
            rw [hlookup] at h
            exact ih fuel (Nat.lt_succ_self fuel) h

end OwnKeys

theorem isMine_withKeys_mono {w : CWallet} {keys keys' : List Valtype} (hkeys : keys ⊆ keys')
    {scriptPubKey : CScript} (h : (w.withKeys keys).keys.isMine scriptPubKey = true) :
    (w.withKeys keys').keys.isMine scriptPubKey = true := by
  refine @OwnKeys.isMineFrom_mono (w.withKeys keys).keys (w.withKeys keys').keys rfl rfl
    (fun id hid => ?_) _ _ h
  obtain ⟨vchPubKey, hmem, heq⟩ := List.any_eq_true.1 hid
  exact List.any_eq_true.2 ⟨vchPubKey, hkeys hmem, heq⟩

/-! ## The keys of the key pool -/

namespace PoolWallet

variable {env : KeyPoolEnv} {w w' w'' : PoolWallet}

/-- The keys are kept, and the default key is the same. -/
structure Grows (w w' : PoolWallet) : Prop where
  keys : w.keys ⊆ w'.keys
  vchDefaultKey : w'.vchDefaultKey = w.vchDefaultKey

namespace Grows

theorem refl (w : PoolWallet) : Grows w w := ⟨List.Subset.refl _, rfl⟩

theorem trans (h : Grows w w') (h' : Grows w' w'') : Grows w w'' :=
  ⟨fun _ hkey => h'.keys (h.keys hkey), h'.vchDefaultKey.trans h.vchDefaultKey⟩

theorem writeNewKey (env : KeyPoolEnv) (w : PoolWallet) (nIndex : Int) :
    Grows w (w.writeNewKey env nIndex).2 :=
  ⟨List.subset_cons_self _ _, rfl⟩

theorem insertIndex (nIndex : Int) (w : PoolWallet) : Grows w (w.insertIndex nIndex) :=
  ⟨List.Subset.refl _, rfl⟩

theorem erasePool (nIndex : Int) (w : PoolWallet) : Grows w (w.erasePool nIndex) :=
  ⟨List.Subset.refl _, rfl⟩

theorem newKeyLoop (env : KeyPoolEnv) (is : List Nat) (w : PoolWallet) :
    Grows w (w.newKeyLoop env is) := by
  induction is generalizing w with
  | nil => exact .refl w
  | cons i is ih => exact ((writeNewKey env w (i + 1)).trans (insertIndex _ _)).trans (ih _)

theorem topUpLoop (env : KeyPoolEnv) (n : Nat) (w : PoolWallet) : Grows w (w.topUpLoop env n).2 := by
  induction n generalizing w with
  | zero => exact .refl w
  | succ n ih =>
    have hwrite := writeNewKey env w w.nEnd
    rw [PoolWallet.topUpLoop]
    split
    · next hfailed =>
      rw [hfailed] at hwrite
      exact hwrite
    · next w₁ hwritten =>
      rw [hwritten] at hwrite
      exact (hwrite.trans (insertIndex _ _)).trans (ih _)

theorem topUpKeyPool (env : KeyPoolEnv) (nSize : Nat) (w : PoolWallet) :
    Grows w (w.topUpKeyPool env nSize).2 := by
  rw [PoolWallet.topUpKeyPool]
  split
  · exact .refl w
  · exact topUpLoop env _ w

theorem takeOldest (w : PoolWallet) : Grows w w.takeOldest.2 := by
  rw [PoolWallet.takeOldest]
  split
  · dsimp only
    split
    · exact ⟨List.Subset.refl _, rfl⟩
    · split
      · exact ⟨List.Subset.refl _, rfl⟩
      · split
        · exact ⟨List.Subset.refl _, rfl⟩
        · exact ⟨List.Subset.refl _, rfl⟩
  · exact .refl w

end Grows

/-- A key that is taken from the pool is known. -/
theorem mem_keys_of_takeOldest {nIndex : Int} {vchPubKey : Valtype}
    (h : w.takeOldest = (.key nIndex vchPubKey, w')) : vchPubKey ∈ w'.keys := by
  rw [takeOldest] at h
  split at h
  · dsimp only at h
    split at h
    · cases h
    · next vchPubKey₁ _ =>
      split at h
      · cases h
      · next hknown =>
        split at h
        · cases h
        · cases h
          simpa using hknown
  · cases h

/-- What is reserved is known, and the wallet keeps its keys. -/
theorem reserveKeyFromKeyPool_grows (env : KeyPoolEnv) (w : PoolWallet) :
    Grows w (w.reserveKeyFromKeyPool env).2 ∧
      ∀ nIndex vchPubKey, (w.reserveKeyFromKeyPool env).1 = .key nIndex vchPubKey →
        vchPubKey ∈ (w.reserveKeyFromKeyPool env).2.keys := by
  have htake (w : PoolWallet) : ∀ nIndex vchPubKey, w.takeOldest.1 = .key nIndex vchPubKey →
      vchPubKey ∈ w.takeOldest.2.keys := fun nIndex vchPubKey h =>
    mem_keys_of_takeOldest (w := w) (Prod.ext h rfl)
  rw [reserveKeyFromKeyPool]
  split
  · have htop := Grows.topUpKeyPool env 0 w
    split
    · next hfailed =>
      rw [hfailed] at htop
      refine ⟨htop, fun nIndex vchPubKey hkey => ?_⟩
      cases hkey
    · next w₁ hdone =>
      rw [hdone] at htop
      exact ⟨htop.trans (.takeOldest w₁), htake w₁⟩
  · exact ⟨.takeOldest w, htake w⟩

end PoolWallet

namespace KeyPoolRun

variable {env : KeyPoolEnv} {st : KeyPoolRun}

/-- **The keys that can be handed out are known**: the default key and those that are held. -/
structure KeysKnown (st : KeyPoolRun) : Prop where
  vchDefaultKey : isValidPubKey st.wallet.vchDefaultKey = true →
    st.wallet.vchDefaultKey ∈ st.wallet.keys
  holders : ∀ h, isValidPubKey (st.holders h).vchPubKey = true →
    (st.holders h).vchPubKey ∈ st.wallet.keys

namespace KeysKnown

theorem grows (hknown : st.KeysKnown) {w : PoolWallet} (hgrows : PoolWallet.Grows st.wallet w) :
    KeysKnown { st with wallet := w } where
  vchDefaultKey hvalid := by
    dsimp only at hvalid ⊢
    rw [hgrows.vchDefaultKey] at hvalid ⊢
    exact hgrows.keys (hknown.vchDefaultKey hvalid)
  holders h hvalid := hgrows.keys (hknown.holders h hvalid)

theorem seen (hknown : st.KeysKnown) (events : List PoolEvent) : (st.seen events).KeysKnown :=
  ⟨hknown.vchDefaultKey, hknown.holders⟩

theorem setHolder (hknown : st.KeysKnown) (h : Nat) (key : CReserveKey)
    (hkey : isValidPubKey key.vchPubKey = true → key.vchPubKey ∈ st.wallet.keys) :
    (st.setHolder h key).KeysKnown where
  vchDefaultKey := hknown.vchDefaultKey
  holders h' hvalid := by
    by_cases heq : h' = h
    · subst heq
      rw [holders_setHolder_self] at hvalid ⊢
      exact hkey hvalid
    · rw [holders_setHolder_of_ne heq] at hvalid ⊢
      exact hknown.holders h' hvalid

theorem release (hknown : st.KeysKnown) (h : Nat) : (st.setHolder h .none).KeysKnown :=
  hknown.setHolder h .none fun hvalid => absurd hvalid (by decide)

/-- A key that is returned when it is valid is known. -/
theorem returnReserved (hknown : st.KeysKnown) {vchPubKey : Valtype}
    (hkey : isValidPubKey vchPubKey = true → vchPubKey ∈ st.wallet.keys) :
    (st.returnReserved vchPubKey).KeysKnown ∧ ∀ vchPubKey',
      (st.returnReserved vchPubKey).log.getLast? = some (.handedOut vchPubKey') →
        vchPubKey' ∈ (st.returnReserved vchPubKey).wallet.keys := by
  refine ⟨hknown.seen _, fun vchPubKey' hlast => ?_⟩
  rw [KeyPoolRun.returnReserved, KeyPoolRun.seen, List.getLast?_append, List.getLast?_singleton,
    Option.some_or] at hlast
  split at hlast
  · next hvalid =>
    cases hlast
    exact hkey hvalid
  · cases hlast

/-- **`GetReservedKey`** returns a key that is known. -/
theorem getReservedKey (hknown : st.KeysKnown) (env : KeyPoolEnv) (h : Nat) :
    (st.getReservedKey env h).KeysKnown ∧
      PoolWallet.Grows st.wallet (st.getReservedKey env h).wallet ∧ ∀ vchPubKey,
        (st.getReservedKey env h).log.getLast? = some (.handedOut vchPubKey) →
          vchPubKey ∈ (st.getReservedKey env h).wallet.keys := by
  rw [KeyPoolRun.getReservedKey]
  split
  · obtain ⟨hgrows, hreserved⟩ := PoolWallet.reserveKeyFromKeyPool_grows env st.wallet
    have hgrown := hknown.grows hgrows
    cases hresult : st.wallet.reserveKeyFromKeyPool env with
    | mk reserved w =>
    rw [hresult] at hgrows hreserved hgrown
    cases reserved with
    | none =>
      have hset := hgrown.setHolder h ⟨-1, w.vchDefaultKey⟩ hgrown.vchDefaultKey
      obtain ⟨hreturn, hlast⟩ := hset.returnReserved hgrown.vchDefaultKey
      exact ⟨hreturn, hgrows, hlast⟩
    | key nIndex vchPubKey =>
      have hkey := hreserved nIndex vchPubKey rfl
      have hset := hgrown.setHolder h ⟨nIndex, vchPubKey⟩ fun _ => hkey
      obtain ⟨hreturn, hlast⟩ := hset.returnReserved fun _ => hkey
      exact ⟨hreturn, hgrows, hlast⟩
    | threw nIndex =>
      have hset := hgrown.setHolder h { st.holders h with nIndex := nIndex }
        fun hvalid => hgrown.holders h hvalid
      refine ⟨hset.seen _, hgrows, fun vchPubKey hlast => ?_⟩
      have hthrew := (List.getLast?_concat (l := st.log) (a := .threw)).symm.trans hlast
      cases hthrew
  · obtain ⟨hreturn, hlast⟩ := hknown.returnReserved (hknown.holders h)
    exact ⟨hreturn, .refl _, hlast⟩

theorem keepKey (hknown : st.KeysKnown) (h : Nat) : (st.keepKey h).KeysKnown := by
  rw [KeyPoolRun.keepKey]
  split
  · exact hknown.release h
  · exact ((hknown.grows (.erasePool _ _)).release h).seen _

theorem returnKey (hknown : st.KeysKnown) (h : Nat) : (st.returnKey h).KeysKnown := by
  rw [KeyPoolRun.returnKey]
  split
  · exact hknown.release h
  · exact (hknown.grows (.insertIndex _ _)).release h

theorem getKeyFromPool (hknown : st.KeysKnown) (env : KeyPoolEnv) (fAllowReuse : Bool) :
    (st.getKeyFromPool env fAllowReuse).KeysKnown := by
  obtain ⟨hgrows, -⟩ := PoolWallet.reserveKeyFromKeyPool_grows env st.wallet
  rw [KeyPoolRun.getKeyFromPool]
  split
  · next w hresult =>
    rw [hresult] at hgrows
    split
    · exact (hknown.grows hgrows).seen _
    · split
      · exact hknown.grows hgrows
      · have hadd : PoolWallet.Grows w { w with
            keys := env.generateNewKey w.nGenerated :: w.keys, nGenerated := w.nGenerated + 1 } :=
          ⟨List.subset_cons_self _ _, rfl⟩
        exact (hknown.grows (hgrows.trans hadd)).seen _
  · next hresult =>
    rw [hresult] at hgrows
    exact (hknown.grows (hgrows.trans (.erasePool _ _))).seen _
  · next hresult =>
    rw [hresult] at hgrows
    exact (hknown.grows hgrows).seen _

/-- A call keeps the keys known. -/
theorem call (hknown : st.KeysKnown) (env : KeyPoolEnv) (c : PoolCall) : (st.call env c).KeysKnown := by
  cases c with
  | newKeyPool =>
    refine hknown.grows ?_
    rw [PoolWallet.newKeyPool]
    have hclear : PoolWallet.Grows st.wallet st.wallet.clearPool := ⟨List.Subset.refl _, rfl⟩
    split
    · exact hclear
    · exact hclear.trans (.newKeyLoop env _ _)
  | topUpKeyPool nSize => exact (hknown.grows (.topUpKeyPool env nSize st.wallet)).seen _
  | getReservedKey h => exact (hknown.getReservedKey env h).1
  | keepKey h => exact hknown.keepKey h
  | returnKey h => exact hknown.returnKey h
  | getKeyFromPool fAllowReuse => exact hknown.getKeyFromPool env fAllowReuse
  | setLocked fLocked => exact hknown.grows ⟨List.Subset.refl _, rfl⟩

/-- **The keys stay known**, whatever is called. -/
theorem run (hknown : st.KeysKnown) (env : KeyPoolEnv) (calls : List PoolCall) :
    (st.run env calls).KeysKnown := by
  induction calls generalizing st with
  | nil => exact hknown
  | cons c calls ih => exact ih (hknown.call env c)

end KeysKnown

end KeyPoolRun

/-! ## Selected coins are available -/

/-- All coins of a selection are in a set. -/
def CoinSelection.Within (S : Set WalletCoin) (r : CoinSelection) : Prop := ∀ c ∈ r.setCoinsRet, c ∈ S

section Within

variable {S : Set WalletCoin}

theorem within_none {fSelected : Bool} {nValueRet : Int} :
    CoinSelection.Within S ⟨fSelected, ∅, nValueRet⟩ :=
  fun _ hc => absurd hc (Finset.notMem_empty _)

theorem CoinSelection.Within.add {r : CoinSelection} (h : r.Within S) {coin : Int × WalletCoin}
    (hcoin : coin.2 ∈ S) : (r.add coin).Within S := by
  intro c hc
  rcases Finset.mem_insert.1 hc with rfl | hc
  · exact hcoin
  · exact h c hc

theorem within_ofCoins {coins : List (Int × WalletCoin)} (hcoins : ∀ coin ∈ coins, coin.2 ∈ S) :
    (CoinSelection.ofCoins coins).Within S := by
  refine List.foldlRecOn coins CoinSelection.add within_none fun r hr coin hcoin => hr.add (hcoins coin hcoin)

theorem mem_insertAll {coins : List WalletCoin} {c : WalletCoin} :
    ∀ {set : Finset WalletCoin},
      c ∈ coins.foldl (fun set coin => insert coin set) set → c ∈ set ∨ c ∈ coins := by
  induction coins with
  | nil => exact fun h => .inl h
  | cons coin coins ih =>
    intro set h
    rcases ih h with hset | hcoins
    · rcases Finset.mem_insert.1 hset with rfl | hset
      · exact .inr List.mem_cons_self
      · exact .inl hset
    · exact .inr (List.mem_cons_of_mem _ hcoins)

/-- All coins that the loop over the coins comes to are in a set. -/
def CollectedWithin (S : Set WalletCoin) : (Int × WalletCoin) ⊕ LowerCoins → Prop
  | .inl coin => coin.2 ∈ S
  | .inr st => (∀ coin ∈ st.vValue, coin.2 ∈ S) ∧ ∀ c, st.coinLowestLarger.2 = some c → c ∈ S

theorem collectCoins_within {limits : CoinLimits} {nTargetValue : Int} {vCoins : List COutput}
    (hvCoins : ∀ out ∈ vCoins, out.coin.2 ∈ S) :
    ∀ {st : LowerCoins}, CollectedWithin S (.inr st) →
      CollectedWithin S (collectCoins limits nTargetValue vCoins st) := by
  induction vCoins with
  | nil => exact id
  | cons out vCoins ih =>
    rintro st ⟨hvalue, hlarger⟩
    have hout := hvCoins out List.mem_cons_self
    have ih := fun {st : LowerCoins} => @ih (fun out hout => hvCoins out (List.mem_cons_of_mem _ hout)) st
    rw [collectCoins]
    split
    · exact ih ⟨hvalue, hlarger⟩
    · dsimp only
      split
      · exact hout
      · split
        · refine ih ⟨fun coin hcoin => ?_, hlarger⟩
          rcases List.mem_append.1 hcoin with hcoin | hcoin
          · exact hvalue coin hcoin
          · rw [List.mem_singleton.1 hcoin]
            exact hout
        · split
          · refine ih ⟨hvalue, fun c hc => ?_⟩
            obtain rfl := Option.some.inj hc
            exact hout
          · exact ih ⟨hvalue, hlarger⟩

theorem selectCoinsMinConf_within (limits : CoinLimits) (draws : CoinDraws) (nTargetValue : Int)
    {vCoins : List COutput} (hvCoins : ∀ out ∈ vCoins, out.coin.2 ∈ S) :
    (selectCoinsMinConf limits draws nTargetValue vCoins).Within S := by
  have hcollect := @collectCoins_within S limits nTargetValue (draws.shuffle vCoins)
    (fun out hout => hvCoins out ((draws.shuffle_perm vCoins).mem_iff.1 hout)) LowerCoins.init ⟨nofun, nofun⟩
  rw [selectCoinsMinConf]
  split
  · next coin hcoin =>
    rw [hcoin] at hcollect
    exact within_ofCoins fun c hc => List.mem_singleton.1 hc ▸ hcollect
  · next vValue nTotalLower first second hlower =>
    rw [hlower] at hcollect
    obtain ⟨hvalue, hlarger⟩ := hcollect
    have hsecond {coin : WalletCoin} (hcoin : second = some coin) :
        (CoinSelection.ofCoins [(first, coin)]).Within S :=
      within_ofCoins fun c hc => List.mem_singleton.1 hc ▸ hlarger coin hcoin
    have hchosen (mask : List Bool) :
        (CoinSelection.ofCoins (Masks.chosen mask (draws.sort vValue))).Within S :=
      within_ofCoins fun coin hcoin => hvalue coin
        ((draws.sort_perm vValue).mem_iff.1 ((Masks.chosen_sublist mask _).subset hcoin))
    split
    · exact within_ofCoins hvalue
    · split
      · split
        · exact within_none
        · exact hsecond rfl
      · dsimp only
        split
        · split
          · exact hsecond rfl
          · exact hchosen _
        · exact hchosen _

/-- All coins of the vector of the tables are in a set. -/
def AgeItems.Within (S : Set WalletCoin) (items : AgeItems) : Prop := ∀ v ∈ items.vValue, v.coin ∈ S

theorem AgeItems.Within.coinsAt {items : AgeItems} (h : items.Within S) {k : Nat}
    {coins : List WalletCoin} (hcoins : items.coinsAt k = some coins) : ∀ c ∈ coins, c ∈ S := by
  rw [AgeItems.coinsAt] at hcoins
  split at hcoins
  · obtain ⟨first, -, hcoins⟩ := Option.bind_eq_some_iff.1 hcoins
    obtain ⟨last, -, hcoins⟩ := Option.bind_eq_some_iff.1 hcoins
    rw [AgeItems.coinsBetween] at hcoins
    split at hcoins
    · obtain rfl := Option.some.inj hcoins
      intro c hc
      obtain ⟨v, hv, rfl⟩ := List.mem_map.1 hc
      exact h v (List.mem_of_mem_drop (List.mem_of_mem_take hv))
    · cases hcoins
  · obtain ⟨v, hv, hcoins⟩ := Option.bind_eq_some_iff.1 hcoins
    obtain rfl := Option.some.inj hcoins
    intro c hc
    rw [List.mem_singleton.1 hc]
    exact h v (List.mem_of_getElem? hv)

theorem AgeItems.Within.pick {items : AgeItems} (h : items.Within S) {k : Nat} {r r' : CoinSelection}
    (hr : r.Within S) (hpick : items.pick k r = some r') : r'.Within S := by
  obtain ⟨coins, hcoins, hpick⟩ := Option.bind_eq_some_iff.1 hpick
  obtain ⟨v, -, hpick⟩ := Option.bind_eq_some_iff.1 hpick
  obtain rfl := Option.some.inj hpick
  intro c hc
  rcases mem_insertAll hc with hc | hc
  · exact hr c hc
  · exact h.coinsAt hcoins c hc

theorem bundling_within {denom : Int} {places : List Nat} :
    ∀ {st st' : Bundling}, st.items.Within S → places.foldlM (Bundling.put denom) st = some st' →
      st'.items.Within S := by
  induction places with
  | nil =>
    intro st st' hst h
    obtain rfl := Option.some.inj h
    exact hst
  | cons place places ih =>
    intro st st' hst h
    rw [List.foldlM_cons] at h
    obtain ⟨st₁, hput, h⟩ := Option.bind_eq_some_iff.1 h
    refine ih ?_ h
    obtain ⟨coin, -, hput⟩ := Option.bind_eq_some_iff.1 hput
    dsimp only at hput
    split at hput
    · obtain ⟨v, hv, hput⟩ := Option.bind_eq_some_iff.1 hput
      obtain rfl := Option.some.inj hput
      -- a bundle has the coin of its place
      intro v' hv'
      rcases List.mem_or_eq_of_mem_set hv' with hv' | rfl
      · exact hst v' hv'
      · exact hst v (List.mem_of_getElem? hv)
    · obtain rfl := Option.some.inj hput
      exact hst

theorem bundleCoins_within {denom : Int} {vValue : List AgeCoin} (hvalue : ∀ v ∈ vValue, v.coin ∈ S)
    {items : AgeItems} (h : bundleCoins denom vValue = some items) : items.Within S := by
  obtain ⟨st, hst, h⟩ := Option.bind_eq_some_iff.1 h
  obtain rfl := Option.some.inj h
  refine bundling_within (S := S) (fun v hv => ?_) hst
  rcases List.mem_append.1 hv with hv | hv
  · exact hvalue v (List.mem_filter.1 hv).1
  · exact hvalue v (List.mem_filter.1 hv).1

theorem prepick_within {nTargetValue denom : Int} {left : Nat} :
    ∀ {items items' : AgeItems} {r r' : CoinSelection}, items.Within S → r.Within S →
      prepick nTargetValue denom left items r = some (items', r') → items'.Within S ∧ r'.Within S := by
  induction left with
  | zero =>
    intro items items' r r' hitems hr h
    cases h
    exact ⟨hitems, hr⟩
  | succ left ih =>
    intro items items' r r' hitems hr h
    rw [prepick] at h
    split at h
    · obtain ⟨v, -, h⟩ := Option.bind_eq_some_iff.1 h
      obtain ⟨r₁, hpick, h⟩ := Option.bind_eq_some_iff.1 h
      have hitems₁ : AgeItems.Within S { items with
          nBeginCoinValues := items.nBeginCoinValues + 1
          nTotalValue := Int64.wrap (items.nTotalValue - v.nValue.tdiv denom) } := hitems
      exact ih hitems₁ (hitems.pick hr hpick) h
    · cases h
      exact ⟨hitems, hr⟩

theorem traceBack_within {items : AgeItems} (hitems : items.Within S) {B : List (List Nat)} {i : Nat} :
    ∀ {nPrev : Int} {r r' : CoinSelection}, r.Within S → traceBack items B i nPrev r = some r' →
      r'.Within S := by
  induction i with
  | zero =>
    intro nPrev r r' hr h
    cases h
    exact hr
  | succ i ih =>
    intro nPrev r r' hr h
    obtain ⟨row, -, h⟩ := Option.bind_eq_some_iff.1 h
    dsimp only at h
    split at h
    · obtain ⟨cell, -, h⟩ := Option.bind_eq_some_iff.1 h
      split at h
      · obtain ⟨r₁, hpick, h⟩ := Option.bind_eq_some_iff.1 h
        exact ih (hitems.pick hr hpick) h
      · exact ih hr h
    · cases h

theorem addUnbundled_within {nTargetValue : Int} {vValue : List AgeCoin} :
    ∀ {r : CoinSelection}, (∀ v ∈ vValue, v.coin ∈ S) → r.Within S →
      (addUnbundled nTargetValue vValue r).Within S := by
  induction vValue with
  | nil => exact fun _ hr => hr
  | cons v vValue ih =>
    intro r hvalue hr
    rw [addUnbundled]
    split
    · exact ih (fun v hv => hvalue v (List.mem_cons_of_mem _ hv)) (hr.add (hvalue v List.mem_cons_self))
    · exact hr

theorem AgeItems.Within.dynamicProgram {items : AgeItems} (h : items.Within S)
    {nTargetValue denom : Int} {r r' : CoinSelection} (hr : r.Within S)
    (hresult : items.dynamicProgram nTargetValue denom r = some r') : r'.Within S := by
  rw [AgeItems.dynamicProgram] at hresult
  generalize (if (Int64.wrap (nTargetValue - r.nValueRet)).tmod denom ≠ 0 then (0 : Int) else 1) =
    nAppend at hresult
  split at hresult
  · obtain ⟨tables, -, hresult⟩ := Option.bind_eq_some_iff.1 hresult
    obtain ⟨r₁, htrace, hresult⟩ := Option.bind_eq_some_iff.1 hresult
    have hr₁ := traceBack_within h hr htrace
    split at hresult
    · cases hresult
      exact addUnbundled_within (fun v hv => h v (List.mem_of_mem_drop hv)) hr₁
    · cases hresult
      exact hr₁
  · cases hresult

theorem selectLowerByCoinAge_within {nTargetValue : Int} {vValue : List AgeCoin}
    (hvalue : ∀ v ∈ vValue, v.coin ∈ S) {r : CoinSelection}
    (h : selectLowerByCoinAge nTargetValue vValue = some r) : r.Within S := by
  rw [selectLowerByCoinAge] at h
  split at h
  · cases h
  · split at h
    · cases h
      intro c hc
      have hall : c ∈ (vValue.map AgeCoin.coin).foldl (fun set coin => insert coin set)
          (∅ : Finset WalletCoin) := by
        rw [List.foldl_map]
        exact hc
      rcases mem_insertAll hall with hc | hc
      · exact absurd hc (Finset.notMem_empty _)
      · obtain ⟨v, hv, rfl⟩ := List.mem_map.1 hc
        exact hvalue v hv
    · dsimp only at h
      split at h
      · cases h
      · split at h
        · obtain ⟨items, hbundles, h⟩ := Option.bind_eq_some_iff.1 h
          have hitems := bundleCoins_within hvalue hbundles
          split at h
          · obtain ⟨⟨items', r₁⟩, hprepick, h⟩ := Option.bind_eq_some_iff.1 h
            obtain ⟨hitems', hr₁⟩ := prepick_within hitems within_none hprepick
            dsimp only at h
            split at h
            · cases h
              exact hr₁
            · exact hitems'.dynamicProgram hr₁ h
          · exact hitems.dynamicProgram within_none h
        · refine AgeItems.Within.dynamicProgram (S := S) ?_ within_none h
          exact hvalue

theorem selectCoinsMinConfByCoinAge_within {limits : CoinLimits} {draws : AgeDraws}
    {nTargetValue : Int} {vCoins : List COutput} (hvCoins : ∀ out ∈ vCoins, out.coin.2 ∈ S)
    {r : CoinSelection} (h : selectCoinsMinConfByCoinAge limits draws nTargetValue vCoins = some r) :
    r.Within S := by
  obtain ⟨coins, hcoins, hcollects⟩ := collectByAge_spec limits draws nTargetValue vCoins
  have hall (v : AgeCoin) (hv : v ∈ coins) : v.coin ∈ S := by
    obtain ⟨out, hout, -, heq⟩ := CoinLimits.mem_coins.1 (hcoins.perm.subset (List.mem_map_of_mem hv))
    obtain ⟨-, hcoin⟩ := Prod.mk.inj heq
    rw [← hcoin]
    exact hvCoins out hout
  rw [selectCoinsMinConfByCoinAge] at h
  split at h
  · rcases hcollects.larger with hnone | ⟨coin, hcoin, -, hsome⟩
    · rw [hnone] at h
      cases h
      exact within_none
    · rw [hsome] at h
      cases h
      exact within_none.add (hall coin hcoin)
  · refine selectLowerByCoinAge_within (fun v hv => ?_) h
    rw [hcollects.vValue, List.nil_append] at hv
    exact hall v (List.mem_filter.1 hv).1

theorem selectMinConf_within {env : CreateEnv} {draws : CreateDraws} {k : Nat}
    {nConfMine nConfTheirs nTargetValue : Int} {nSpendTime : Nat} {vCoins : List COutput}
    (hvCoins : ∀ out ∈ vCoins, out.coin.2 ∈ S) {r : CoinSelection}
    (h : selectMinConf env draws k nConfMine nConfTheirs nTargetValue nSpendTime vCoins = some r) :
    r.Within S := by
  rw [selectMinConf] at h
  split at h
  · exact selectCoinsMinConfByCoinAge_within hvCoins h
  · cases h
    exact selectCoinsMinConf_within _ _ _ hvCoins

/-- **Selected coins are available**, whatever is computed of their amounts. -/
theorem selectCoins_within {C : Crypto} {env : CreateEnv} {draws : CreateDraws} {w : CWallet}
    {nTargetValue : Int} {nSpendTime : Nat} {coinControl : Option CCoinControl} {r : CoinSelection}
    (h : selectCoins C env draws w nTargetValue nSpendTime coinControl = some r) :
    r.Within {c | ∃ out ∈ env.vCoins C draws w coinControl, out.coin.2 = c} := by
  have hvCoins : ∀ out ∈ env.vCoins C draws w coinControl,
      out.coin.2 ∈ {c | ∃ out ∈ env.vCoins C draws w coinControl, out.coin.2 = c} :=
    fun out hout => ⟨out, hout, rfl⟩
  rw [selectCoins] at h
  dsimp only at h
  split at h
  · cases h
    have hall : (CoinSelection.ofCoins ((env.vCoins C draws w coinControl).map COutput.coin)).Within
        {c | ∃ out ∈ env.vCoins C draws w coinControl, out.coin.2 = c} :=
      within_ofCoins fun coin hcoin => by
        obtain ⟨out, hout, rfl⟩ := List.mem_map.1 hcoin
        exact hvCoins out hout
    exact hall
  · obtain ⟨r₀, h₀, h⟩ := Option.bind_eq_some_iff.1 h
    split at h
    · cases h
      exact selectMinConf_within hvCoins h₀
    · obtain ⟨r₁, h₁, h⟩ := Option.bind_eq_some_iff.1 h
      split at h
      · cases h
        exact selectMinConf_within hvCoins h₁
      · exact selectMinConf_within hvCoins h

end Within

/-! ## The change -/

/-- The destination that a coin pays to. -/
def coinDestination (hash160 : Valtype → Uint160) (c : WalletCoin) : Option CTxDestination :=
  (c.1.vout[c.2]?).bind fun txout => extractDestination hash160 txout.scriptPubKey

/-- The last destination is there if any is. -/
theorem utxoAddress_cases (hash160 : Valtype → Uint160) (coins : List WalletCoin) :
    (∃ c ∈ coins, coinDestination hash160 c = some (utxoAddress hash160 coins)) ∨
      (∀ c ∈ coins, coinDestination hash160 c = none) ∧ utxoAddress hash160 coins = .noDestination := by
  induction coins using List.reverseRecOn with
  | nil => exact .inr ⟨fun _ hc => absurd hc List.not_mem_nil, rfl⟩
  | append_singleton coins c ih =>
    have hlast : utxoAddress hash160 (coins ++ [c]) =
        (coinDestination hash160 c).getD (utxoAddress hash160 coins) := List.foldl_concat ..
    rw [hlast]
    cases hc : coinDestination hash160 c with
    | some destination =>
      exact .inl ⟨c, List.mem_append_right _ (List.mem_singleton.2 rfl), hc⟩
    | none =>
      rw [Option.getD_none]
      rcases ih with ⟨c', hc', hsome⟩ | ⟨hnone, hstart⟩
      · exact .inl ⟨c', List.mem_append_left _ hc', hsome⟩
      · refine .inr ⟨fun c' hc' => ?_, hstart⟩
        rcases List.mem_append.1 hc' with hc' | hc'
        · exact hnone c' hc'
        · rw [List.mem_singleton.1 hc', hc]

theorem isMine_of_mem_vCoins {C : Crypto} {env : CreateEnv} {draws : CreateDraws} {w : CWallet}
    {coinControl : Option CCoinControl} {out : COutput} (hout : out ∈ env.vCoins C draws w coinControl) :
    w.keys.isMine out.txout.scriptPubKey = true := by
  obtain ⟨⟨entry, out'⟩, hmem, rfl⟩ := List.mem_map.1 hout
  obtain ⟨-, -, hoffered⟩ := CoinView.mem_availableOutputs.1 hmem
  have hoffers := (CoinView.mem_outputsOf.1 hoffered).2.2
  unfold CoinView.offers at hoffers
  rw [Bool.and_eq_true, Bool.and_eq_true, Bool.and_eq_true] at hoffers
  exact hoffers.1.1.2

section Change

variable {C : Crypto} {env : CreateEnv} {h : Nat} {w : CWallet} {vecSend : List (CScript × Int)}
  {nSplitBlock : Int} {coinControl : Option CCoinControl}

/-- The script for the change is what the coin control asks for, or pays to a known key. -/
theorem changeScript_cases {hash160 : Valtype → Uint160} {address : CTxDestination} {pool : KeyPoolRun}
    (hknown : pool.KeysKnown)
    (hdestination : ∀ control, coinControl = some control → control.destChange = .noDestination)
    {scriptChange : CScript} {pool' : KeyPoolRun}
    (hscript : changeScript env.keyPool h hash160 coinControl address pool = some (scriptChange, pool')) :
    pool'.KeysKnown ∧ pool.wallet.keys ⊆ pool'.wallet.keys ∧
      if (coinControl.map CCoinControl.fReturnChange).getD false then
        scriptChange = setDestination address
      else ∃ vchPubKey ∈ pool'.wallet.keys,
        scriptChange = setDestination (.keyID (hash160 vchPubKey)) := by
  obtain ⟨hknown', hgrows, hlast⟩ := hknown.getReservedKey env.keyPool h
  -- the key that is reserved is the last thing that is seen
  have hreserved (hscript : changeScript env.keyPool h hash160 none address pool =
      some (scriptChange, pool')) :
      pool'.KeysKnown ∧ pool.wallet.keys ⊆ pool'.wallet.keys ∧
        ∃ vchPubKey ∈ pool'.wallet.keys,
          scriptChange = setDestination (.keyID (hash160 vchPubKey)) := by
    rw [changeScript, reservedKey] at hscript
    split at hscript
    · next vchPubKey pool₁ hkey =>
      obtain ⟨hseen, rfl⟩ := Prod.mk.inj hkey
      cases hscript
      refine ⟨hknown', hgrows.keys, vchPubKey, hlast vchPubKey ?_, rfl⟩
      split at hseen
      · next hevent => rw [hevent, Option.some.inj hseen]
      · cases hseen
    · cases hscript
  cases coinControl with
  | none => exact hreserved hscript
  | some control =>
    rw [changeScript] at hscript
    rw [Option.map_some, Option.getD_some]
    split at hscript
    · next hreturn =>
      cases hscript
      rw [if_pos hreturn]
      exact ⟨hknown, List.Subset.refl _, rfl⟩
    · next hreturn =>
      rw [if_neg (not_not.2 (hdestination control rfl))] at hscript
      rw [if_neg hreturn]
      exact hreserved hscript

/-- The coins that the user selected are all taken. -/
theorem mem_selectCoins_of_hasSelected {draws : CreateDraws} {nTargetValue : Int} {nSpendTime : Nat}
    (hselected : (coinControl.map CCoinControl.hasSelected).getD false = true) {r : CoinSelection}
    (hr : selectCoins C env draws w nTargetValue nSpendTime coinControl = some r) {c : WalletCoin} :
    c ∈ r.setCoinsRet ↔ ∃ out ∈ env.vCoins C draws w coinControl, out.coin.2 = c := by
  rw [selectCoins] at hr
  dsimp only at hr
  rw [if_pos hselected] at hr
  cases hr
  have hset := (foldl_add_spec ((env.vCoins C draws w coinControl).map COutput.coin) ⟨true, ∅, 0⟩ 0
    Int64.wrap_zero.symm).2.1
  rw [Finset.empty_union] at hset
  have hall : c ∈ (CoinSelection.ofCoins ((env.vCoins C draws w coinControl).map COutput.coin)).setCoinsRet ↔
      ∃ out ∈ env.vCoins C draws w coinControl, out.coin.2 = c := by
    rw [CoinSelection.ofCoins, hset, List.mem_toFinset, List.map_map, List.mem_map]
    rfl
  exact hall

/-- The coins that a transaction spends are what `SelectCoins` selects in a round. -/
def CreatedTx.SelectedIn (C : Crypto) (env : CreateEnv) (w : CWallet) (coinControl : Option CCoinControl)
    (draws : CreateDraws) (nSpendTime : Nat) (r : CreatedTx) : Prop :=
  ∃ keys nTargetValue sel,
    selectCoins C env draws (w.withKeys keys) nTargetValue nSpendTime coinControl = some sel ∧
      ∀ c, c ∈ r.coins ↔ c ∈ sel.setCoinsRet

/-- **The change is the wallet's** if and only if, where it is to be returned, a coin that is spent pays
to a destination. -/
def CreatedTx.ChangeLaw (w : CWallet) (coinControl : Option CCoinControl) (r : CreatedTx) : Prop :=
  ∀ position txout, r.change = some (position, txout) →
    ((w.withKeys r.pool.wallet.keys).keys.isMine txout.scriptPubKey = true ↔
      ((coinControl.map CCoinControl.fReturnChange).getD false = true →
        ∃ c ∈ r.coins, (coinDestination w.keys.hash160 c).isSome = true))

variable (hwidth : ∀ vchPubKey, w.keys.hash160 vchPubKey < 2 ^ 160)
  (hdestination : ∀ control, coinControl = some control → control.destChange = .noDestination)

omit hwidth in
include hdestination in
theorem knownKeys_of_createRound {draws : CreateDraws} {wtxNew : CTransaction} {nValue nFeeRet : Int}
    {pool : KeyPoolRun} (hknown : pool.KeysKnown) {nFeeRet' : Int} {pool' : KeyPoolRun}
    (hr : createRound C env h w vecSend nSplitBlock coinControl draws wtxNew nValue nFeeRet pool =
      .again nFeeRet' pool') : pool'.KeysKnown := by
  rcases createRound_cases C env h w vecSend nSplitBlock coinControl draws wtxNew nValue nFeeRet pool with
    hcase | hcase | ⟨sel, -, -, ⟨-, scriptChange, pool₁, hscript, hcase⟩ | ⟨-, hcase⟩⟩
  · cases hcase.symm.trans hr
  · cases hcase.symm.trans hr
  · rw [(finishRound_again (hcase.symm.trans hr)).2]
    exact (changeScript_cases hknown hdestination hscript).1
  · rw [(finishRound_again (hcase.symm.trans hr)).2]
    exact hknown.returnKey h

include hwidth hdestination in
/-- **The change of a round** is the wallet's unless it is returned to no destination. -/
theorem changeLaw_of_createRound {draws : CreateDraws} {wtxNew : CTransaction} {nValue nFeeRet : Int}
    {pool : KeyPoolRun} (hknown : pool.KeysKnown) {r : CreatedTx}
    (hr : createRound C env h w vecSend nSplitBlock coinControl draws wtxNew nValue nFeeRet pool =
      .created r) :
    r.ChangeLaw w coinControl ∧ r.SelectedIn C env w coinControl draws wtxNew.nTime := by
  have hselected (sel : CoinSelection) (hsel : selectCoins C env draws (w.withKeys pool.wallet.keys)
      (Int64.wrap (nValue + nFeeRet)) wtxNew.nTime coinControl = some sel)
      (hcoins : r.coins = draws.order sel.setCoinsRet) :
      r.SelectedIn C env w coinControl draws wtxNew.nTime :=
    ⟨_, _, sel, hsel, fun c => hcoins ▸ draws.mem_order _ c⟩
  rcases createRound_cases C env h w vecSend nSplitBlock coinControl draws wtxNew nValue nFeeRet pool with
    hcase | hcase | ⟨sel, hsel, -, ⟨-, scriptChange, pool', hscript, hcase⟩ | ⟨-, hcase⟩⟩
  · cases hcase.symm.trans hr
  · cases hcase.symm.trans hr
  · obtain ⟨-, -, hcoins, hchange, hpool, -, -⟩ := finishRound_created (hcase.symm.trans hr)
    refine ⟨fun position txout hsome => ?_, hselected sel hsel hcoins⟩
    obtain ⟨-, rfl⟩ := Prod.mk.inj (Option.some.inj (hchange.symm.trans hsome))
    obtain ⟨-, hkeys, hcases⟩ := changeScript_cases hknown hdestination hscript
    dsimp only
    rw [hpool]
    split at hcases
    · next hreturn =>
      rw [hcases, hreturn, hcoins]
      rcases utxoAddress_cases w.keys.hash160 (draws.order sel.setCoinsRet) with
        ⟨c, hc, hsome⟩ | ⟨hnone, hstart⟩
      · -- the last destination of a coin that is the wallet's
        refine iff_of_true ?_ fun _ => ⟨c, hc, Option.isSome_iff_exists.2 ⟨_, hsome⟩⟩
        obtain ⟨out, hout, rfl⟩ := selectCoins_within hsel c ((draws.mem_order _ c).1 hc)
        obtain ⟨txout, htxout, hdest⟩ := Option.bind_eq_some_iff.1 hsome
        obtain rfl := Option.some.inj (out.vout_eq.symm.trans htxout)
        exact isMine_withKeys_mono hkeys
          (OwnKeys.isMine_setDestination hwidth (isMine_of_mem_vCoins hout) hdest)
      · refine iff_of_false ?_ fun hall => ?_
        · rw [hstart, OwnKeys.isMine_noDestination]
          exact Bool.false_ne_true
        · obtain ⟨c, hc, hsome⟩ := hall rfl
          rw [hnone c hc] at hsome
          cases hsome
    · next hreturn =>
      obtain ⟨vchPubKey, hmem, rfl⟩ := hcases
      refine iff_of_true (OwnKeys.isMine_keyID (hwidth vchPubKey) ?_) fun h => absurd h hreturn
      exact List.any_eq_true.2 ⟨vchPubKey, hmem, beq_self_eq_true _⟩
  · obtain ⟨-, -, hcoins, hchange, -, -, -⟩ := finishRound_created (hcase.symm.trans hr)
    refine ⟨fun position txout hsome => ?_, hselected sel hsel hcoins⟩
    cases hchange.symm.trans hsome

include hwidth hdestination in
theorem changeLaw_of_createRounds {draws : Nat → CreateDraws} {wtxNew : CTransaction} {nValue : Int}
    {rounds : Nat} :
    ∀ {round : Nat} {nFeeRet : Int} {pool : KeyPoolRun}, pool.KeysKnown → ∀ {r : CreatedTx},
      createRounds C env h w vecSend nSplitBlock coinControl draws wtxNew nValue rounds round nFeeRet pool =
        .created r →
      r.ChangeLaw w coinControl ∧ ∃ k, r.SelectedIn C env w coinControl (draws k) wtxNew.nTime := by
  induction rounds with
  | zero =>
    intro round nFeeRet pool _ r hr
    cases hr
  | succ rounds ih =>
    intro round nFeeRet pool hknown r hr
    rw [createRounds] at hr
    split at hr
    · next hround => exact ih (knownKeys_of_createRound hdestination hknown hround) hr
    · obtain ⟨hlaw, hselected⟩ := changeLaw_of_createRound hwidth hdestination hknown hr
      exact ⟨hlaw, round, hselected⟩

include hwidth hdestination in
/-- **Whether the change is the wallet's.** In every call whose coin control has no address for the
change it is, unless it is to be returned and no coin that is selected pays to a destination. -/
theorem createTransaction_change_iff {pool : KeyPoolRun} (hknown : pool.KeysKnown)
    (draws : Nat → CreateDraws) (wtxNew : CTransaction) (rounds : Nat) {r : CreatedTx}
    (hr : createTransaction C env h w vecSend nSplitBlock coinControl draws wtxNew pool rounds =
      .created r) :
    r.ChangeLaw w coinControl ∧
      (∃ k, r.SelectedIn C env w coinControl (draws k) wtxNew.nTime) ∧
      ((coinControl.map CCoinControl.hasSelected).getD false = true → ∃ k keys, ∀ c,
        c ∈ r.coins ↔ ∃ out ∈ env.vCoins C (draws k) (w.withKeys keys) coinControl, out.coin.2 = c) := by
  have hrounds : r.ChangeLaw w coinControl ∧
      ∃ k, r.SelectedIn C env w coinControl (draws k) wtxNew.nTime := by
    rw [createTransaction] at hr
    split at hr
    · cases hr
    · split at hr
      · cases hr
      · exact changeLaw_of_createRounds hwidth hdestination hknown hr
  obtain ⟨hlaw, k, keys, nTargetValue, sel, hsel, hcoins⟩ := hrounds
  refine ⟨hlaw, ⟨k, keys, nTargetValue, sel, hsel, hcoins⟩, fun hselected => ⟨k, keys, fun c => ?_⟩⟩
  rw [hcoins c, mem_selectCoins_of_hasSelected hselected hsel]

end Change

/-! ## Change that is returned -/

/-- The wallet with a confirmed transaction, whose keys have hashes of the right width. -/
def returningWallet (tx : CTransaction) : CWallet :=
  { confirmedWallet tx with keys := ⟨fun vchPubKey => ofLE vchPubKey % 2 ^ 160, fun _ => false, ∅⟩ }

/-- Its outputs are selected, and the change is to be returned. -/
noncomputable def returnFrom (tx : CTransaction) : CreateResult :=
  createTransaction (confirmedCrypto tx) (confirmedEnv tx) 0 (returningWallet tx) [([], 20000)] 1
    (some ⟨.noDestination, true, [⟨1, 0⟩]⟩) (fun _ => firstDraws tx) ⟨1, 2000, [], [], 0⟩ ownPool 101

theorem ownPool_keysKnown : ownPool.KeysKnown :=
  ⟨fun hvalid => absurd hvalid (by decide),
    fun _ (hvalid : isValidPubKey [] = true) => absurd hvalid (by decide)⟩

/-- The change of a payment to a key returns to it. -/
theorem createTransaction_change_incomeTx : ∃ r position txout, returnFrom incomeTx = .created r ∧
    r.change = some (position, txout) ∧
      ((returningWallet incomeTx).withKeys r.pool.wallet.keys).keys.isMine txout.scriptPubKey = true := by
  have hrun : (returnFrom incomeTx).made.map (fun r => (r.change.isSome, r.coins.any fun c =>
      (coinDestination (returningWallet incomeTx).keys.hash160 c).isSome)) = some (true, true) := by
    decide +kernel
  obtain ⟨r, hmade, hr⟩ := Option.map_eq_some_iff.1 hrun
  obtain ⟨hsome, hany⟩ := Prod.mk.inj hr
  obtain ⟨⟨position, txout⟩, hchange⟩ := Option.isSome_iff_exists.1 hsome
  have hcreated := CreateResult.made_eq_some.1 hmade
  refine ⟨r, position, txout, hcreated, hchange, ?_⟩
  refine ((createTransaction_change_iff (fun _ => Nat.mod_lt _ (by norm_num)) (fun control hcontrol => ?_)
    ownPool_keysKnown _ _ _ hcreated).1 position txout hchange).2 fun _ => List.any_eq_true.1 hany
  obtain rfl := Option.some.inj hcontrol
  rfl

/-- A payment to one of one keys. -/
def multiSigTx : CTransaction :=
  ⟨1, 1000, [⟨⟨7, 0⟩, [], 4294967295⟩],
    [⟨50000, ofOpcode OP_1 ++ pushData ownPubKey ++ ofOpcode OP_1 ++ ofOpcode OP_CHECKMULTISIG⟩], 0⟩

/-- **The change is lost**: a coin that the wallet can sign for is spent, and the change goes to an
empty script. -/
theorem not_createTransaction_change_multiSig : ∃ r position txout, returnFrom multiSigTx = .created r ∧
    r.change = some (position, txout) ∧ txout.nValue = 29980 ∧ txout.scriptPubKey = [] ∧
      ((returningWallet multiSigTx).withKeys r.pool.wallet.keys).keys.isMine txout.scriptPubKey = false := by
  have hrun : (returnFrom multiSigTx).made.map (fun r => (r.change, (r.change.map fun change =>
      ((returningWallet multiSigTx).withKeys r.pool.wallet.keys).keys.isMine
        change.2.scriptPubKey).getD true)) = some (some (0, ⟨29980, []⟩), false) := by
    decide +kernel
  obtain ⟨r, hmade, hr⟩ := Option.map_eq_some_iff.1 hrun
  obtain ⟨hchange, hmine⟩ := Prod.mk.inj hr
  rw [hchange] at hmine
  exact ⟨r, 0, ⟨29980, []⟩, CreateResult.made_eq_some.1 hmade, hchange, rfl, rfl, hmine⟩

end MotaCoin
