import MotaCoin.KeyStore

/-!
# The key store is transparent to encryption

Where the crypto library works as documented, the key store behaves like a map from ids to keys
that is sometimes locked: whatever was encrypted, locked and unlocked on the way, an unlocked store
returns the keys last added, and a locked one returns none. What carries this over all runs is that
one of the two maps is empty, and that all encrypted keys are under one master key.

## Main definitions

* `KeyCrypto.Works`: the crypto library works as documented
* `Plain`, `Crypted`: what a store holds before and after it is encrypted

## Main results

* `Crypted.unlock_iff`: a master key unlocks the store iff it is the one
* `Reached.kept`: every store that is reached is plain or encrypted
* `keyStore_transparent`: what `GetKey` returns in every store that is reached
-/

namespace MotaCoin

/-- The crypto library works as documented: what is written of a public key can be read, and its
form told from its length; decryption undoes encryption; and a wrong key fails the comparison of the
public keys. -/
structure KeyCrypto.Works (P : KeyCrypto) : Prop where
  isPoint_pubKey : ∀ s c, P.isPoint (P.pubKey s c) = true
  pubKey_form : ∀ s c, P.pubKey s ((P.pubKey s c).length == 33) = P.pubKey s c
  decrypt_encrypt : ∀ k iv p, P.decrypt k iv (P.encrypt k iv p) = some p
  wrong_key : ∀ k k' s c s', k ≠ k' → s.length = 32 →
    P.decrypt k' (P.hash (P.pubKey s c)) (P.encrypt k (P.hash (P.pubKey s c)) s) = some s' →
    s'.length = 32 → P.pubKey s' ((P.pubKey s c).length == 33) ≠ P.pubKey s c

variable {P : KeyCrypto}

/-! ## Keys -/

/-- A key has this secret and this public key. -/
def CKey.Has (P : KeyCrypto) (key : CKey) (vchSecret : CSecret) (vchPubKey : Valtype) : Prop :=
  (∃ fCompressed, key.getSecret = .ok (vchSecret, fCompressed)) ∧ key.getPubKey P = .ok vchPubKey

theorem CKey.exists_setSecret_fresh {s : CSecret} (hs : s.length = 32) (c : Bool) :
    ∃ key, CKey.fresh.setSecret s c = .ok key ∧ key.getSecret = .ok (s, c) ∧
      key.getPubKey P = .ok (P.pubKey s c) := by
  unfold setSecret
  rw [if_neg (not_not.mpr hs)]
  cases c <;> exact ⟨_, rfl, rfl, rfl⟩

theorem CKey.exists_setSecret_setPubKey {vchPubKey : Valtype} (hpoint : P.isPoint vchPubKey = true)
    {s : CSecret} (hs : s.length = 32) :
    ∃ key, (CKey.fresh.setPubKey P vchPubKey).setSecret s false = .ok key ∧
      (∃ c, key.getSecret = .ok (s, c)) ∧
      key.getPubKey P = .ok (P.pubKey s (vchPubKey.length == 33)) := by
  unfold setPubKey setSecret
  rw [if_pos hpoint, if_neg (not_not.mpr hs)]
  by_cases hlen : vchPubKey.length = 33
  · dsimp only
    rw [if_pos hlen, hlen]
    exact ⟨_, rfl, ⟨_, rfl⟩, rfl⟩
  · have hform : (vchPubKey.length == 33) = false := beq_eq_false_iff_ne.mpr hlen
    dsimp only
    rw [if_neg hlen, hform]
    exact ⟨_, rfl, ⟨_, rfl⟩, rfl⟩

theorem PrivateKey.getSecret_eq (key : PrivateKey) :
    key.key.getSecret = .ok (key.vchSecret, key.key.fCompressedPubKey) := by
  unfold CKey.getSecret
  rw [key.pkey_eq]
  rfl

theorem PrivateKey.getPubKey_eq (key : PrivateKey) : key.key.getPubKey P = .ok (key.pubKey P) := by
  unfold CKey.getPubKey
  rw [key.pkey_eq]
  rfl

@[simp] theorem KeyM.ok_bind {α β : Type} (a : α) (f : α → KeyM β) :
    (Except.ok a >>= f : KeyM β) = f a := rfl

namespace CCryptoKeyStore

variable {store store' : CCryptoKeyStore} {keys : AddedKeys} {K : CKeyingMaterial}

/-! ## Before and after encryption -/

/-- A store that is not encrypted: the plain keys are the keys added. -/
structure Plain (P : KeyCrypto) (store : CCryptoKeyStore) (keys : AddedKeys) : Prop where
  fUseCrypto : store.fUseCrypto = false
  vMasterKey : store.vMasterKey = []
  mapCryptedKeys : store.mapCryptedKeys = ∅
  keys_eq : ∀ id, keys id = (store.mapKeys.lookup id).map fun v => (v.1, P.pubKey v.1 v.2)
  length_eq : ∀ id v, store.mapKeys.lookup id = some v → v.1.length = 32
  hash_eq : ∀ id v, store.mapKeys.lookup id = some v → P.hash160 (P.pubKey v.1 v.2) = id

/-- What is kept of a key under the master key `K`. -/
structure Sealed (P : KeyCrypto) (K : CKeyingMaterial) (v : Valtype × Valtype)
    (key : CSecret × Valtype) : Prop where
  length_key : K.length = WALLET_CRYPTO_KEY_SIZE
  length_eq : key.1.length = 32
  pubKey : ∃ c, key.2 = P.pubKey key.1 c
  eq : v = (key.2, P.encrypt K (P.hash key.2) key.1)

/-- A store that is encrypted: the keys added are all there under one master key, which is the
store's own unless that is cleared or no key is there. -/
structure Crypted (P : KeyCrypto) (K : CKeyingMaterial) (store : CCryptoKeyStore)
    (keys : AddedKeys) : Prop where
  fUseCrypto : store.fUseCrypto = true
  mapKeys : store.mapKeys = ∅
  keys_rel : ∀ id, Option.Rel (Sealed P K) (store.mapCryptedKeys.lookup id) (keys id)
  vMasterKey : store.vMasterKey = [] ∨ store.mapCryptedKeys = ∅ ∨ store.vMasterKey = K

/-- Plain or encrypted. -/
def Kept (P : KeyCrypto) (store : CCryptoKeyStore) (keys : AddedKeys) : Prop :=
  Plain P store keys ∨ ∃ K, Crypted P K store keys

theorem plain_empty : Plain P .empty fun _ => none :=
  ⟨rfl, rfl, rfl, fun _ => rfl, nofun, nofun⟩

/-! ## Adding a key -/

theorem Plain.addKey (h : Plain P store keys) (key : PrivateKey) :
    ∃ store', store.addKey P key.key = .ok (true, store') ∧
      Plain P store' (key.added P keys) := by
  have hcrypted : store.isCrypted = false := h.fUseCrypto
  unfold CCryptoKeyStore.addKey
  rw [hcrypted, if_pos (by rfl)]
  unfold basicAddKey
  rw [key.getSecret_eq, KeyM.ok_bind, key.getPubKey_eq, KeyM.ok_bind]
  refine ⟨_, rfl, h.fUseCrypto, h.vMasterKey, h.mapCryptedKeys, fun id => ?_, fun id v hv => ?_,
    fun id v hv => ?_⟩
  · unfold PrivateKey.added PrivateKey.pubKey
    split_ifs with hid
    · rw [hid, AList.lookup_insert, key.form_eq]
      rfl
    · rw [AList.lookup_insert_ne hid, h.keys_eq]
  · by_cases hid : id = P.hash160 (key.pubKey P)
    · rw [hid, AList.lookup_insert] at hv
      obtain rfl := Option.some.inj hv
      exact key.length_eq
    · rw [AList.lookup_insert_ne hid] at hv
      exact h.length_eq id v hv
  · by_cases hid : id = P.hash160 (key.pubKey P)
    · rw [hid, AList.lookup_insert] at hv
      obtain rfl := Option.some.inj hv
      rw [hid, PrivateKey.pubKey, key.form_eq]
    · rw [AList.lookup_insert_ne hid] at hv
      exact h.hash_eq id v hv

/-- An encrypted store takes a key when it is unlocked, under the key it was unlocked with. -/
theorem Crypted.addKey (h : Crypted P K store keys) (key : PrivateKey) :
    ∃ fAdded store', store.addKey P key.key = .ok (fAdded, store') ∧
      (fAdded = false → store' = store) ∧
      (fAdded = true → ∃ K', Crypted P K' store' (key.added P keys)) := by
  have hcrypted : store.isCrypted = true := h.fUseCrypto
  unfold CCryptoKeyStore.addKey
  rw [hcrypted, if_neg (by decide)]
  by_cases hlocked : store.isLocked
  · rw [if_pos hlocked]
    exact ⟨false, store, rfl, fun _ => rfl, nofun⟩
  · rw [if_neg hlocked, key.getPubKey_eq, KeyM.ok_bind, key.getSecret_eq, KeyM.ok_bind]
    unfold encryptSecret
    by_cases hlen : store.vMasterKey.length = WALLET_CRYPTO_KEY_SIZE
    · rw [if_neg (not_not.mpr hlen)]
      have hset : store.setCrypted = (true, store) := if_pos h.fUseCrypto
      unfold addCryptedKey
      rw [hset]
      refine ⟨true, _, rfl, nofun, fun _ => ⟨store.vMasterKey, h.fUseCrypto, h.mapKeys,
        fun id => ?_, .inr (.inr rfl)⟩⟩
      unfold PrivateKey.added
      dsimp only
      split_ifs with hid
      · rw [hid, AList.lookup_insert]
        exact .some ⟨hlen, key.length_eq, ⟨_, rfl⟩, rfl⟩
      · rw [AList.lookup_insert_ne hid]
        -- the keys that were there are under the same master key
        have hrel := h.keys_rel id
        rcases h.vMasterKey with hnil | hempty | hK
        · rw [hnil] at hlen
          cases hlen
        · rw [hempty, AList.lookup_empty] at hrel ⊢
          generalize keys id = o at hrel ⊢
          cases hrel
          exact .none
        · rw [hK]
          exact hrel
    · rw [if_pos hlen]
      exact ⟨false, store, rfl, fun _ => rfl, nofun⟩

/-! ## Locking and unlocking -/

/-- A plain store can be marked as encrypted only while it is empty. -/
theorem Plain.setCrypted (h : Plain P store keys) :
    store.setCrypted = (false, store) ∨
      ∃ store', store.setCrypted = (true, store') ∧ store'.vMasterKey = [] ∧
        ∀ K, Crypted P K store' keys := by
  have hcrypted : store.fUseCrypto = false := h.fUseCrypto
  unfold CCryptoKeyStore.setCrypted
  rw [hcrypted, if_neg Bool.false_ne_true]
  by_cases hnil : store.mapKeys.entries = []
  · rw [if_neg (not_not.mpr hnil)]
    have hempty : store.mapKeys = ∅ := AList.ext hnil
    refine .inr ⟨_, rfl, h.vMasterKey, fun K => ⟨rfl, hempty, fun id => ?_, .inl h.vMasterKey⟩⟩
    change Option.Rel _ (store.mapCryptedKeys.lookup id) _
    rw [h.keys_eq, hempty, h.mapCryptedKeys]
    exact .none
  · exact .inl (if_pos hnil)

theorem Crypted.setCrypted (h : Crypted P K store keys) : store.setCrypted = (true, store) :=
  if_pos h.fUseCrypto

/-- Keys that are there stay there when the master key is cleared, or set while there is no key. -/
theorem Crypted.setMasterKey (h : Crypted P K store keys) {vMasterKey : CKeyingMaterial}
    (hkey : vMasterKey = [] ∨ store.mapCryptedKeys = ∅ ∨ vMasterKey = K) :
    Crypted P K { store with vMasterKey := vMasterKey } keys :=
  ⟨h.fUseCrypto, h.mapKeys, h.keys_rel, hkey⟩

theorem Kept.lock (h : Kept P store keys) : Kept P store.lock.2 keys := by
  unfold CCryptoKeyStore.lock
  rcases h with h | ⟨K, h⟩
  · rcases h.setCrypted with hset | ⟨store', hset, -, h'⟩
    · rw [hset]
      exact .inl h
    · rw [hset]
      exact .inr ⟨[], (h' []).setMasterKey (.inl rfl)⟩
  · rw [h.setCrypted]
    exact .inr ⟨K, h.setMasterKey (.inl rfl)⟩

theorem firstCrypted_eq_none : store.firstCrypted = none ↔ store.mapCryptedKeys = ∅ := by
  unfold firstCrypted
  rw [Option.map_eq_none_iff, List.argmin_eq_none]
  exact ⟨fun h => AList.ext h, fun h => h ▸ rfl⟩

theorem exists_lookup_of_firstCrypted {v : Valtype × Valtype} (h : store.firstCrypted = some v) :
    ∃ id, store.mapCryptedKeys.lookup id = some v := by
  obtain ⟨⟨id, v'⟩, harg, hv⟩ := Option.map_eq_some_iff.mp h
  obtain rfl : v' = v := hv
  exact ⟨id, AList.mem_lookup_iff.mpr (List.argmin_mem harg)⟩

theorem Crypted.sealed_of_lookup (h : Crypted P K store keys) {id : Uint160} {v : Valtype × Valtype}
    (hv : store.mapCryptedKeys.lookup id = some v) : ∃ key, keys id = some key ∧ Sealed P K v key := by
  have hrel := h.keys_rel id
  rw [hv] at hrel
  generalize keys id = o at hrel ⊢
  cases hrel with
  | some hsealed => exact ⟨_, rfl, hsealed⟩

/-- **One test is enough**: where keys are there, a master key unlocks the store just when it is the
one they are all under. -/
theorem Crypted.unlock_iff (hP : P.Works) (h : Crypted P K store keys) (vMasterKeyIn : CKeyingMaterial) :
    ∃ fUnlocked, store.unlock P vMasterKeyIn =
        .ok (fUnlocked, if fUnlocked then { store with vMasterKey := vMasterKeyIn } else store) ∧
      (fUnlocked = true ↔ store.mapCryptedKeys = ∅ ∨ vMasterKeyIn = K) := by
  unfold CCryptoKeyStore.unlock
  rw [h.setCrypted]
  dsimp only
  cases hfirst : store.firstCrypted with
  | none => exact ⟨true, rfl, by simp [firstCrypted_eq_none.mp hfirst]⟩
  | some v =>
    have hne : store.mapCryptedKeys ≠ ∅ := by
      intro hempty
      rw [firstCrypted_eq_none.mpr hempty] at hfirst
      cases hfirst
    obtain ⟨id, hv⟩ := exists_lookup_of_firstCrypted hfirst
    obtain ⟨⟨s, vchPubKey⟩, -, hK, hs, ⟨c, hc⟩, rfl⟩ := h.sealed_of_lookup hv
    obtain rfl : vchPubKey = P.pubKey s c := hc
    dsimp only at hs ⊢
    simp only [hne, false_or]
    by_cases heq : vMasterKeyIn = K
    · -- the right key
      subst heq
      obtain ⟨key, hset, -, hpub⟩ :=
        CKey.exists_setSecret_setPubKey (P := P) (hP.isPoint_pubKey s c) hs
      unfold decryptSecret
      rw [if_neg (not_not.mpr hK), hP.decrypt_encrypt]
      dsimp only
      rw [if_neg (not_not.mpr hs), hset, KeyM.ok_bind, hpub, KeyM.ok_bind, hP.pubKey_form]
      rw [if_pos rfl]
      exact ⟨true, rfl, iff_of_true rfl rfl⟩
    · refine ⟨false, ?_, iff_of_false Bool.false_ne_true heq⟩
      unfold decryptSecret
      by_cases hlen : vMasterKeyIn.length = WALLET_CRYPTO_KEY_SIZE
      · rw [if_neg (not_not.mpr hlen)]
        cases hdec : P.decrypt vMasterKeyIn (P.hash (P.pubKey s c))
            (P.encrypt K (P.hash (P.pubKey s c)) s) with
        | none => rfl
        | some s' =>
          dsimp only
          by_cases hs' : s'.length = 32
          · have hwrong := hP.wrong_key K vMasterKeyIn s c s' (Ne.symm heq) hs hdec hs'
            obtain ⟨key, hset, -, hpub⟩ :=
              CKey.exists_setSecret_setPubKey (P := P) (hP.isPoint_pubKey s c) hs'
            rw [if_neg (not_not.mpr hs'), hset, KeyM.ok_bind, hpub, KeyM.ok_bind, if_neg hwrong]
            rfl
          · rw [if_pos hs']
            rfl
      · rw [if_pos hlen]
        rfl

theorem Kept.unlock (hP : P.Works) (h : Kept P store keys) (vMasterKeyIn : CKeyingMaterial) :
    ∃ r, store.unlock P vMasterKeyIn = .ok r ∧ Kept P r.2 keys := by
  rcases h with h | ⟨K, h⟩
  · rcases h.setCrypted with hset | ⟨store', hset, -, h'⟩
    · refine ⟨(false, store), ?_, .inl h⟩
      unfold CCryptoKeyStore.unlock
      rw [hset]
      rfl
    · -- there is no key yet, and so nothing to test
      have hK := h' vMasterKeyIn
      obtain ⟨fUnlocked, hunlock, -⟩ := hK.unlock_iff hP vMasterKeyIn
      have hsame : store.unlock P vMasterKeyIn = store'.unlock P vMasterKeyIn := by
        unfold CCryptoKeyStore.unlock
        rw [hset, hK.setCrypted]
      refine ⟨_, hsame.trans hunlock, .inr ⟨vMasterKeyIn, ?_⟩⟩
      dsimp only
      split_ifs
      · exact hK.setMasterKey (.inr (.inr rfl))
      · exact hK
  · obtain ⟨fUnlocked, hunlock, hiff⟩ := h.unlock_iff hP vMasterKeyIn
    refine ⟨_, hunlock, .inr ⟨K, ?_⟩⟩
    dsimp only
    split_ifs with hf
    · exact h.setMasterKey (.inr (hiff.mp hf))
    · exact h

/-! ## Encrypting -/

/-- An entry of the plain keys as it is kept under a master key. -/
def sealEntry (P : KeyCrypto) (K : CKeyingMaterial) (v : CSecret × Bool) : Valtype × Valtype :=
  (P.pubKey v.1 v.2, P.encrypt K (P.hash (P.pubKey v.1 v.2)) v.1)

/-- The loop of `EncryptKeys` moves the keys over, one by one. -/
theorem encryptLoop_spec (store : CCryptoKeyStore) (mKeys : List ((_ : Uint160) × (CSecret × Bool)))
    (hnodup : mKeys.NodupKeys) (hcrypted : store.fUseCrypto = true)
    (hlen : ∀ e ∈ mKeys, e.2.1.length = 32)
    (hhash : ∀ e ∈ mKeys, P.hash160 (P.pubKey e.2.1 e.2.2) = e.1) :
    ∃ r, encryptLoop P K mKeys store = .ok r ∧ (r.1 = true →
      r.2.fUseCrypto = true ∧ r.2.mapKeys = ∅ ∧ r.2.vMasterKey = store.vMasterKey ∧
      (mKeys ≠ [] → K.length = WALLET_CRYPTO_KEY_SIZE) ∧
      ∀ id, r.2.mapCryptedKeys.lookup id =
        ((mKeys.dlookup id).map (sealEntry P K)).or (store.mapCryptedKeys.lookup id)) := by
  induction mKeys generalizing store with
  | nil =>
    refine ⟨_, rfl, fun _ => ⟨hcrypted, rfl, rfl, fun h => absurd rfl h, fun id => rfl⟩⟩
  | cons e mKeys ih =>
    obtain ⟨id', s, c⟩ := e
    obtain ⟨hs, hlen'⟩ := List.forall_mem_cons.mp hlen
    obtain ⟨hid', hhash'⟩ := List.forall_mem_cons.mp hhash
    obtain ⟨key, hset, hsecret, hpub⟩ := CKey.exists_setSecret_fresh (P := P) hs c
    unfold encryptLoop
    dsimp only at hs hid' ⊢
    rw [hset, KeyM.ok_bind, hpub, KeyM.ok_bind, hsecret, KeyM.ok_bind]
    unfold encryptSecret
    by_cases hK : K.length = WALLET_CRYPTO_KEY_SIZE
    · rw [if_neg (not_not.mpr hK)]
      unfold addCryptedKey
      have hsetCrypted : store.setCrypted = (true, store) := if_pos hcrypted
      rw [hsetCrypted]
      dsimp only
      obtain ⟨r, hr, hspec⟩ := ih { store with
        mapCryptedKeys := store.mapCryptedKeys.insert (P.hash160 (P.pubKey s c))
          (P.pubKey s c, P.encrypt K (P.hash (P.pubKey s c)) s) }
        (List.nodupKeys_cons.mp hnodup).2 hcrypted hlen' hhash'
      refine ⟨r, hr, fun htrue => ?_⟩
      obtain ⟨huse, hplain, hmaster, -, hlookup⟩ := hspec htrue
      refine ⟨huse, hplain, hmaster, fun _ => hK, fun id => ?_⟩
      rw [hlookup]
      dsimp only
      rw [hid']
      by_cases hid : id = id'
      · -- no later entry has this id
        subst hid
        have hnone : mKeys.dlookup id = none :=
          List.dlookup_eq_none.mpr (List.nodupKeys_cons.mp hnodup).1
        rw [hnone, AList.lookup_insert, List.dlookup_cons_eq]
        rfl
      · rw [AList.lookup_insert_ne hid, List.dlookup_cons_ne _ _ hid]
    · rw [if_pos hK]
      exact ⟨(false, store), rfl, nofun⟩

theorem Plain.encryptKeys (h : Plain P store keys) (K : CKeyingMaterial) :
    ∃ r, store.encryptKeys P K = .ok r ∧
      (r.1 = true → Crypted P K r.2 keys ∧ r.2.vMasterKey = []) := by
  have hcond : ¬(store.mapCryptedKeys.entries ≠ [] ∨ store.isCrypted = true) := by
    rw [h.mapCryptedKeys, show store.isCrypted = false from h.fUseCrypto]
    simp
  have hlookup {e : (_ : Uint160) × (CSecret × Bool)} (he : e ∈ store.mapKeys.entries) :
      store.mapKeys.lookup e.1 = some e.2 := AList.mem_lookup_iff.mpr he
  unfold CCryptoKeyStore.encryptKeys
  rw [if_neg hcond]
  obtain ⟨r, hr, hspec⟩ := encryptLoop_spec (P := P) (K := K)
    { store with fUseCrypto := true } store.mapKeys.entries store.mapKeys.nodupKeys rfl
    (fun e he => h.length_eq _ _ (hlookup he)) (fun e he => h.hash_eq _ _ (hlookup he))
  refine ⟨r, hr, fun htrue => ?_⟩
  obtain ⟨huse, hplain, hmaster, hK, hcrypted⟩ := hspec htrue
  have hnil : r.2.vMasterKey = [] := hmaster.trans h.vMasterKey
  refine ⟨⟨huse, hplain, fun id => ?_, .inl hnil⟩, hnil⟩
  rw [hcrypted, h.keys_eq, h.mapCryptedKeys]
  change Option.Rel _ (((store.mapKeys.lookup id).map (sealEntry P K)).or none) _
  cases hv : store.mapKeys.lookup id with
  | none => exact .none
  | some v =>
    have hne : store.mapKeys.entries ≠ [] :=
      List.ne_nil_of_mem (AList.mem_lookup_iff.mp hv)
    exact .some ⟨hK hne, h.length_eq id v hv, ⟨v.2, rfl⟩, rfl⟩

theorem Crypted.encryptKeys (h : Crypted P K store keys) (vMasterKeyIn : CKeyingMaterial) :
    store.encryptKeys P vMasterKeyIn = .ok (false, store) :=
  if_pos (.inr h.fUseCrypto)

theorem Kept.encryptKeys (h : Kept P store keys) {vMasterKeyIn : CKeyingMaterial}
    (hok : store.encryptKeys P vMasterKeyIn = .ok (true, store')) : Kept P store' keys := by
  rcases h with h | ⟨K, h⟩
  · obtain ⟨r, hr, hspec⟩ := h.encryptKeys vMasterKeyIn
    cases hr.symm.trans hok
    exact .inr ⟨_, (hspec rfl).1⟩
  · cases (h.encryptKeys vMasterKeyIn).symm.trans hok

/-! ## Runs -/

theorem Kept.addKey (h : Kept P store keys) (key : PrivateKey) :
    ∃ r, store.addKey P key.key = .ok r ∧ (r.1 = true → Kept P r.2 (key.added P keys)) ∧
      (r.1 = false → r.2 = store) := by
  rcases h with h | ⟨K, h⟩
  · obtain ⟨store', hadd, h'⟩ := h.addKey key
    exact ⟨_, hadd, fun _ => .inl h', nofun⟩
  · obtain ⟨fAdded, store', hadd, hfalse, htrue⟩ := h.addKey key
    exact ⟨_, hadd, fun hf => .inr (htrue hf), hfalse⟩

/-- Every store that is reached is plain or encrypted under one master key. -/
theorem Reached.kept (hP : P.Works) (h : Reached P store keys) : Kept P store keys := by
  induction h with
  | empty => exact .inl plain_empty
  | addKey key _ hadd ih =>
    obtain ⟨r, hr, htrue, -⟩ := ih.addKey key
    cases hr.symm.trans hadd
    exact htrue rfl
  | addKeyFailed key _ hadd ih =>
    obtain ⟨r, hr, -, hfalse⟩ := ih.addKey key
    cases hr.symm.trans hadd
    obtain rfl := hfalse rfl
    exact ih
  | encryptKeys _ _ hok ih => exact ih.encryptKeys hok
  | lock _ ih => exact ih.lock
  | unlock vMasterKeyIn _ hunlock ih =>
    obtain ⟨r, hr, h'⟩ := ih.unlock hP vMasterKeyIn
    cases hr.symm.trans hunlock
    exact h'

/-! ## What `GetKey` returns -/

theorem Plain.getKey (h : Plain P store keys) (id : Uint160) {s : CSecret} {vchPubKey : Valtype}
    (hkey : keys id = some (s, vchPubKey)) :
    ∃ key, store.getKey P id .fresh = .ok (some key) ∧ key.Has P s vchPubKey := by
  rw [h.keys_eq] at hkey
  obtain ⟨⟨s', c⟩, hv, heq⟩ := Option.map_eq_some_iff.mp hkey
  cases heq
  obtain ⟨key, hset, hsecret, hpub⟩ := CKey.exists_setSecret_fresh (P := P) (h.length_eq id _ hv) c
  have hcrypted : store.isCrypted = false := h.fUseCrypto
  unfold CCryptoKeyStore.getKey
  rw [hcrypted, if_pos (by rfl)]
  unfold basicGetKey
  rw [hv]
  dsimp only at hset ⊢
  rw [hset]
  exact ⟨key, rfl, ⟨c, hsecret⟩, hpub⟩

theorem Crypted.getKey_of_locked (h : Crypted P K store keys) (hlocked : store.vMasterKey = [])
    (id : Uint160) : store.getKey P id .fresh = .ok none := by
  have hcrypted : store.isCrypted = true := h.fUseCrypto
  unfold CCryptoKeyStore.getKey
  rw [hcrypted, if_neg (by decide)]
  split
  · rfl
  · rw [hlocked]
    rfl

theorem Crypted.getKey (hP : P.Works) (h : Crypted P K store keys) (hopen : store.vMasterKey ≠ [])
    (id : Uint160) {s : CSecret} {vchPubKey : Valtype} (hkey : keys id = some (s, vchPubKey)) :
    ∃ key, store.getKey P id .fresh = .ok (some key) ∧ key.Has P s vchPubKey := by
  have hrel := h.keys_rel id
  rw [hkey] at hrel
  generalize hv : store.mapCryptedKeys.lookup id = o at hrel
  cases hrel with
  | some hsealed =>
    obtain ⟨hK, hs, ⟨c, hc⟩, rfl⟩ := hsealed
    obtain rfl : vchPubKey = P.pubKey s c := hc
    have hmaster : store.vMasterKey = K := by
      rcases h.vMasterKey with hnil | hempty | hmaster
      · exact absurd hnil hopen
      · rw [hempty] at hv
        cases hv
      · exact hmaster
    obtain ⟨key, hset, hsecret, hpub⟩ :=
      CKey.exists_setSecret_setPubKey (P := P) (hP.isPoint_pubKey s c) hs
    have hcrypted : store.isCrypted = true := h.fUseCrypto
    unfold CCryptoKeyStore.getKey
    rw [hcrypted, if_neg (by decide), hv]
    dsimp only
    unfold decryptSecret
    rw [hmaster, if_neg (not_not.mpr hK), hP.decrypt_encrypt]
    dsimp only at hs ⊢
    rw [if_neg (not_not.mpr hs), hset]
    exact ⟨key, rfl, hsecret, hpub.trans (by rw [hP.pubKey_form])⟩

end CCryptoKeyStore

open CCryptoKeyStore

/-- **The key store is transparent to encryption**: in every store that is reached, `GetKey` returns
the secret and the public key last added under an id, or, if the store is locked, nothing. All
encrypted keys are under one master key, and where there are any no other one unlocks the store. No
call throws. -/
theorem keyStore_transparent (hP : P.Works) {store : CCryptoKeyStore} {keys : AddedKeys}
    (h : Reached P store keys) :
    (store.isLocked = false → ∀ id s vchPubKey, keys id = some (s, vchPubKey) →
      ∃ key, store.getKey P id .fresh = .ok (some key) ∧ key.Has P s vchPubKey) ∧
    (store.isLocked = true → ∀ id, store.getKey P id .fresh = .ok none) ∧
    (∃ K, (∀ id v, store.mapCryptedKeys.lookup id = some v →
        ∃ key, keys id = some key ∧ Sealed P K v key) ∧
      ∀ vMasterKeyIn store', store.unlock P vMasterKeyIn = .ok (true, store') →
        store.mapCryptedKeys ≠ ∅ → vMasterKeyIn = K) ∧
    (∀ key : PrivateKey, ∃ r, store.addKey P key.key = .ok r) ∧
    ∀ vMasterKeyIn, ∃ r, store.unlock P vMasterKeyIn = .ok r := by
  have hkept := h.kept hP
  have hreturns : (∀ key : PrivateKey, ∃ r, store.addKey P key.key = .ok r) ∧
      ∀ vMasterKeyIn, ∃ r, store.unlock P vMasterKeyIn = .ok r := by
    constructor
    · intro key
      obtain ⟨r, hr, -⟩ := hkept.addKey key
      exact ⟨r, hr⟩
    · intro vMasterKeyIn
      obtain ⟨r, hr, -⟩ := hkept.unlock hP vMasterKeyIn
      exact ⟨r, hr⟩
  rcases hkept with h | ⟨K, h⟩
  · have hunlocked : store.isLocked = false := by
      unfold isLocked isCrypted
      rw [h.fUseCrypto, Bool.false_and]
    refine ⟨fun _ id s vchPubKey hkey => h.getKey id hkey, fun hlocked => ?_, ⟨[], ?_, ?_⟩, hreturns⟩
    · exact absurd (hunlocked.symm.trans hlocked) Bool.false_ne_true
    · rw [h.mapCryptedKeys]
      nofun
    · exact fun _ _ _ hne => absurd h.mapCryptedKeys hne
  · have hlock : store.isLocked = store.vMasterKey.isEmpty := by
      unfold isLocked isCrypted
      rw [h.fUseCrypto, Bool.true_and]
    refine ⟨fun hopen id s vchPubKey hkey => ?_, fun hlocked id => ?_,
      ⟨K, fun id v hv => h.sealed_of_lookup hv, fun vMasterKeyIn store' hunlock hne => ?_⟩, hreturns⟩
    · rw [hlock] at hopen
      exact h.getKey hP (List.isEmpty_eq_false_iff.mp hopen) id hkey
    · rw [hlock] at hlocked
      exact h.getKey_of_locked (List.isEmpty_iff.mp hlocked) id
    · obtain ⟨fUnlocked, hr, hiff⟩ := h.unlock_iff hP vMasterKeyIn
      cases hr.symm.trans hunlock
      exact (hiff.mp rfl).resolve_left hne

/-- A crypto library that writes keys and secrets side by side, in boxes that open with the key they
were closed with. -/
def boxCrypto : KeyCrypto where
  pubKey s c :=
    if c then 0x02 :: (s ++ List.replicate 32 0).take 32
    else 0x04 :: (s ++ List.replicate 64 0).take 64
  isPoint _ := true
  hash160 := Wire.ofLE
  hash := Wire.ofLE
  encrypt k _ p := k ++ p
  decrypt k _ vch := if vch.take k.length = k then some (vch.drop k.length) else none

theorem boxCrypto_works : boxCrypto.Works := by
  constructor
  · intro s c
    rfl
  · intro s c
    cases c <;> simp [boxCrypto]
  · intro k iv p
    simp [boxCrypto]
  · intro k k' s c s' hne hs hdec hs'
    -- of the same size, the two keys would be the same
    exfalso
    simp only [boxCrypto] at hdec
    split_ifs at hdec with htake
    obtain rfl := Option.some.inj hdec
    have hlen : k'.length = k.length := by
      have := congrArg List.length htake
      simp only [List.length_drop, List.length_append, List.length_take] at hs' this
      omega
    rw [hlen, List.take_left] at htake
    exact hne htake

/-- A key of 32 bytes. -/
def boxKey : PrivateKey where
  key := ⟨.secret (List.replicate 32 7), true, true, true⟩
  vchSecret := List.replicate 32 7
  pkey_eq := rfl
  length_eq := rfl
  form_eq := rfl

/-- A key added before the store is encrypted is there when it is unlocked again. -/
theorem keyStore_transparent_sample :
    ∃ store, Reached boxCrypto store (boxKey.added boxCrypto fun _ => none) ∧
      store.fUseCrypto = true ∧ ∃ key,
        store.getKey boxCrypto (boxCrypto.hash160 (boxKey.pubKey boxCrypto)) .fresh =
          .ok (some key) ∧ key.Has boxCrypto boxKey.vchSecret (boxKey.pubKey boxCrypto) := by
  have hadd := Reached.addKey (P := boxCrypto) boxKey .empty rfl
  have hencrypt := hadd.encryptKeys (List.replicate 32 1) rfl
  have hunlock := hencrypt.unlock (List.replicate 32 1) rfl
  refine ⟨_, hunlock, rfl, ?_⟩
  obtain ⟨hget, -⟩ := keyStore_transparent boxCrypto_works hunlock
  refine hget ?_ _ _ _ ?_
  · rfl
  · exact if_pos rfl

end MotaCoin
