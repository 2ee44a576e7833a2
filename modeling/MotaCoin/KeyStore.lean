import MotaCoin.Script
import Mathlib.Data.List.AList
import Mathlib.Data.List.MinMax

/-!
# The encrypted key store

`CCryptoKeyStore`, which keeps keys as they are until it is encrypted and under a master key from
then on. The map of the plain keys and the one of the encrypted keys are both there all the time,
and a flag says which is meant.

## Main definitions

* `KeyCrypto`: what is used of the crypto library
* `CKey`, `CKey.setSecret`, `CKey.setPubKey`, `CKey.getPubKey`, `CKey.getSecret`
* `encryptSecret`, `decryptSecret`
* `CCryptoKeyStore`, with `setCrypted`, `lock`, `unlock`, `addKey`, `getKey`, `encryptKeys`
* `CCryptoKeyStore.Reached`: the stores that runs lead to, with the keys added on the way
-/

namespace MotaCoin

/-- `uint160`. -/
abbrev Uint160 := Nat

/-- `CSecret`. -/
abbrev CSecret := Valtype

/-- `CKeyingMaterial`. -/
abbrev CKeyingMaterial := Valtype

/-- What `CKey` and `CCrypter` use of the crypto library. -/
structure KeyCrypto where
  /-- The public key of a secret, compressed or not, as `i2o_ECPublicKey` writes it. -/
  pubKey : CSecret → Bool → Valtype
  /-- Whether `o2i_ECPublicKey` reads a public key. -/
  isPoint : Valtype → Bool
  /-- `Hash160`, of which `CPubKey::GetID` is made. -/
  hash160 : Valtype → Uint160
  /-- `Hash`, of which `CPubKey::GetHash` is made. -/
  hash : Valtype → Uint256
  /-- AES-256-CBC, with the key and the initialization vector. -/
  encrypt : CKeyingMaterial → Uint256 → Valtype → Valtype
  /-- Its inverse, which fails on bad padding. -/
  decrypt : CKeyingMaterial → Uint256 → Valtype → Option Valtype

/-- A `key_error` that was thrown. -/
inductive KeyError where
  | thrown
  deriving DecidableEq, Repr

/-- A computation that may throw. -/
abbrev KeyM := Except KeyError

/-! ## Keys -/

/-- What an `EC_KEY` holds. -/
inductive PKey where
  | empty
  | point (vchPubKey : Valtype)
  | secret (vchSecret : CSecret)
  deriving DecidableEq, Repr

/-- `CKey`. -/
structure CKey where
  /-- `pkey`, its conversion form aside. -/
  pkey : PKey
  /-- The conversion form of `pkey` is the compressed one. -/
  fConvCompressed : Bool
  fSet : Bool
  fCompressedPubKey : Bool
  deriving DecidableEq, Repr

namespace CKey

/-- `CKey()`, and what `Reset` makes of any key. -/
def fresh : CKey := ⟨.empty, false, false, false⟩

/-- `SetCompressedPubKey`. -/
def setCompressedPubKey (key : CKey) : CKey :=
  { key with fConvCompressed := true, fCompressedPubKey := true }

/-- `SetSecret`, on a new `EC_KEY`. -/
def setSecret (vchSecret : CSecret) (fCompressed : Bool) (key : CKey) : KeyM CKey :=
  if vchSecret.length ≠ 32 then .error .thrown
  else
    let key := { key with pkey := .secret vchSecret, fConvCompressed := false, fSet := true }
    pure (if fCompressed || key.fCompressedPubKey then key.setCompressedPubKey else key)

/-- `SetPubKey`; what was read says which form it has. -/
def setPubKey (P : KeyCrypto) (vchPubKey : Valtype) (key : CKey) : CKey :=
  if P.isPoint vchPubKey then
    let key :=
      { key with
        pkey := .point vchPubKey
        fConvCompressed := vchPubKey.length == 33
        fSet := true }
    if vchPubKey.length = 33 then key.setCompressedPubKey else key
  else fresh

/-- `GetSecret`, with `fCompressed`. -/
def getSecret (key : CKey) : KeyM (CSecret × Bool) :=
  match key.pkey with
  | .secret vchSecret => pure (vchSecret, key.fCompressedPubKey)
  | _ => .error .thrown

/-- `GetPubKey`. -/
def getPubKey (P : KeyCrypto) (key : CKey) : KeyM Valtype :=
  match key.pkey with
  | .secret vchSecret => pure (P.pubKey vchSecret key.fConvCompressed)
  | .point vchPubKey => pure vchPubKey
  | .empty => .error .thrown

end CKey

/-- A key with a secret, as `MakeNewKey` and `SetSecret` leave it: the two notes of its form
agree. -/
structure PrivateKey where
  key : CKey
  vchSecret : CSecret
  pkey_eq : key.pkey = .secret vchSecret
  length_eq : vchSecret.length = 32
  form_eq : key.fConvCompressed = key.fCompressedPubKey

/-! ## Secrets -/

/-- `WALLET_CRYPTO_KEY_SIZE`. -/
def WALLET_CRYPTO_KEY_SIZE : Nat := 32

variable (P : KeyCrypto)

/-- `EncryptSecret`: `SetKey` tests the size of the key. -/
def encryptSecret (vMasterKey : CKeyingMaterial) (vchPlaintext : CSecret) (nIV : Uint256) :
    Option Valtype :=
  if vMasterKey.length ≠ WALLET_CRYPTO_KEY_SIZE then none
  else some (P.encrypt vMasterKey nIV vchPlaintext)

/-- `DecryptSecret`. -/
def decryptSecret (vMasterKey : CKeyingMaterial) (vchCiphertext : Valtype) (nIV : Uint256) :
    Option CSecret :=
  if vMasterKey.length ≠ WALLET_CRYPTO_KEY_SIZE then none
  else P.decrypt vMasterKey nIV vchCiphertext

/-! ## The store -/

/-- The secret and the public key last added under each id. -/
abbrev AddedKeys := Uint160 → Option (CSecret × Valtype)

/-- The public key of a key. -/
def PrivateKey.pubKey (key : PrivateKey) : Valtype :=
  P.pubKey key.vchSecret key.key.fConvCompressed

/-- The keys with one more. -/
def PrivateKey.added (key : PrivateKey) (keys : AddedKeys) : AddedKeys := fun id =>
  if id = P.hash160 (key.pubKey P) then some (key.vchSecret, key.pubKey P) else keys id

/-- `CCryptoKeyStore`. -/
structure CCryptoKeyStore where
  mapKeys : AList fun _ : Uint160 => CSecret × Bool
  mapCryptedKeys : AList fun _ : Uint160 => Valtype × Valtype
  vMasterKey : CKeyingMaterial
  fUseCrypto : Bool

namespace CCryptoKeyStore

/-- `CCryptoKeyStore()`. -/
def empty : CCryptoKeyStore := ⟨∅, ∅, [], false⟩

/-- `IsCrypted`. -/
def isCrypted (store : CCryptoKeyStore) : Bool := store.fUseCrypto

/-- `IsLocked`. -/
def isLocked (store : CCryptoKeyStore) : Bool := store.isCrypted && store.vMasterKey.isEmpty

/-- `SetCrypted`. -/
def setCrypted (store : CCryptoKeyStore) : Bool × CCryptoKeyStore :=
  if store.fUseCrypto then (true, store)
  else if store.mapKeys.entries ≠ [] then (false, store)
  else (true, { store with fUseCrypto := true })

/-- `Lock`. -/
def lock (store : CCryptoKeyStore) : Bool × CCryptoKeyStore :=
  match store.setCrypted with
  | (false, store) => (false, store)
  | (true, store) => (true, { store with vMasterKey := [] })

/-- What `mapCryptedKeys.begin()` points to: the entry with the least key. -/
def firstCrypted (store : CCryptoKeyStore) : Option (Valtype × Valtype) :=
  (store.mapCryptedKeys.entries.argmin Sigma.fst).map Sigma.snd

/-- `Unlock`. The loop ends with the first entry in any case. -/
def unlock (vMasterKeyIn : CKeyingMaterial) (store : CCryptoKeyStore) :
    KeyM (Bool × CCryptoKeyStore) :=
  match store.setCrypted with
  | (false, store) => pure (false, store)
  | (true, store) =>
    match store.firstCrypted with
    | none => pure (true, { store with vMasterKey := vMasterKeyIn })
    | some (vchPubKey, vchCryptedSecret) =>
      match decryptSecret P vMasterKeyIn vchCryptedSecret (P.hash vchPubKey) with
      | none => pure (false, store)
      | some vchSecret =>
        if vchSecret.length ≠ 32 then pure (false, store)
        else do
          let key ← (CKey.fresh.setPubKey P vchPubKey).setSecret vchSecret false
          if (← key.getPubKey P) = vchPubKey then
            pure (true, { store with vMasterKey := vMasterKeyIn })
          else pure (false, store)

/-- `AddCryptedKey`. -/
def addCryptedKey (vchPubKey vchCryptedSecret : Valtype) (store : CCryptoKeyStore) :
    Bool × CCryptoKeyStore :=
  match store.setCrypted with
  | (false, store) => (false, store)
  | (true, store) =>
    (true, { store with
      mapCryptedKeys :=
        store.mapCryptedKeys.insert (P.hash160 vchPubKey) (vchPubKey, vchCryptedSecret) })

/-- `CBasicKeyStore::AddKey`. -/
def basicAddKey (key : CKey) (store : CCryptoKeyStore) : KeyM (Bool × CCryptoKeyStore) := do
  let secret ← key.getSecret
  let vchPubKey ← key.getPubKey P
  pure (true, { store with mapKeys := store.mapKeys.insert (P.hash160 vchPubKey) secret })

/-- `AddKey`. -/
def addKey (key : CKey) (store : CCryptoKeyStore) : KeyM (Bool × CCryptoKeyStore) :=
  if !store.isCrypted then store.basicAddKey P key
  else if store.isLocked then pure (false, store)
  else do
    let vchPubKey ← key.getPubKey P
    let secret ← key.getSecret
    match encryptSecret P store.vMasterKey secret.1 (P.hash vchPubKey) with
    | none => pure (false, store)
    | some vchCryptedSecret => pure (store.addCryptedKey P vchPubKey vchCryptedSecret)

/-- `CBasicKeyStore::GetKey`: the key, or none where it returns false. -/
def basicGetKey (address : Uint160) (store : CCryptoKeyStore) : KeyM (Option CKey) :=
  match store.mapKeys.lookup address with
  | none => pure none
  | some (vchSecret, fCompressed) => do
    let keyOut ← CKey.fresh.setSecret vchSecret fCompressed
    pure (some keyOut)

/-- `GetKey` into `keyOut`: the key, or none where it returns false. -/
def getKey (address : Uint160) (keyOut : CKey) (store : CCryptoKeyStore) : KeyM (Option CKey) :=
  if !store.isCrypted then store.basicGetKey address
  else
    match store.mapCryptedKeys.lookup address with
    | none => pure none
    | some (vchPubKey, vchCryptedSecret) =>
      match decryptSecret P store.vMasterKey vchCryptedSecret (P.hash vchPubKey) with
      | none => pure none
      | some vchSecret =>
        if vchSecret.length ≠ 32 then pure none
        else do
          let keyOut ← (keyOut.setPubKey P vchPubKey).setSecret vchSecret false
          pure (some keyOut)

/-- The loop of `EncryptKeys`. -/
def encryptLoop (vMasterKeyIn : CKeyingMaterial) :
    List ((_ : Uint160) × (CSecret × Bool)) → CCryptoKeyStore → KeyM (Bool × CCryptoKeyStore)
  | [], store => pure (true, { store with mapKeys := ∅ })
  | mKey :: mKeys, store => do
    let key ← CKey.fresh.setSecret mKey.2.1 mKey.2.2
    let vchPubKey ← key.getPubKey P
    let secret ← key.getSecret
    match encryptSecret P vMasterKeyIn secret.1 (P.hash vchPubKey) with
    | none => pure (false, store)
    | some vchCryptedSecret =>
      match store.addCryptedKey P vchPubKey vchCryptedSecret with
      | (false, store) => pure (false, store)
      | (true, store) => encryptLoop vMasterKeyIn mKeys store

/-- `EncryptKeys`. -/
def encryptKeys (vMasterKeyIn : CKeyingMaterial) (store : CCryptoKeyStore) :
    KeyM (Bool × CCryptoKeyStore) :=
  if store.mapCryptedKeys.entries ≠ [] ∨ store.isCrypted then pure (false, store)
  else
    encryptLoop P vMasterKeyIn store.mapKeys.entries { store with fUseCrypto := true }

/-! ## Runs -/

/-- The stores that `AddKey`, successful calls of `EncryptKeys`, `Lock` and `Unlock` lead to from
the empty one, with the keys added successfully. -/
inductive Reached : CCryptoKeyStore → AddedKeys → Prop where
  | empty : Reached .empty fun _ => none
  | addKey {store store' : CCryptoKeyStore} {keys : AddedKeys} (key : PrivateKey) :
    Reached store keys → store.addKey P key.key = .ok (true, store') →
      Reached store' (key.added P keys)
  | addKeyFailed {store store' : CCryptoKeyStore} {keys : AddedKeys} (key : PrivateKey) :
    Reached store keys → store.addKey P key.key = .ok (false, store') → Reached store' keys
  | encryptKeys {store store' : CCryptoKeyStore} {keys : AddedKeys} (vMasterKeyIn : CKeyingMaterial) :
    Reached store keys → store.encryptKeys P vMasterKeyIn = .ok (true, store') →
      Reached store' keys
  | lock {store : CCryptoKeyStore} {keys : AddedKeys} : Reached store keys → Reached store.lock.2 keys
  | unlock {store store' : CCryptoKeyStore} {keys : AddedKeys} {fUnlocked : Bool}
    (vMasterKeyIn : CKeyingMaterial) :
    Reached store keys → store.unlock P vMasterKeyIn = .ok (fUnlocked, store') →
      Reached store' keys

end CCryptoKeyStore

end MotaCoin
