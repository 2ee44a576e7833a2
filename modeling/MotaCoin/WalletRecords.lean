import Mathlib.Data.Finset.Insert
import MotaCoin.Hashes
import MotaCoin.KeyStoreRuns
import MotaCoin.Ownership
import MotaCoin.WalletTxRecord

/-!
# Records of the wallet file

`ReadKeyValue` reads a record of the wallet file into the wallet. It returns false where a record is
bad, and some records have been put into the maps by then.

## Main definitions

* `LoadedWallet`, `CWalletScanState`: what records are read into
* `readKeyValue`: the call
* `SameMaps`: the maps are as before
* `MapsKept`: the records that leave the maps alone if they are bad

## Main results

* `readKeyValue_iff`: when a bad record leaves the wallet as it was
-/

namespace MotaCoin

open Wire

/-! ## What is read -/

/-- `CKeyMetadata`. -/
structure CKeyMetadata where
  nVersion : Int
  nCreateTime : Int

/-- `CMasterKey`. -/
structure CMasterKey where
  vchCryptedKey : Valtype
  vchSalt : Valtype
  nDerivationMethod : Nat
  nDeriveIterations : Nat
  vchOtherDerivationParameters : Valtype

/-- `Unserialize` of a vector of bytes into a new one. -/
def readBytes : Reader ByteString := unserializeBytesUpTo MAX_SIZE

/-- `Unserialize` of a string into a new one. -/
def readString : Reader ByteString := do
  let nSize ← readCompactSize
  read nSize

/-- `Unserialize` of a `CKeyMetadata`. -/
def CKeyMetadata.unserialize : Reader CKeyMetadata := do
  let nVersion ← readInt 4
  let nCreateTime ← readInt 8
  pure ⟨nVersion, nCreateTime⟩

/-- `Unserialize` of a `CMasterKey`. -/
def CMasterKey.unserialize : Reader CMasterKey := do
  let vchCryptedKey ← readBytes
  let vchSalt ← readBytes
  let nDerivationMethod ← readLE 4
  let nDeriveIterations ← readLE 4
  let vchOtherDerivationParameters ← readBytes
  pure ⟨vchCryptedKey, vchSalt, nDerivationMethod, nDeriveIterations, vchOtherDerivationParameters⟩

/-- `Unserialize` of a `CWalletKey`, of which the key is used. -/
def readWalletKey : Reader Valtype := do
  let _nVersion ← readInt 4
  let vchPrivKey ← readBytes
  let _nTimeCreated ← readInt 8
  let _nTimeExpires ← readInt 8
  let _strComment ← readString
  pure vchPrivKey

/-- `Unserialize` of a `CKeyPool`: the time and the key. -/
def readKeyPool : Reader (Int × Valtype) := do
  let _nVersion ← readInt 4
  let nTime ← readInt 8
  let vchPubKey ← readBytes
  pure (nTime, vchPubKey)

/-- `Unserialize` of a `CAccountingEntry`, of which the position is used: it is in a map that follows
the first zero byte of the comment. -/
def readAccountingEntry : Reader Int := do
  let _nVersion ← readInt 4
  let _nCreditDebit ← readInt 8
  let _nTime ← readInt 8
  let _strOtherAccount ← readString
  let strComment ← readString
  match strComment.dropWhile fun b => b != 0 with
  | [] => pure (-1)
  | _ :: ss =>
    match fillMap ∅ ss with
    | (_, none) => failure
    | (mapValue, some _) =>
      match mapValue.lookup (ascii "n") with
      | some str => pure (atoi64 str)
      | none => pure (-1)

/-! ## The wallet -/

/-- What the records of the file are read into. -/
structure LoadedWallet where
  mapWallet : AList fun _ : Uint256 => CWalletTxRecord
  mapAddressBook : AList fun _ : CTxDestination => ByteString
  /-- The entries of `mapAddressBook` under `CNoDestination`, which is less than itself, so that
  each is a new one. -/
  noDestinations : List ByteString
  store : CCryptoKeyStore
  mapScripts : AList fun _ : Uint160 => CScript
  setKeyPool : Finset Int
  mapKeyMetadata : AList fun _ : Uint160 => CKeyMetadata
  mapMasterKeys : AList fun _ : Nat => CMasterKey
  nMasterKeyMaxID : Nat
  nTimeFirstKey : Int
  vchDefaultKey : Valtype
  nOrderPosNext : Int
  nStakeSplitThreshold : Nat
  vMultiSend : List (ByteString × Int)
  fMultiSend : Bool
  nLastMultiSendHeight : Int
  vDisabledAddresses : List ByteString
  nHashDrift : Nat
  nHashInterval : Nat

/-- `CWalletScanState`, with `nAccountingEntryNumber`. -/
structure CWalletScanState where
  nKeys : Nat
  nCKeys : Nat
  nKeyMeta : Nat
  fIsEncrypted : Bool
  fAnyUnordered : Bool
  nFileVersion : Int
  vWalletUpgrade : List Uint256
  nAccountingEntryNumber : Nat

/-- What a call leaves in `strErr`. -/
inductive LoadError where
  | none
  /-- `Error reading wallet database: …`. -/
  | text (message : String)
  /-- `Error reading wallet database: duplicate CMasterKey id …`. -/
  | duplicateMasterKey (nID : Nat)
  /-- `LoadWallet() upgrading tx ver=…`. -/
  | upgrading (ver : Nat) (fTmp : Int) (strFromAccount : ByteString) (hash : Uint256)
  /-- `LoadWallet() repairing tx ver=…`. -/
  | repairing (ver : Nat) (hash : Uint256)

/-- How a call ends. -/
structure LoadResult where
  ok : Bool
  strErr : LoadError
  wallet : LoadedWallet
  wss : CWalletScanState

/-- What the call uses besides: the cryptography, the addresses that strings say, the clock, and the
wallet file. -/
structure LoadEnv where
  crypto : Crypto
  keyCrypto : KeyCrypto
  /-- `d2i_ECPrivateKey` and `EC_KEY_check_key`, into a key. -/
  readPrivKey : Valtype → CKey → Option CKey
  /-- `EC_KEY_check_key`. -/
  checkKey : CKey → Bool
  /-- `CBitcoinAddress(…).Get()`. -/
  addressOf : ByteString → CTxDestination
  adjustedTime : Nat
  fFileBacked : Bool
  /-- Whether `WriteCryptedKey` succeeds. -/
  writesCryptedKey : Valtype → Valtype → Bool

/-- `CKey::IsValid`. -/
def CKey.isValid (env : LoadEnv) (key : CKey) : KeyM Bool :=
  if !key.fSet then pure false
  else if !env.checkKey key then pure false
  else do
    let (secret, fCompr) ← key.getSecret
    let key2 ← CKey.fresh.setSecret secret fCompr
    pure ((← key.getPubKey env.keyCrypto) == (← key2.getPubKey env.keyCrypto))

namespace LoadedWallet

variable (env : LoadEnv)

/-- `CWallet::AddCryptedKey`, which writes the key to the file. -/
def addCryptedKey (vchPubKey vchCryptedSecret : Valtype) (w : LoadedWallet) : Bool × LoadedWallet :=
  match w.store.addCryptedKey env.keyCrypto vchPubKey vchCryptedSecret with
  | (false, store) => (false, { w with store := store })
  | (true, store) =>
    let w := { w with store := store }
    if !env.fFileBacked then (true, w)
    else
      let keyid := env.keyCrypto.hash160 vchPubKey
      let keyMeta := (w.mapKeyMetadata.lookup keyid).getD ⟨1, 0⟩
      (env.writesCryptedKey vchPubKey vchCryptedSecret,
        { w with mapKeyMetadata := w.mapKeyMetadata.insert keyid keyMeta })

/-- `LoadKey`, which is `CCryptoKeyStore::AddKey`. -/
def loadKey (key : CKey) (w : LoadedWallet) : KeyM (Bool × LoadedWallet) :=
  if !w.store.isCrypted then do
    let (fAdded, store) ← w.store.basicAddKey env.keyCrypto key
    pure (fAdded, { w with store := store })
  else if w.store.isLocked then pure (false, w)
  else do
    let vchPubKey ← key.getPubKey env.keyCrypto
    let secret ← key.getSecret
    match encryptSecret env.keyCrypto w.store.vMasterKey secret.1 (env.keyCrypto.hash vchPubKey) with
    | none => pure (false, w)
    | some vchCryptedSecret => pure (w.addCryptedKey env vchPubKey vchCryptedSecret)

end LoadedWallet

/-! ## Records -/

section Records

variable (env : LoadEnv) (ssKey ssValue : List UInt8) (w : LoadedWallet) (wss : CWalletScanState)

/-- A record is bad: a reader throws, or a test says so. -/
def bad (strErr : LoadError) : LoadResult := ⟨false, strErr, w, wss⟩

/-- A record is good. -/
def good : LoadResult := ⟨true, .none, w, wss⟩

/-- A `name` record. -/
def readName : LoadResult :=
  match readString ssKey with
  | none => bad w wss .none
  | some (strAddress, _) =>
    if env.addressOf strAddress = .noDestination then
      let (strName, rest) := fillString [] ssValue
      ⟨rest.isSome, .none, { w with noDestinations := w.noDestinations ++ [strName] }, wss⟩
    else
      let dest := env.addressOf strAddress
      let (strName, rest) := fillString ((w.mapAddressBook.lookup dest).getD []) ssValue
      ⟨rest.isSome, .none, { w with mapAddressBook := w.mapAddressBook.insert dest strName }, wss⟩

/-- `31404 <= fTimeReceivedIsTxTime && fTimeReceivedIsTxTime <= 31703`. -/
def CWalletTxRecord.needsUpgrade (wtx : CWalletTxRecord) : Bool :=
  31404 ≤ wtx.fTimeReceivedIsTxTime && wtx.fTimeReceivedIsTxTime ≤ 31703

/-- What an upgrade reads: `fTmp`, `fUnused` and the account. -/
def CWalletTxRecord.fillUpgrade : Fill (CWalletTxRecord × Int) :=
  fillAll [
    fillField Prod.snd (fun s x => (s.1, x)) (fillWith (readInt 1)),
    fillField (fun _ => 0) (fun s _ => s) (fillWith (readInt 1)),
    fillField (fun s => s.1.strFromAccount) (fun s x => ({ s.1 with strFromAccount := x }, s.2)) fillString]

/-- A transaction is kept, and noted if it has no position. -/
def keepTx (hash : Uint256) (wtx : CWalletTxRecord) (strErr : LoadError) (wss : CWalletScanState) :
    LoadResult :=
  ⟨true, strErr, { w with mapWallet := w.mapWallet.insert hash wtx },
    if wtx.nOrderPos = -1 then { wss with fAnyUnordered := true } else wss⟩

/-- A `tx` record. -/
def readTx : LoadResult :=
  match readLE 32 ssKey with
  | none => bad w wss .none
  | some (hash, _) =>
    let wtx := (w.mapWallet.lookup hash).getD (.fresh env.adjustedTime)
    match wtx.fill env.adjustedTime ssValue with
    | (wtx, none) => bad { w with mapWallet := w.mapWallet.insert hash wtx } wss .none
    | (wtx, some rest) =>
      if wtx.tx.checkTransaction && env.crypto.hashTx wtx.tx == hash then
        let wtx := wtx.bindWallet
        let ver := wtx.fTimeReceivedIsTxTime
        if wtx.needsUpgrade then
          if rest = [] then
            keepTx w hash { wtx with fTimeReceivedIsTxTime := 0 } (.repairing ver hash)
              { wss with vWalletUpgrade := wss.vWalletUpgrade ++ [hash] }
          else
            match CWalletTxRecord.fillUpgrade (wtx, 0) rest with
            | ((wtx, _), none) => bad { w with mapWallet := w.mapWallet.insert hash wtx } wss .none
            | ((wtx, fTmp), some _) =>
              keepTx w hash { wtx with fTimeReceivedIsTxTime := (fTmp % 2 ^ 32).toNat }
                (.upgrading ver fTmp wtx.strFromAccount hash)
                { wss with vWalletUpgrade := wss.vWalletUpgrade ++ [hash] }
        else keepTx w hash wtx .none wss
      else bad { w with mapWallet := w.mapWallet.erase hash } wss .none

/-- An `acentry` record. -/
def readAcentry : LoadResult :=
  match (do let strAccount ← readString; let nNumber ← readLE 8; pure (strAccount, nNumber)) ssKey with
  | none => bad w wss .none
  | some ((_, nNumber), _) =>
    let wss := { wss with nAccountingEntryNumber := max wss.nAccountingEntryNumber nNumber }
    if wss.fAnyUnordered then good w wss
    else
      match readAccountingEntry ssValue with
      | none => bad w wss .none
      | some (nOrderPos, _) =>
        good w (if nOrderPos = -1 then { wss with fAnyUnordered := true } else wss)

/-- The key of a `key` or `wkey` record, if it is right. -/
def checkedKey (vchPubKey vchPrivKey : Valtype) (inconsistent invalid : String) :
    KeyM (CKey ⊕ String) :=
  match env.readPrivKey vchPrivKey (CKey.fresh.setPubKey env.keyCrypto vchPubKey) with
  | none => pure (.inr "CPrivKey corrupt")
  | some key => do
    let key := { key with fSet := true }
    if (← key.getPubKey env.keyCrypto) ≠ vchPubKey then pure (.inr inconsistent)
    else if !(← key.isValid env) then pure (.inr invalid)
    else pure (.inl key)

/-- A key is added to the wallet. -/
def addKey (key : CKey) : LoadResult :=
  match w.loadKey env key with
  | .error _ => bad w wss .none
  | .ok (false, w) => bad w wss (.text "LoadKey failed")
  | .ok (true, w) => good w wss

/-- A key is tested and added to the wallet. -/
def addChecked : KeyM (CKey ⊕ String) → LoadResult
  | .error _ => bad w wss .none
  | .ok (.inr message) => bad w wss (.text message)
  | .ok (.inl key) => addKey env w wss key

/-- A `key` record. -/
def readKey : LoadResult :=
  match readBytes ssKey with
  | none => bad w wss .none
  | some (vchPubKey, _) =>
    let wss := { wss with nKeys := wss.nKeys + 1 }
    match readBytes ssValue with
    | none => bad w wss .none
    | some (pkey, _) =>
      addChecked env w wss
        (checkedKey env vchPubKey pkey "CPrivKey pubkey inconsistency" "invalid CPrivKey")

/-- A `wkey` record. -/
def readWkey : LoadResult :=
  match readBytes ssKey with
  | none => bad w wss .none
  | some (vchPubKey, _) =>
    match readWalletKey ssValue with
    | none => bad w wss .none
    | some (vchPrivKey, _) =>
      addChecked env w wss
        (checkedKey env vchPubKey vchPrivKey "CWalletKey pubkey inconsistency" "invalid CWalletKey")

/-- An `mkey` record. -/
def readMkey : LoadResult :=
  match readLE 4 ssKey with
  | none => bad w wss .none
  | some (nID, _) =>
    match CMasterKey.unserialize ssValue with
    | none => bad w wss .none
    | some (kMasterKey, _) =>
      if (w.mapMasterKeys.lookup nID).isSome then bad w wss (.duplicateMasterKey nID)
      else
        good { w with
          mapMasterKeys := w.mapMasterKeys.insert nID kMasterKey
          nMasterKeyMaxID := max w.nMasterKeyMaxID nID } wss

/-- A `ckey` record. -/
def readCkey : LoadResult :=
  let wss := { wss with nCKeys := wss.nCKeys + 1 }
  match readBytes ssKey with
  | none => bad w wss .none
  | some (vchPubKey, _) =>
    match readBytes ssValue with
    | none => bad w wss .none
    | some (vchPrivKey, _) =>
      match w.store.addCryptedKey env.keyCrypto vchPubKey vchPrivKey with
      | (false, store) => bad { w with store := store } wss (.text "LoadCryptedKey failed")
      | (true, store) => good { w with store := store } { wss with fIsEncrypted := true }

/-- A `keymeta` record. -/
def readKeymeta : LoadResult :=
  match readBytes ssKey with
  | none => bad w wss .none
  | some (vchPubKey, _) =>
    match CKeyMetadata.unserialize ssValue with
    | none => bad w wss .none
    | some (keyMeta, _) =>
      -- `LoadKeyMetadata` leaves out a time that is not known, and then it is not left out
      let earlier (nTimeFirstKey : Int) : Int :=
        if nTimeFirstKey = 0 ∨ keyMeta.nCreateTime < nTimeFirstKey then keyMeta.nCreateTime
        else nTimeFirstKey
      let nTimeFirstKey := if keyMeta.nCreateTime = 0 then w.nTimeFirstKey else earlier w.nTimeFirstKey
      good { w with
        mapKeyMetadata := w.mapKeyMetadata.insert (env.keyCrypto.hash160 vchPubKey) keyMeta
        nTimeFirstKey := earlier nTimeFirstKey } { wss with nKeyMeta := wss.nKeyMeta + 1 }

/-- A `pool` record. -/
def readPool : LoadResult :=
  match readInt 8 ssKey with
  | none => bad w wss .none
  | some (nIndex, _) =>
    match readKeyPool ssValue with
    | none => bad w wss .none
    | some ((nTime, vchPubKey), _) =>
      let keyid := env.keyCrypto.hash160 vchPubKey
      good { w with
        setKeyPool := insert nIndex w.setKeyPool
        mapKeyMetadata := if (w.mapKeyMetadata.lookup keyid).isSome then w.mapKeyMetadata
          else w.mapKeyMetadata.insert keyid ⟨1, nTime⟩ } wss

/-- A `cscript` record. -/
def readCscript : LoadResult :=
  match readLE 20 ssKey with
  | none => bad w wss .none
  | some _ =>
    match readBytes ssValue with
    | none => bad w wss .none
    | some (script, _) =>
      good { w with mapScripts := w.mapScripts.insert (env.keyCrypto.hash160 script) script } wss

/-- A record that is read into one field of the wallet, or into one number. -/
def readField {α : Type} (f : Fill α) (old : α) (set : α → LoadedWallet) : LoadResult :=
  let (a, rest) := f old ssValue
  ⟨rest.isSome, .none, set a, wss⟩

/-- A `version` record. -/
def readVersion : LoadResult :=
  match readInt 4 ssValue with
  | none => bad w wss .none
  | some (nFileVersion, _) =>
    good w { wss with nFileVersion := if nFileVersion = 10300 then 300 else nFileVersion }

/-- A `multisend` record. -/
def readMultisend : LoadResult :=
  match readLE 4 ssKey with
  | none => bad w wss .none
  | some _ =>
    match (do let strAddress ← readString; let n ← readInt 4; pure (strAddress, n)) ssValue with
    | none => bad w wss .none
    | some (pMultiSend, _) =>
      if env.addressOf pMultiSend.1 ≠ .noDestination then
        good { w with vMultiSend := w.vMultiSend ++ [pMultiSend] } wss
      else good w wss

/-- An `msettings` record. -/
def readMsettings : LoadResult :=
  match (do let fMultiSend ← readLE 1; let nHeight ← readInt 4; pure (fMultiSend, nHeight)) ssValue with
  | none => bad w wss .none
  | some ((fMultiSend, nHeight), _) =>
    good { w with fMultiSend := fMultiSend != 0, nLastMultiSendHeight := nHeight } wss

/-- An `mdisabled` record. -/
def readMdisabled : LoadResult :=
  match readString ssValue with
  | none => bad w wss .none
  | some (strDisabledAddress, _) =>
    good { w with vDisabledAddresses := w.vDisabledAddresses ++ [strDisabledAddress] } wss

/-- The record of a type, whose key goes on with `ssKey`. -/
def readRecord (strType : ByteString) : LoadResult :=
  if strType = ascii "name" then readName env ssKey ssValue w wss
  else if strType = ascii "tx" then readTx env ssKey ssValue w wss
  else if strType = ascii "acentry" then readAcentry ssKey ssValue w wss
  else if strType = ascii "key" then readKey env ssKey ssValue w wss
  else if strType = ascii "wkey" then readWkey env ssKey ssValue w wss
  else if strType = ascii "mkey" then readMkey ssKey ssValue w wss
  else if strType = ascii "ckey" then readCkey env ssKey ssValue w wss
  else if strType = ascii "keymeta" then readKeymeta env ssKey ssValue w wss
  else if strType = ascii "defaultkey" then
    readField ssValue wss fillBytes w.vchDefaultKey fun x => { w with vchDefaultKey := x }
  else if strType = ascii "pool" then readPool env ssKey ssValue w wss
  else if strType = ascii "version" then readVersion ssValue w wss
  else if strType = ascii "cscript" then readCscript env ssKey ssValue w wss
  else if strType = ascii "orderposnext" then
    readField ssValue wss (fillWith (readInt 8)) w.nOrderPosNext fun x => { w with nOrderPosNext := x }
  else if strType = ascii "stakeSplitThreshold" then
    readField ssValue wss (fillWith (readLE 8)) w.nStakeSplitThreshold fun x =>
      { w with nStakeSplitThreshold := x }
  else if strType = ascii "multisend" then readMultisend env ssKey ssValue w wss
  else if strType = ascii "msettings" then readMsettings ssValue w wss
  else if strType = ascii "mdisabled" then readMdisabled ssValue w wss
  else if strType = ascii "hashdrift" then
    readField ssValue wss (fillWith (readLE 4)) w.nHashDrift fun x => { w with nHashDrift := x }
  else if strType = ascii "hashinterval" then
    readField ssValue wss (fillWith (readLE 4)) w.nHashInterval fun x => { w with nHashInterval := x }
  else good w wss

/-- **`ReadKeyValue`**, for the bytes of a key and of a value. -/
def readKeyValue : LoadResult :=
  match readString ssKey with
  | none => bad w wss .none
  | some (strType, rest) => readRecord env rest ssValue w wss strType

end Records

/-! ## What a bad record leaves -/

/-- **The maps of the wallet have the content they had**. -/
structure SameMaps (w w' : LoadedWallet) : Prop where
  mapWallet : ∀ hash, w'.mapWallet.lookup hash = w.mapWallet.lookup hash
  mapAddressBook : ∀ dest, w'.mapAddressBook.lookup dest = w.mapAddressBook.lookup dest
  noDestinations : w'.noDestinations = w.noDestinations
  mapKeys : ∀ id, w'.store.mapKeys.lookup id = w.store.mapKeys.lookup id
  mapCryptedKeys : ∀ id, w'.store.mapCryptedKeys.lookup id = w.store.mapCryptedKeys.lookup id
  mapScripts : ∀ id, w'.mapScripts.lookup id = w.mapScripts.lookup id
  setKeyPool : w'.setKeyPool = w.setKeyPool
  mapMasterKeys : ∀ nID, w'.mapMasterKeys.lookup nID = w.mapMasterKeys.lookup nID

namespace SameMaps

variable {w w' : LoadedWallet}

theorem refl : SameMaps w w := ⟨fun _ => rfl, fun _ => rfl, rfl, fun _ => rfl, fun _ => rfl, fun _ => rfl,
  rfl, fun _ => rfl⟩

/-- An entry that is put into `mapWallet` must have been there. -/
theorem insertTx_iff (hash : Uint256) (wtx : CWalletTxRecord) :
    SameMaps w { w with mapWallet := w.mapWallet.insert hash wtx } ↔
      w.mapWallet.lookup hash = some wtx := by
  constructor
  · intro h
    exact (h.mapWallet hash).symm.trans (AList.lookup_insert _)
  · intro h
    refine { refl with mapWallet := fun hash' => ?_ }
    by_cases hsame : hash' = hash
    · rw [hsame, h]
      exact AList.lookup_insert _
    · exact AList.lookup_insert_ne hsame

/-- An entry that is taken out must not have been there. -/
theorem eraseTx_iff (hash : Uint256) :
    SameMaps w { w with mapWallet := w.mapWallet.erase hash } ↔ w.mapWallet.lookup hash = none := by
  constructor
  · intro h
    exact (h.mapWallet hash).symm.trans (AList.lookup_erase _ _)
  · intro h
    refine { refl with mapWallet := fun hash' => ?_ }
    by_cases hsame : hash' = hash
    · rw [hsame, h]
      exact AList.lookup_erase _ _
    · exact AList.lookup_erase_ne hsame

theorem insertName_iff (dest : CTxDestination) (strName : ByteString) :
    SameMaps w { w with mapAddressBook := w.mapAddressBook.insert dest strName } ↔
      w.mapAddressBook.lookup dest = some strName := by
  constructor
  · intro h
    exact (h.mapAddressBook dest).symm.trans (AList.lookup_insert _)
  · intro h
    refine { refl with mapAddressBook := fun dest' => ?_ }
    by_cases hsame : dest' = dest
    · rw [hsame, h]
      exact AList.lookup_insert _
    · exact AList.lookup_insert_ne hsame

end SameMaps

/-! ## The records that are read into the maps -/

section Kept

variable (env : LoadEnv) (ssKey ssValue : List UInt8) (w : LoadedWallet)

/-- A `name` record that cannot be read leaves the maps alone if the address has a name, and the new
one says no size or the same. -/
def NameKept : Prop :=
  ∀ strAddress rest, readString ssKey = some (strAddress, rest) → readString ssValue = none →
    env.addressOf strAddress ≠ .noDestination ∧
      ∃ strName, w.mapAddressBook.lookup (env.addressOf strAddress) = some strName ∧
        ∀ nSize rest, readCompactSize ssValue = some (nSize, rest) → nSize = strName.length

/-- `CheckTransaction() && GetHash() == hash`. -/
def CWalletTxRecord.isRight (wtx : CWalletTxRecord) (hash : Uint256) : Bool :=
  wtx.tx.checkTransaction && env.crypto.hashTx wtx.tx == hash

/-- A `tx` record that is bad leaves the maps alone if the wallet has the very transaction that is left
of it where it cannot be read, and none where it is not right. -/
def TxKept : Prop :=
  ∀ hash rest, readLE 32 ssKey = some (hash, rest) →
    match ((w.mapWallet.lookup hash).getD (.fresh env.adjustedTime)).fill env.adjustedTime ssValue with
    | (wtx, none) => w.mapWallet.lookup hash = some wtx
    | (wtx, some rest) =>
      if wtx.isRight env hash then
        wtx.needsUpgrade = true → rest ≠ [] →
          (CWalletTxRecord.fillUpgrade (wtx.bindWallet, 0) rest).2 = none →
            w.mapWallet.lookup hash = some (CWalletTxRecord.fillUpgrade (wtx.bindWallet, 0) rest).1.1
      else w.mapWallet.lookup hash = none

/-- A key that is right and cannot be written leaves the maps alone if it is in the wallet that is
unlocked. -/
def AddKept (checked : KeyM (CKey ⊕ String)) : Prop :=
  ∀ key, checked = .ok (.inl key) → w.store.isCrypted = true → w.store.isLocked = false →
    ∀ vchPubKey secret vchCryptedSecret, key.getPubKey env.keyCrypto = .ok vchPubKey →
      key.getSecret = .ok secret →
        encryptSecret env.keyCrypto w.store.vMasterKey secret.1 (env.keyCrypto.hash vchPubKey) =
            some vchCryptedSecret →
          env.fFileBacked = true → env.writesCryptedKey vchPubKey vchCryptedSecret = false →
            w.store.mapCryptedKeys.lookup (env.keyCrypto.hash160 vchPubKey) =
              some (vchPubKey, vchCryptedSecret)

/-- A `key` record. -/
def KeyKept : Prop :=
  ∀ vchPubKey rest, readBytes ssKey = some (vchPubKey, rest) → ∀ pkey rest,
    readBytes ssValue = some (pkey, rest) →
      AddKept env w (checkedKey env vchPubKey pkey "CPrivKey pubkey inconsistency" "invalid CPrivKey")

/-- A `wkey` record. -/
def WkeyKept : Prop :=
  ∀ vchPubKey rest, readBytes ssKey = some (vchPubKey, rest) → ∀ vchPrivKey rest,
    readWalletKey ssValue = some (vchPrivKey, rest) →
      AddKept env w
        (checkedKey env vchPubKey vchPrivKey "CWalletKey pubkey inconsistency" "invalid CWalletKey")

/-- **The records that leave the maps alone if they are bad.** -/
def MapsKept (strType : ByteString) : Prop :=
  if strType = ascii "name" then NameKept env ssKey ssValue w
  else if strType = ascii "tx" then TxKept env ssKey ssValue w
  else if strType = ascii "key" then KeyKept env ssKey ssValue w
  else if strType = ascii "wkey" then WkeyKept env ssKey ssValue w
  else True

end Kept

section Bad

variable {env : LoadEnv} {ssKey ssValue : List UInt8} {w : LoadedWallet} {wss : CWalletScanState}

theorem readString_eq (bytes : List UInt8) :
    readString bytes = (readCompactSize bytes).bind fun x => read x.1 x.2 := rfl

/-- A string that cannot be read has the size that is said, if one is said. -/
theorem fillString_spec (str : ByteString) (bytes : List UInt8) :
    ((fillString str bytes).2 = none ↔ readString bytes = none) ∧
      (readString bytes = none → ((fillString str bytes).1 = str ↔
        ∀ nSize rest, readCompactSize bytes = some (nSize, rest) → nSize = str.length)) := by
  rw [fillString, readString_eq]
  cases hsize : readCompactSize bytes with
  | none => exact ⟨iff_of_true rfl rfl, fun _ => iff_of_true rfl nofun⟩
  | some size =>
    obtain ⟨nSize, rest⟩ := size
    dsimp only [Option.bind_some]
    have hresize : resizeBytes str nSize = str ↔ nSize = str.length := by
      constructor
      · intro heq
        have hlength := congrArg List.length heq
        rw [resizeBytes, List.length_append, List.length_take, List.length_replicate] at hlength
        omega
      · rintro rfl
        simp [resizeBytes]
    by_cases hzero : nSize = 0
    · subst hzero
      have hread : read 0 rest = some ([], rest) := if_pos (Nat.zero_le _)
      rw [if_pos rfl, hread]
      exact ⟨iff_of_false nofun nofun, nofun⟩
    · rw [if_neg hzero, fillWith]
      cases read nSize rest with
      | some x => exact ⟨iff_of_false nofun nofun, nofun⟩
      | none =>
        refine ⟨iff_of_true rfl rfl, fun _ => ?_⟩
        rw [hresize]
        constructor
        · rintro hsame _ _ heq
          cases heq
          exact hsame
        · exact fun h => h nSize rest rfl

/-- **A `name` record that is bad.** -/
theorem readName_iff :
    ((readName env ssKey ssValue w wss).ok = false →
      SameMaps w (readName env ssKey ssValue w wss).wallet) ↔ NameKept env ssKey ssValue w := by
  rw [readName, NameKept]
  cases readString ssKey with
  | none => exact iff_of_true (fun _ => .refl) nofun
  | some key =>
    obtain ⟨strAddress, rest⟩ := key
    simp only [Option.some.injEq, Prod.mk.injEq, and_imp, forall_apply_eq_imp_iff, forall_eq']
    split
    · next hno =>
      have hnone := (fillString_spec [] ssValue).1
      dsimp only
      rw [Option.isSome_eq_false_iff, Option.isNone_iff_eq_none, hnone]
      refine imp_congr_right fun _ => iff_of_false (fun h => ?_) fun h => h.1 hno
      have hlength := congrArg List.length h.noDestinations
      simp at hlength
    · next hdest =>
      obtain ⟨hnone, hsame⟩ := fillString_spec
        ((w.mapAddressBook.lookup (env.addressOf strAddress)).getD []) ssValue
      dsimp only
      rw [Option.isSome_eq_false_iff, Option.isNone_iff_eq_none, hnone]
      refine imp_congr_right fun hbad => ?_
      rw [SameMaps.insertName_iff]
      cases hlookup : w.mapAddressBook.lookup (env.addressOf strAddress) with
      | none => exact iff_of_false nofun (by rintro ⟨-, _, heq, -⟩; cases heq)
      | some strName =>
        rw [hlookup, Option.getD_some] at hsame
        simp only [Option.getD_some, Option.some.injEq, exists_eq_left']
        rw [eq_comm, hsame hbad]
        exact ⟨fun h => ⟨hdest, h⟩, And.right⟩

/-- **A `tx` record that is bad.** -/
theorem readTx_iff :
    ((readTx env ssKey ssValue w wss).ok = false →
      SameMaps w (readTx env ssKey ssValue w wss).wallet) ↔ TxKept env ssKey ssValue w := by
  rw [readTx, TxKept]
  cases readLE 32 ssKey with
  | none => exact iff_of_true (fun _ => .refl) nofun
  | some key =>
    obtain ⟨hash, rest⟩ := key
    simp only [Option.some.injEq, Prod.mk.injEq, and_imp, forall_apply_eq_imp_iff, forall_eq']
    generalize ((w.mapWallet.lookup hash).getD (.fresh env.adjustedTime)).fill env.adjustedTime ssValue =
      filled
    obtain ⟨wtx, rest'⟩ := filled
    cases rest' with
    | none => exact (forall_prop_of_true rfl).trans (SameMaps.insertTx_iff hash wtx)
    | some rest' =>
      dsimp only
      rw [CWalletTxRecord.isRight]
      split
      · split
        · next hupgrade =>
          have hneeds : wtx.needsUpgrade = true := hupgrade
          split
          · next hrest => exact iff_of_true nofun fun _ hne => absurd hrest hne
          · next hrest =>
            rw [forall_prop_of_true hneeds, forall_prop_of_true hrest]
            generalize CWalletTxRecord.fillUpgrade (wtx.bindWallet, 0) rest' = filled
            obtain ⟨⟨wtx', fTmp⟩, _ | rest''⟩ := filled
            · exact (forall_prop_of_true rfl).trans
                ((SameMaps.insertTx_iff hash wtx').trans ⟨fun h _ => h, fun h => h rfl⟩)
            · exact iff_of_true nofun nofun
        · next hupgrade => exact iff_of_true nofun fun hneeds => absurd hneeds hupgrade
      · exact (forall_prop_of_true rfl).trans (SameMaps.eraseTx_iff hash)

/-- A crypted key that is not written has been put into the store. -/
theorem addCryptedKey_iff (hcrypted : w.store.isCrypted = true) (vchPubKey vchCryptedSecret : Valtype) :
    ((w.addCryptedKey env vchPubKey vchCryptedSecret).1 = false →
      SameMaps w (w.addCryptedKey env vchPubKey vchCryptedSecret).2) ↔
      (env.fFileBacked = true → env.writesCryptedKey vchPubKey vchCryptedSecret = false →
        w.store.mapCryptedKeys.lookup (env.keyCrypto.hash160 vchPubKey) =
          some (vchPubKey, vchCryptedSecret)) := by
  have hset : w.store.setCrypted = (true, w.store) := if_pos hcrypted
  rw [LoadedWallet.addCryptedKey, CCryptoKeyStore.addCryptedKey, hset]
  dsimp only
  cases hbacked : env.fFileBacked with
  | false => exact iff_of_true nofun nofun
  | true =>
    rw [if_neg (by decide), forall_prop_of_true rfl]
    dsimp only
    refine imp_congr_right fun _ => ⟨fun h => ?_, fun h => ?_⟩
    · exact (h.mapCryptedKeys _).symm.trans (AList.lookup_insert _)
    · refine { SameMaps.refl with mapCryptedKeys := fun id => ?_ }
      by_cases hsame : id = env.keyCrypto.hash160 vchPubKey
      · rw [hsame, h]
        exact AList.lookup_insert _
      · exact AList.lookup_insert_ne hsame

/-- How a key is added to a wallet that is crypted and unlocked. -/
theorem loadKey_of_unlocked {key : CKey} (hcrypted : w.store.isCrypted = true)
    (hlocked : w.store.isLocked = false) {vchPubKey : Valtype} {secret : CSecret × Bool}
    {vchCryptedSecret : Valtype} (hpub : key.getPubKey env.keyCrypto = .ok vchPubKey)
    (hsecret : key.getSecret = .ok secret)
    (hencrypt : encryptSecret env.keyCrypto w.store.vMasterKey secret.1 (env.keyCrypto.hash vchPubKey) =
      some vchCryptedSecret) :
    w.loadKey env key = .ok (w.addCryptedKey env vchPubKey vchCryptedSecret) := by
  rw [LoadedWallet.loadKey, hcrypted, hlocked, hpub, hsecret]
  change (match encryptSecret env.keyCrypto w.store.vMasterKey secret.1
    (env.keyCrypto.hash vchPubKey) with
      | none => pure (false, w)
      | some vchCryptedSecret => pure (w.addCryptedKey env vchPubKey vchCryptedSecret)) = _
  rw [hencrypt]
  rfl

/-- A key is not added and the wallet stays as it is, or it is added, or that is how. -/
theorem loadKey_cases (key : CKey) :
    (∃ err, w.loadKey env key = .error err) ∨ w.loadKey env key = .ok (false, w) ∨
      (∃ w', w.loadKey env key = .ok (true, w')) ∨
        w.store.isCrypted = true ∧ w.store.isLocked = false ∧
          ∃ vchPubKey secret vchCryptedSecret, key.getPubKey env.keyCrypto = .ok vchPubKey ∧
            key.getSecret = .ok secret ∧
              encryptSecret env.keyCrypto w.store.vMasterKey secret.1 (env.keyCrypto.hash vchPubKey) =
                some vchCryptedSecret := by
  cases hcrypted : w.store.isCrypted with
  | false =>
    rw [LoadedWallet.loadKey, hcrypted, CCryptoKeyStore.basicAddKey]
    cases key.getSecret with
    | error err => exact .inl ⟨err, rfl⟩
    | ok secret =>
      cases key.getPubKey env.keyCrypto with
      | error err => exact .inl ⟨err, rfl⟩
      | ok vchPubKey => exact .inr (.inr (.inl ⟨_, rfl⟩))
  | true =>
    cases hlocked : w.store.isLocked with
    | true =>
      rw [LoadedWallet.loadKey, hcrypted, hlocked]
      exact .inr (.inl rfl)
    | false =>
      cases hpub : key.getPubKey env.keyCrypto with
      | error err =>
        rw [LoadedWallet.loadKey, hcrypted, hlocked, hpub]
        exact .inl ⟨err, rfl⟩
      | ok vchPubKey =>
        cases hsecret : key.getSecret with
        | error err =>
          rw [LoadedWallet.loadKey, hcrypted, hlocked, hpub, hsecret]
          exact .inl ⟨err, rfl⟩
        | ok secret =>
          cases hencrypt : encryptSecret env.keyCrypto w.store.vMasterKey secret.1
              (env.keyCrypto.hash vchPubKey) with
          | none =>
            refine .inr (.inl ?_)
            rw [LoadedWallet.loadKey, hcrypted, hlocked, hpub, hsecret]
            change (match encryptSecret env.keyCrypto w.store.vMasterKey secret.1
              (env.keyCrypto.hash vchPubKey) with
                | none => pure (false, w)
                | some vchCryptedSecret => pure (w.addCryptedKey env vchPubKey vchCryptedSecret)) = _
            rw [hencrypt]
            rfl
          | some vchCryptedSecret =>
            exact .inr (.inr (.inr ⟨rfl, rfl, vchPubKey, secret, vchCryptedSecret, rfl, rfl, hencrypt⟩))

/-- **A key that is not added.** -/
theorem addChecked_iff (checked : KeyM (CKey ⊕ String)) :
    ((addChecked env w wss checked).ok = false → SameMaps w (addChecked env w wss checked).wallet) ↔
      AddKept env w checked := by
  rcases checked with _ | key | message
  · exact iff_of_true (fun _ => .refl) nofun
  · rw [addChecked, addKey]
    constructor
    · rintro h _ heq hcrypted hlocked vchPubKey secret vchCryptedSecret hpub hsecret hencrypt
      cases heq
      rw [loadKey_of_unlocked hcrypted hlocked hpub hsecret hencrypt] at h
      refine (addCryptedKey_iff hcrypted vchPubKey vchCryptedSecret).1 fun hfalse => ?_
      generalize w.addCryptedKey env vchPubKey vchCryptedSecret = result at h hfalse ⊢
      obtain ⟨fAdded, w'⟩ := result
      subst hfalse
      exact h rfl
    · intro hkept
      rcases @loadKey_cases env w key with ⟨err, hload⟩ | hload | ⟨w', hload⟩ |
        ⟨hcrypted, hlocked, vchPubKey, secret, vchCryptedSecret, hpub, hsecret, hencrypt⟩
      · rw [hload]
        exact fun _ => .refl
      · rw [hload]
        exact fun _ => .refl
      · rw [hload]
        exact nofun
      · have hsame := (addCryptedKey_iff hcrypted vchPubKey vchCryptedSecret).2
          (hkept key rfl hcrypted hlocked vchPubKey secret vchCryptedSecret hpub hsecret hencrypt)
        rw [loadKey_of_unlocked hcrypted hlocked hpub hsecret hencrypt]
        generalize w.addCryptedKey env vchPubKey vchCryptedSecret = result at hsame ⊢
        obtain ⟨_ | _, w'⟩ := result
        · exact fun _ => hsame rfl
        · exact nofun
  · exact iff_of_true (fun _ => .refl) nofun

/-- A read at the front of a record: where it fails, the record is bad and nothing has changed. -/
theorem read_iff {α : Type} {r : Option (α × List UInt8)} {next : α → LoadResult} {kept : α → Prop}
    (hnext : ∀ x, ((next x).ok = false → SameMaps w (next x).wallet) ↔ kept x) {result : LoadResult}
    (hnone : r = none → result.wallet = w) (hsome : ∀ x rest, r = some (x, rest) → result = next x) :
    (result.ok = false → SameMaps w result.wallet) ↔ ∀ x rest, r = some (x, rest) → kept x := by
  cases r with
  | none =>
    -- nothing is read, and nothing is to be kept
    rw [hnone rfl]
    exact iff_of_true (fun _ => .refl) fun x rest h => by cases h
  | some pair =>
    obtain ⟨x, rest⟩ := pair
    rw [hsome x rest rfl, hnext]
    refine ⟨fun hkept x' rest' h => ?_, fun h => h x rest rfl⟩
    cases h
    exact hkept

theorem readKey_iff :
    ((readKey env ssKey ssValue w wss).ok = false →
      SameMaps w (readKey env ssKey ssValue w wss).wallet) ↔ KeyKept env ssKey ssValue w := by
  rw [readKey, KeyKept]
  refine read_iff (fun vchPubKey => ?_) (fun hkey => by rw [hkey]; rfl) fun x rest hkey => by rw [hkey]
  exact read_iff (fun pkey => addChecked_iff _) (fun hvalue => by rw [hvalue]; rfl)
    fun x rest hvalue => by rw [hvalue]

theorem readWkey_iff :
    ((readWkey env ssKey ssValue w wss).ok = false →
      SameMaps w (readWkey env ssKey ssValue w wss).wallet) ↔ WkeyKept env ssKey ssValue w := by
  rw [readWkey, WkeyKept]
  refine read_iff (fun vchPubKey => ?_) (fun hkey => by rw [hkey]; rfl) fun x rest hkey => by rw [hkey]
  exact read_iff (fun vchPrivKey => addChecked_iff _) (fun hvalue => by rw [hvalue]; rfl)
    fun x rest hvalue => by rw [hvalue]

/-! ## The other records -/

/-- How a record of another type ends: where it is bad, the maps are as before. -/
def LoadResult.Careful (w : LoadedWallet) (result : LoadResult) : Prop :=
  result.ok = false → SameMaps w result.wallet

theorem careful_bad (strErr : LoadError) : (bad w wss strErr).Careful w := fun _ => .refl

theorem careful_good (w w' : LoadedWallet) : (good w' wss).Careful w := nofun

theorem careful_ite {p : Prop} [Decidable p] {result result' : LoadResult} (h : result.Careful w)
    (h' : result'.Careful w) : (if p then result else result').Careful w := by
  split
  · exact h
  · exact h'

theorem careful_readAcentry : (readAcentry ssKey ssValue w wss).Careful w := by
  rw [readAcentry]
  split
  · exact careful_bad _
  · dsimp only
    split
    · exact careful_good _ _
    · split
      · exact careful_bad _
      · exact careful_good _ _

theorem careful_readMkey : (readMkey ssKey ssValue w wss).Careful w := by
  rw [readMkey]
  split
  · exact careful_bad _
  · split
    · exact careful_bad _
    · split
      · exact careful_bad _
      · exact careful_good _ _

/-- A store to which no crypted key can be added stays as it is. -/
theorem addCryptedKey_eq_false {P : KeyCrypto} {vchPubKey vchCryptedSecret : Valtype}
    {store store' : CCryptoKeyStore}
    (h : store.addCryptedKey P vchPubKey vchCryptedSecret = (false, store')) : store' = store := by
  rw [CCryptoKeyStore.addCryptedKey, CCryptoKeyStore.setCrypted] at h
  by_cases hcrypted : store.fUseCrypto = true
  · rw [if_pos hcrypted] at h
    cases h
  · rw [if_neg hcrypted] at h
    by_cases hkeys : store.mapKeys.entries ≠ []
    · rw [if_pos hkeys] at h
      exact (Prod.mk.inj h).2.symm
    · rw [if_neg hkeys] at h
      cases h

theorem careful_readCkey : (readCkey env ssKey ssValue w wss).Careful w := by
  rw [readCkey]
  dsimp only
  split
  · exact careful_bad _
  · split
    · exact careful_bad _
    · split
      · next store hadd =>
        rw [addCryptedKey_eq_false hadd]
        exact careful_bad _
      · exact careful_good _ _

theorem careful_readKeymeta : (readKeymeta env ssKey ssValue w wss).Careful w := by
  rw [readKeymeta]
  split
  · exact careful_bad _
  · split
    · exact careful_bad _
    · exact careful_good _ _

theorem careful_readPool : (readPool env ssKey ssValue w wss).Careful w := by
  rw [readPool]
  split
  · exact careful_bad _
  · split
    · exact careful_bad _
    · exact careful_good _ _

theorem careful_readCscript : (readCscript env ssKey ssValue w wss).Careful w := by
  rw [readCscript]
  split
  · exact careful_bad _
  · split
    · exact careful_bad _
    · exact careful_good _ _

theorem careful_readVersion : (readVersion ssValue w wss).Careful w := by
  rw [readVersion]
  split
  · exact careful_bad _
  · exact careful_good _ _

theorem careful_readMultisend : (readMultisend env ssKey ssValue w wss).Careful w := by
  rw [readMultisend]
  split
  · exact careful_bad _
  · split
    · exact careful_bad _
    · split
      · exact careful_good _ _
      · exact careful_good _ _

theorem careful_readMsettings : (readMsettings ssValue w wss).Careful w := by
  rw [readMsettings]
  split
  · exact careful_bad _
  · exact careful_good _ _

theorem careful_readMdisabled : (readMdisabled ssValue w wss).Careful w := by
  rw [readMdisabled]
  split
  · exact careful_bad _
  · exact careful_good _ _

/-- A record that is read into a field outside the maps. -/
theorem careful_readField {α : Type} {f : Fill α} {old : α} {set : α → LoadedWallet}
    (hset : ∀ a, SameMaps w (set a)) : (readField ssValue wss f old set).Careful w := fun _ =>
  hset (f old ssValue).1

/-- Records of other types are always kept. -/
theorem mapsKept_of_ne {strType : ByteString} (hname : strType ≠ ascii "name") (htx : strType ≠ ascii "tx")
    (hkey : strType ≠ ascii "key") (hwkey : strType ≠ ascii "wkey") :
    MapsKept env ssKey ssValue w strType := by
  rw [MapsKept, if_neg hname, if_neg htx, if_neg hkey, if_neg hwkey]
  trivial

/-- **A record that is bad.** -/
theorem readRecord_iff (strType : ByteString) :
    (readRecord env ssKey ssValue w wss strType).Careful w ↔ MapsKept env ssKey ssValue w strType := by
  by_cases hname : strType = ascii "name"
  · rw [readRecord, if_pos hname, MapsKept, if_pos hname]
    exact readName_iff
  by_cases htx : strType = ascii "tx"
  · rw [readRecord, if_neg hname, if_pos htx, MapsKept, if_neg hname, if_pos htx]
    exact readTx_iff
  by_cases hkey : strType = ascii "key"
  · subst hkey
    exact readKey_iff
  by_cases hwkey : strType = ascii "wkey"
  · subst hwkey
    exact readWkey_iff
  refine iff_of_true ?_ (mapsKept_of_ne hname htx hkey hwkey)
  rw [readRecord, if_neg hname, if_neg htx, if_neg hkey, if_neg hwkey]
  refine careful_ite careful_readAcentry (careful_ite careful_readMkey
    (careful_ite careful_readCkey (careful_ite careful_readKeymeta ?_)))
  refine careful_ite (careful_readField fun _ => { SameMaps.refl with }) (careful_ite careful_readPool
    (careful_ite careful_readVersion (careful_ite careful_readCscript ?_)))
  refine careful_ite (careful_readField fun _ => { SameMaps.refl with })
    (careful_ite (careful_readField fun _ => { SameMaps.refl with }) (careful_ite careful_readMultisend
      (careful_ite careful_readMsettings (careful_ite careful_readMdisabled ?_))))
  exact careful_ite (careful_readField fun _ => { SameMaps.refl with })
    (careful_ite (careful_readField fun _ => { SameMaps.refl with }) (careful_good _ _))

end Bad

/-- **When a bad record leaves the wallet as it was.** -/
theorem readKeyValue_iff (env : LoadEnv) (ssKey ssValue : List UInt8) (w : LoadedWallet)
    (wss : CWalletScanState) :
    ((readKeyValue env ssKey ssValue w wss).ok = false →
      SameMaps w (readKeyValue env ssKey ssValue w wss).wallet) ↔
      ∀ strType rest, readString ssKey = some (strType, rest) → MapsKept env rest ssValue w strType := by
  rw [readKeyValue]
  cases readString ssKey with
  | none => exact iff_of_true (fun _ => .refl) nofun
  | some key =>
    obtain ⟨strType, rest⟩ := key
    simp only [Option.some.injEq, Prod.mk.injEq, and_imp, forall_apply_eq_imp_iff, forall_eq']
    exact readRecord_iff strType

/-! ## A name that is cut off -/

/-- A wallet that nothing has been read into. -/
def unreadWallet : LoadedWallet where
  mapWallet := ∅
  mapAddressBook := ∅
  noDestinations := []
  store := .empty
  mapScripts := ∅
  setKeyPool := ∅
  mapKeyMetadata := ∅
  mapMasterKeys := ∅
  nMasterKeyMaxID := 0
  nTimeFirstKey := 0
  vchDefaultKey := []
  nOrderPosNext := 0
  nStakeSplitThreshold := 1000
  vMultiSend := []
  fMultiSend := false
  nLastMultiSendHeight := 0
  vDisabledAddresses := []
  nHashDrift := 45
  nHashInterval := 22

/-- Every string says one address here. -/
noncomputable def oneAddressEnv : LoadEnv where
  crypto := labelCrypto [] []
  keyCrypto := boxCrypto
  readPrivKey _ _ := none
  checkKey _ := false
  addressOf _ := .keyID 5
  adjustedTime := 1300
  fFileBacked := true
  writesCryptedKey _ _ := false

/-- A `name` record whose value is empty leaves an entry in the address book. -/
theorem not_sameMaps_name :
    ¬∀ (env : LoadEnv) (ssKey ssValue : List UInt8) (w : LoadedWallet) (wss : CWalletScanState),
      (readKeyValue env ssKey ssValue w wss).ok = false →
        SameMaps w (readKeyValue env ssKey ssValue w wss).wallet := by
  intro hall
  have hkept := hall oneAddressEnv (4 :: ascii "name" ++ 1 :: ascii "M") [] unreadWallet
    ⟨0, 0, 0, false, false, 0, [], 0⟩ (by decide +kernel)
  have hafter := hkept.mapAddressBook (.keyID 5)
  revert hafter
  decide +kernel

end MotaCoin
