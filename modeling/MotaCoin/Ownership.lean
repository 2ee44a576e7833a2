import MotaCoin.Solver
import MotaCoin.KeyStore

/-!
# Destinations and ownership of scripts

The destination a script pays to, and whether a key store can sign for it.

## Main definitions

* `CTxDestination`, `extractDestination`, `setDestination`
* `OwnKeys`: what is asked of a key store
* `OwnKeys.isMineDestination`, `OwnKeys.isMine`: `IsMine` for a destination and for a script
-/

namespace MotaCoin

open Wire

/-- `CTxDestination`. -/
inductive CTxDestination where
  /-- `CNoDestination`. -/
  | noDestination
  /-- `CKeyID`. -/
  | keyID (id : Uint160)
  /-- `CScriptID`. -/
  | scriptID (id : Uint160)
  deriving DecidableEq, Repr

/-- `CScript::SetDestination`. -/
def setDestination : CTxDestination → CScript
  | .noDestination => []
  | .keyID id => ofOpcode OP_DUP ++ ofOpcode OP_HASH160 ++ pushData (leBytes 20 id) ++
      ofOpcode OP_EQUALVERIFY ++ ofOpcode OP_CHECKSIG
  | .scriptID id => ofOpcode OP_HASH160 ++ pushData (leBytes 20 id) ++ ofOpcode OP_EQUAL

/-- What is asked of a key store, and the hash that names keys. -/
structure OwnKeys where
  /-- `Hash160`. -/
  hash160 : Valtype → Uint160
  /-- `HaveKey`. -/
  haveKey : Uint160 → Bool
  mapScripts : AList fun _ : Uint160 => CScript

/-- `ExtractDestination`, for the hash that names keys. -/
def extractDestination (hash160 : Valtype → Uint160) (scriptPubKey : CScript) :
    Option CTxDestination :=
  let solution := solver scriptPubKey
  let vch := solution.vSolutions.headD []
  if !solution.solved then none
  else match solution.type with
    | .pubKey => some (.keyID (hash160 vch))
    | .pubKeyHash => some (.keyID (ofLE vch))
    | .scriptHash => some (.scriptID (ofLE vch))
    | .nonstandard | .multiSig => none

namespace OwnKeys

variable (keys : OwnKeys)

/-- `HaveKeys`. -/
def haveKeys (pubkeys : List Valtype) : Nat :=
  pubkeys.countP fun pubkey => keys.haveKey (keys.hash160 pubkey)

/-- `IsMine` for a destination. -/
def isMineDestination : CTxDestination → Bool
  | .noDestination => false
  | .keyID id => keys.haveKey id
  | .scriptID id => (keys.mapScripts.lookup id).isSome

/-- `IsMine` for a script, which looks into the script that a script hash names; `fuel` bounds how
often. -/
def isMineFrom : Nat → CScript → Bool
  | fuel, scriptPubKey =>
    let solution := solver scriptPubKey
    let vch := solution.vSolutions.headD []
    if !solution.solved then false
    else match solution.type with
      | .nonstandard => false
      | .pubKey => keys.haveKey (keys.hash160 vch)
      | .pubKeyHash => keys.haveKey (ofLE vch)
      | .scriptHash =>
        match fuel, keys.mapScripts.lookup (ofLE vch) with
        | fuel + 1, some subscript => isMineFrom fuel subscript
        | _, _ => false
      | .multiSig =>
        let pubkeys := (solution.vSolutions.drop 1).dropLast
        keys.haveKeys pubkeys == pubkeys.length

/-- `IsMine` for a script. A script does not contain its own hash, so that each script of
`mapScripts` is looked into at most once. -/
def isMine (scriptPubKey : CScript) : Bool := keys.isMineFrom keys.mapScripts.keys.length scriptPubKey

end OwnKeys

end MotaCoin
