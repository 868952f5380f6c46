import Utsuite.Transaction

namespace Utsuite.ScriptSign

open ByteWords Transaction

inductive txnouttype
  | nonstandard
  | pubkey
  | pubkeyhash
  | scripthash
  | multisig
  | nullData
  deriving DecidableEq

def pushData (b : Bytes) : CScript :=
  if b.length < 0x4c then UInt8.ofNat b.length :: b
  else if b.length ≤ 0xff then 0x4c :: UInt8.ofNat b.length :: b
  else if b.length ≤ 0xffff then 0x4d :: leBytes 2 b.length ++ b
  else 0x4e :: leBytes 4 b.length ++ b

def pushAll (values : List Bytes) : CScript := values.reverse.flatMap pushData

def required (multisigdata : List Bytes) : Nat := ((multisigdata.headD []).headD 0).toNat

-- the public keys stand between the two numbers
def pubkeys (multisigdata : List Bytes) : List Bytes := multisigdata.tail.dropLast

def setScriptSig (tx : CMutableTransaction) (nIn : Nat) (scriptSig : CScript) :
    CMutableTransaction :=
  { tx with vin := tx.vin.modify nIn fun txin => { txin with scriptSig } }

def clearScriptSigs (tx : CMutableTransaction) : CMutableTransaction :=
  { tx with vin := tx.vin.map fun txin => { txin with scriptSig := [] } }

theorem clearScriptSigs_setScriptSig (tx : CMutableTransaction) (i : Nat) (scriptSig : CScript) :
    clearScriptSigs (setScriptSig tx i scriptSig) = clearScriptSigs tx := by
  have hvin : (tx.vin.modify i fun txin => { txin with scriptSig }).map
      (fun txin => { txin with scriptSig := [] }) =
        tx.vin.map fun txin => { txin with scriptSig := [] } := by
    apply List.ext_getElem?
    intro k
    rw [List.getElem?_map, List.getElem?_map, List.getElem?_modify]
    cases tx.vin[k]? with
    | none => rfl
    | some txin => split_ifs <;> rfl
  rw [clearScriptSigs, setScriptSig, hvin]
  rfl

theorem getElem?_setScriptSig (tx : CMutableTransaction) (i : Nat) (scriptSig : CScript) :
    (setScriptSig tx i scriptSig).vin[i]? =
      tx.vin[i]?.map fun txin => { txin with scriptSig } := by
  rw [setScriptSig, List.getElem?_modify]
  simp

end Utsuite.ScriptSign
