import Utsuite.CurveKeys
import Utsuite.HexText
import Utsuite.PropertyTree

namespace Utsuite.RawTransaction

open ByteWords Transaction HexText PropertyTree List
open Base58 (CBase58Data)
open DumpText (Program)
open WalletFile (ascii)

/-- The functions of other libraries and the parameters of the network. A cast that throws gives
`none`. -/
structure Library where
  readJson : Bytes → Option (PTree UInt8)
  readJson_nil : readJson [] = none
  lexicalCastInt : Bytes → Option Int32
  lexicalCastUnsigned : Bytes → Option UInt32
  amount : Bytes → Option Int64
  program : Program
  check : Bytes → Bool
  scriptAddress : UInt8

/-- How a command ends without a transaction. `undefined` is an access behind the end of a vector.
-/
inductive Exit
  | returned (text : String)
  | thrown
  | undefined
  deriving DecidableEq

def dot : UInt8 := 0x2e

def txidName : Bytes := ascii ['t', 'x', 'i', 'd']

def voutName : Bytes := ascii ['v', 'o', 'u', 't']

def hasTxid (str : Bytes) : Bool := decide (txidName <:+: str)

structure Texts where
  keyid : List Bytes
  value : List Bytes
  deriving DecidableEq

def Texts.push (texts : Texts) (key text : Bytes) : Texts :=
  if hasTxid key then { texts with keyid := texts.keyid ++ [text] }
  else { texts with value := texts.value ++ [text] }

/-- Every member is looked up again by its name, so of equal names the first one counts. -/
def getMembers (tkt : PTree UInt8) : List (Bytes × PTree UInt8) → Texts → Option Texts
  | [], texts => some texts
  | (tktKey, _) :: members, texts =>
    (tkt.get dot tktKey).bind fun tktVal => getMembers tkt members (texts.push tktKey tktVal)

def getRound (root : PTree UInt8) (key : Bytes) (texts : Texts) : Option Texts :=
  if key = [] then
    -- not the child that the loop is at, but the first child of what the key leads to
    (root.getChild dot key).bind fun tktNode =>
      match tktNode.children with
      | [] => none
      | (_, tkt) :: _ => getMembers tkt tkt.children texts
  else (root.get dot key).map fun val => ⟨texts.keyid ++ [key], texts.value ++ [val]⟩

def getRounds (root : PTree UInt8) : List (Bytes × PTree UInt8) → Texts → Option Texts
  | [], texts => some texts
  | (key, _) :: rest, texts => (getRound root key texts).bind (getRounds root rest)

def gettx (L : Library) (jsonStr : Bytes) : Option Texts :=
  (L.readJson jsonStr).bind fun root => getRounds root root.children ⟨[], []⟩

def keyRound (root : PTree UInt8) (keyid : List Bytes) (child : Bytes × PTree UInt8) :
    Option (List Bytes) :=
  if child.1 = [] then
    (root.getChild dot child.1).map fun keyNode => keyNode.children.foldl (fun keyid _ => keyid) keyid
  else some keyid

def getjsonkey (L : Library) (param : Bytes) (keyid : List Bytes) : Option (List Bytes) :=
  (L.readJson param).bind fun root => root.children.foldlM (keyRound root) keyid

-- `rawTx` has no lock time, which leaves the largest `nSequence`
def rawInput (txid : uint256) (nOutput : UInt32) : CTxIn := ⟨⟨txid, nOutput⟩, [], 0xffffffff⟩

def rawInputs (L : Library) : List Bytes → List Bytes → Except Exit (List CTxIn)
  | [], _ => .ok []
  | _ :: _, [] => .error .undefined
  | txid :: txids, txidx :: txidxs =>
    match L.lexicalCastUnsigned txidx with
    | none => .error .thrown
    | some nOutput => (rawInputs L txids txidxs).map (rawInput (uint256S txid) nOutput :: ·)

def addressIsValid (L : Library) (address : CBase58Data) : Bool :=
  address.vchData.length == 20 &&
    (address.vchVersion == [L.program.pubkeyAddress] ||
      address.vchVersion == [L.scriptAddress])

def scriptForDestination (L : Library) (address : CBase58Data) : CScript :=
  if address.vchVersion = [L.program.pubkeyAddress] then
    [0x76, 0xa9, 0x14] ++ address.vchData ++ [0x88, 0xac]
  else [0xa9, 0x14] ++ address.vchData ++ [0x87]

def rawOutputs (L : Library) :
    List Bytes → List Bytes → List CBase58Data → Except Exit (List CTxOut)
  | [], _, _ => .ok []
  | outaddr :: outaddrs, outamts, setAddress =>
    match CBase58Data.setString L.program.hash outaddr with
    | .error _ => .error (.returned "")
    | .ok address =>
      if !addressIsValid L address then .error (.returned "")
      else if address ∈ setAddress then .error (.returned "")
      else match outamts with
        | [] => .error .undefined
        | outamt :: outamts =>
          match L.amount outamt with
          | none => .error .thrown
          | some nAmount => (rawOutputs L outaddrs outamts (address :: setAddress)).map
              (⟨nAmount, scriptForDestination L address⟩ :: ·)

def finishRaw (L : Library) (outs : Texts) (vin : List CTxIn) : Except Exit CMutableTransaction :=
  (rawOutputs L outs.keyid outs.value []).map fun vout => ⟨1, vin, vout, 0⟩

def createrawtx (L : Library) (param1 param2 : Bytes) : Except Exit CMutableTransaction :=
  match gettx L param1, gettx L param2 with
  | some ins, some outs => (rawInputs L ins.keyid ins.value).bind (finishRaw L outs)
  | _, _ => .error .thrown

def idTexts (members : List (Bytes × Bytes)) : List Bytes :=
  (members.filter fun m => hasTxid m.1).map Prod.snd

def otherTexts (members : List (Bytes × Bytes)) : List Bytes :=
  (members.filter fun m => !hasTxid m.1).map Prod.snd

structure Named (members : List (Bytes × Bytes)) : Prop where
  nodup : (members.map Prod.fst).Nodup
  simple : ∀ m ∈ members, Simple dot m.1

theorem getMembers_object (h : Named members) (texts : Texts) :
    getMembers (.object members) (PTree.object members).children texts =
      some ⟨texts.keyid ++ idTexts members, texts.value ++ otherTexts members⟩ := by
  -- The members that are still to come are looked up in the whole object.
  suffices hrest : ∀ rest ⊆ members, ∀ texts : Texts,
      getMembers (.object members) (rest.map fun m => (m.1, .leaf m.2)) texts =
        some ⟨texts.keyid ++ idTexts rest, texts.value ++ otherTexts rest⟩ from
    hrest members (List.Subset.refl _) texts
  intro rest
  induction rest with
  | nil =>
    intro _ texts
    simp [getMembers, idTexts, otherTexts]
  | cons m rest ih =>
    intro hsub texts
    obtain ⟨hm, hrest⟩ := List.cons_subset.mp hsub
    rw [map_cons, getMembers, PTree.get_object h.nodup hm (h.simple m hm), Option.bind_some,
      ih hrest]
    cases htxid : hasTxid m.1 <;> simp [Texts.push, htxid, idTexts, otherTexts]

theorem getRounds_array (h : Named first) (rest : List (PTree UInt8))
    (elements : List (PTree UInt8)) (texts : Texts) :
    getRounds (.array (.object first :: rest)) (elements.map fun t => ([], t)) texts =
      some ⟨texts.keyid ++ elements.flatMap fun _ => idTexts first,
        texts.value ++ elements.flatMap fun _ => otherTexts first⟩ := by
  induction elements generalizing texts with
  | nil => simp [getRounds]
  | cons t elements ih =>
    have hround : getRound (.array (.object first :: rest)) [] texts =
        some ⟨texts.keyid ++ idTexts first, texts.value ++ otherTexts first⟩ := by
      rw [getRound, if_pos rfl, PTree.getChild_nil]
      exact getMembers_object h texts
    rw [map_cons, getRounds, hround, Option.bind_some, ih]
    simp

theorem gettx_array {L : Library} {jsonStr : Bytes} {objects : List (List (Bytes × Bytes))}
    (hread : L.readJson jsonStr = some (.array (objects.map .object)))
    (h : ∀ members ∈ objects, Named members) :
    gettx L jsonStr = some ⟨objects.flatMap fun _ => idTexts (objects.headD []),
      objects.flatMap fun _ => otherTexts (objects.headD [])⟩ := by
  rw [gettx, hread, Option.bind_some]
  cases objects with
  | nil => rfl
  | cons first objects =>
    have hrounds := getRounds_array (h first mem_cons_self) (objects.map .object)
      (.object first :: objects.map .object) ⟨[], []⟩
    rw [← map_cons (f := PTree.object), flatMap_map, flatMap_map] at hrounds
    exact hrounds

theorem keyRound_eq (root : PTree UInt8) (keyid : List Bytes) (child : Bytes × PTree UInt8) :
    keyRound root keyid child = some keyid := by
  rw [keyRound]
  split_ifs with hname
  · rw [hname, PTree.getChild_nil, Option.map_some, foldl_fixed]
  · rfl

theorem getjsonkey_eq (hread : L.readJson param = some root) (keyid : List Bytes) :
    getjsonkey L param keyid = some keyid := by
  rw [getjsonkey, hread, Option.bind_some]
  induction root.children with
  | nil => rfl
  | cons child children ih =>
    rw [foldlM_cons, keyRound_eq]
    exact ih

structure RawOutPoint where
  txid : Bytes
  vout : Bytes
  deriving DecidableEq

def RawOutPoint.members (o : RawOutPoint) : List (Bytes × Bytes) :=
  [(txidName, o.txid), (voutName, o.vout)]

def RawOutPoint.input (L : Library) (o : RawOutPoint) : Except Exit CTxIn :=
  match L.lexicalCastUnsigned o.vout with
  | none => .error .thrown
  | some nOutput => .ok (rawInput (uint256S o.txid) nOutput)

def createFrom (L : Library) (ins : List RawOutPoint) (param2 : Bytes) :
    Except Exit CMutableTransaction :=
  match gettx L param2 with
  | none => .error .thrown
  | some outs => (ins.mapM (RawOutPoint.input L)).bind (finishRaw L outs)

/-- `gettx` and `getjsonkey` extract the texts as they stand in the arrays, and every object gives
one input. -/
structure Extracted (L : Library) (param1 : Bytes) (ins : List RawOutPoint) (param : Bytes)
    (keys : List Bytes) : Prop where
  gettx_eq : gettx L param1 = some ⟨ins.map RawOutPoint.txid, ins.map RawOutPoint.vout⟩
  createrawtx_eq : ∀ param2, createrawtx L param1 param2 = createFrom L ins param2
  getjsonkey_eq : getjsonkey L param [] = some keys

theorem RawOutPoint.named (o : RawOutPoint) : Named o.members where
  nodup := by
    have hne : txidName ≠ voutName := by decide
    simpa [RawOutPoint.members] using hne
  simple := by
    have hsimple : ∀ name ∈ [txidName, voutName], Simple dot name := by
      unfold Simple
      decide
    simpa [RawOutPoint.members] using hsimple

theorem RawOutPoint.idTexts_members (o : RawOutPoint) : idTexts o.members = [o.txid] := by
  have htxid : hasTxid txidName = true := by decide
  have hvout : hasTxid voutName = false := by decide
  simp [idTexts, RawOutPoint.members, htxid, hvout]

theorem RawOutPoint.otherTexts_members (o : RawOutPoint) : otherTexts o.members = [o.vout] := by
  have htxid : hasTxid txidName = true := by decide
  have hvout : hasTxid voutName = false := by decide
  simp [otherTexts, RawOutPoint.members, htxid, hvout]

theorem gettx_rawOutPoints {L : Library} {param1 : Bytes} {first : RawOutPoint}
    {ins : List RawOutPoint}
    (hread : L.readJson param1 =
      some (.array ((first :: ins).map fun o => .object o.members))) :
    gettx L param1 = some ⟨(first :: ins).map fun _ => first.txid,
      (first :: ins).map fun _ => first.vout⟩ := by
  have hobjects : L.readJson param1 =
      some (.array (((first :: ins).map RawOutPoint.members).map .object)) := by
    rw [hread, map_map]
    rfl
  have hnamed : ∀ members ∈ (first :: ins).map RawOutPoint.members, Named members := by
    intro members hmembers
    obtain ⟨o, -, rfl⟩ := List.mem_map.mp hmembers
    exact o.named
  rw [gettx_array hobjects hnamed, flatMap_map, flatMap_map, map_cons,
    headD_cons, first.idTexts_members, first.otherTexts_members, ← map_eq_flatMap,
    ← map_eq_flatMap]

theorem rawInputs_map (L : Library) (ins : List RawOutPoint) :
    rawInputs L (ins.map RawOutPoint.txid) (ins.map RawOutPoint.vout) =
      ins.mapM (RawOutPoint.input L) := by
  induction ins with
  | nil => rfl
  | cons o ins ih =>
    rw [map_cons, map_cons, rawInputs, ih, mapM_cons, RawOutPoint.input]
    cases L.lexicalCastUnsigned o.vout with
    | none => rfl
    | some nOutput =>
      cases ins.mapM (RawOutPoint.input L) <;> rfl

theorem createrawtx_of_gettx
    (h : gettx L param1 = some ⟨ins.map RawOutPoint.txid, ins.map RawOutPoint.vout⟩)
    (param2 : Bytes) : createrawtx L param1 param2 = createFrom L ins param2 := by
  rw [createrawtx, createFrom, h]
  cases gettx L param2 with
  | none => rfl
  | some outs =>
    dsimp only
    rw [rawInputs_map]

theorem gettx_eq_iff {L : Library} {param1 : Bytes} {ins : List RawOutPoint}
    (hread : L.readJson param1 = some (.array (ins.map fun o => .object o.members))) :
    gettx L param1 = some ⟨ins.map RawOutPoint.txid, ins.map RawOutPoint.vout⟩ ↔
      ∀ o ∈ ins, ∀ o' ∈ ins, o = o' := by
  cases ins with
  | nil =>
    rw [gettx, hread]
    exact ⟨fun _ _ ho => absurd ho not_mem_nil, fun _ => rfl⟩
  | cons first ins =>
    rw [gettx_rawOutPoints hread, Option.some_inj, Texts.mk.injEq, map_inj_left,
      map_inj_left]
    constructor
    · rintro ⟨htxid, hvout⟩
      have hfirst : ∀ o ∈ first :: ins, o = first := by
        rintro ⟨txid, vout⟩ ho
        rw [← show first.txid = txid from htxid _ ho, ← show first.vout = vout from hvout _ ho]
      intro o ho o' ho'
      rw [hfirst o ho, hfirst o' ho']
    · intro hall
      have hfirst : ∀ o ∈ first :: ins, first = o := hall first mem_cons_self
      exact ⟨fun o ho => congrArg RawOutPoint.txid (hfirst o ho),
        fun o ho => congrArg RawOutPoint.vout (hfirst o ho)⟩

/-- The texts are extracted as they stand only if all objects are the same and there is no key. -/
theorem extracted_iff (L : Library) {param1 param : Bytes} {ins : List RawOutPoint}
    {keys : List Bytes}
    (hins : L.readJson param1 = some (.array (ins.map fun o => .object o.members)))
    (hkeys : L.readJson param = some (.array (keys.map .leaf))) :
    Extracted L param1 ins param keys ↔ (∀ o ∈ ins, ∀ o' ∈ ins, o = o') ∧ keys = [] := by
  constructor
  · rintro ⟨hgettx, -, hjsonkey⟩
    rw [getjsonkey_eq hkeys, Option.some_inj] at hjsonkey
    exact ⟨(gettx_eq_iff hins).mp hgettx, hjsonkey.symm⟩
  · rintro ⟨hall, rfl⟩
    have hgettx := (gettx_eq_iff hins).mpr hall
    exact ⟨hgettx, createrawtx_of_gettx hgettx, getjsonkey_eq hkeys []⟩

def decimal (text : Bytes) : Option Nat :=
  if text ≠ [] ∧ text.all fun c => 0x30 ≤ c && c ≤ 0x39 then
    some (text.foldl (fun n c => 10 * n + (c - 0x30).toNat) 0)
  else none

def twoTexts (ones others : PTree UInt8) : Library where
  readJson
    | [] => none
    | 1 :: _ => some ones
    | _ :: _ => some others
  readJson_nil := rfl
  lexicalCastInt text := (decimal text).bind fun n => if n < 2 ^ 31 then some (.ofNat n) else none
  lexicalCastUnsigned text :=
    (decimal text).bind fun n => if n < 2 ^ 32 then some (.ofNat n) else none
  amount text := (decimal text).map fun n => .ofNat (n * 100000000)
  program := CurveKeys.sampleProgram
  check := PrivKey.seckeyVerify
  scriptAddress := 63

theorem extracted_iff_same :
    let ins : List RawOutPoint := [⟨[0x61], [0x37]⟩, ⟨[0x61], [0x37]⟩]
    let L := twoTexts (.array (ins.map fun o => .object o.members)) (.array [])
    Extracted L [1] ins [2] [] ∧
      (rawInputs L (ins.map RawOutPoint.txid) (ins.map RawOutPoint.vout)).toOption =
        some [rawInput (uint256S [0x61]) 7, rawInput (uint256S [0x61]) 7] := by
  intro ins L
  exact ⟨(extracted_iff L rfl rfl).mpr ⟨by decide, rfl⟩, by decide⟩

/-- Of two different objects the first one is read twice, and no key is read. -/
theorem not_extracted_two :
    let ins : List RawOutPoint := [⟨[0x61], [0x37]⟩, ⟨[0x62], [0x38]⟩]
    let L := twoTexts (.array (ins.map fun o => .object o.members)) (.array [.leaf [0x6b]])
    gettx L [1] = some ⟨[[0x61], [0x61]], [[0x37], [0x37]]⟩ ∧
      getjsonkey L [2] [] = some [] ∧ ¬Extracted L [1] ins [2] [[0x6b]] := by
  intro ins L
  have hgettx : gettx L [1] = some ⟨[[0x61], [0x61]], [[0x37], [0x37]]⟩ := by decide
  have hjsonkey : getjsonkey L [2] [] = some [] := by decide
  refine ⟨hgettx, hjsonkey, fun h => ?_⟩
  have heq := hjsonkey.symm.trans h.getjsonkey_eq
  cases heq

end Utsuite.RawTransaction
