import Utsuite.HelloPowDeterminism
import Utsuite.ReflectedCrc
import Mathlib.Data.List.Induction

namespace Utsuite.HelloCrc

open ByteWords ByteMem HelloPow List

def POLY : BitVec 32 := 0xEDB88320

abbrev Table := Fin 256 → BitVec 32

abbrev GostSbox := Fin 4 → Table

structure Statics where
  table : Table
  bInit : Bool
  gostSbox : GostSbox
  initCalled : Bool

def fresh : Statics where
  table := fun _ => 0
  bInit := false
  gostSbox := fun _ _ => 0
  initCalled := false

def sbox : List (List (BitVec 32)) := [
  [4, 10, 9, 2, 13, 8, 0, 14, 6, 11, 1, 12, 7, 15, 5, 3],
  [14, 11, 4, 12, 6, 13, 15, 10, 2, 3, 8, 1, 0, 7, 5, 9],
  [5, 8, 1, 13, 10, 3, 4, 2, 14, 15, 12, 7, 6, 0, 9, 11],
  [7, 13, 10, 1, 0, 8, 9, 15, 14, 4, 6, 12, 11, 2, 5, 3],
  [6, 12, 7, 1, 5, 15, 13, 8, 4, 10, 9, 14, 0, 3, 11, 2],
  [4, 11, 10, 0, 7, 2, 1, 13, 3, 6, 8, 5, 9, 12, 15, 14],
  [13, 11, 4, 1, 3, 15, 5, 9, 0, 10, 14, 7, 6, 8, 2, 12],
  [1, 15, 13, 0, 5, 7, 10, 4, 9, 2, 3, 14, 6, 11, 8, 12]]

def rhashGostFillSbox (src : List (List (BitVec 32))) : GostSbox := fun row i =>
  let a := i.val / 16
  let b := i.val % 16
  let box (j k : Nat) := (src.getD j []).getD k 0
  match row with
  | 0 => (box 1 a <<< 15) ||| (box 0 b <<< 11)
  | 1 => (box 3 a <<< 23) ||| (box 2 b <<< 19)
  | 2 => (box 5 a).rotateLeft 31 ||| (box 4 b <<< 27)
  | 3 => (box 7 a <<< 7) ||| (box 6 b <<< 3)

def gostInitTable (s : Statics) : Statics :=
  if s.initCalled then s
  else { s with initCalled := true, gostSbox := rhashGostFillSbox sbox }

def entryStep (entry : BitVec 32) : BitVec 32 :=
  if entry &&& 1 ≠ 0 then (entry >>> 1) ^^^ POLY else entry >>> 1

def tableEntry (index : Fin 256) : BitVec 32 := entryStep^[8] (BitVec.ofNat 32 index.val)

def crc32TableInit (s : Statics) : Statics :=
  if s.bInit then s else { s with bInit := true, table := tableEntry }

/-- The value that `crc32Init` sets. It leaves the table alone, which only `initOneWayFunction`
fills. -/
def crc32Init : BitVec 32 := 0xFFFFFFFF

def lowByte (x : BitVec 32) : Fin 256 := (x.setWidth 8).toFin

def crc32Update (table : Table) (value : BitVec 32) (data : Bytes) : BitVec 32 :=
  data.foldl (fun result b => (result >>> 8) ^^^ table (lowByte (result ^^^ b.toBitVec.setWidth 32))) value

def crc32Final (value : BitVec 32) : Bytes := leBytes 4 (~~~value).toNat

/-- The one-way functions that are not computed here. GOST gets its table as an argument. -/
structure OneWay where
  sha256 : Bytes → Bytes
  sha256_length : ∀ m, (sha256 m).length = 32
  gost : GostSbox → Bytes → Bytes
  gost_length : ∀ t m, (gost t m).length = outputLen
  others : Fin 16 → Bytes → Bytes
  others_length : ∀ t m, (others t m).length = outputLen

def digestWords (digest : Bytes) : List Bytes :=
  (range' 0 8 4).map fun i => (digest.drop i).take 4

def cryptoCrc32 (o : OneWay) (s : Statics) (input : Bytes) : Bytes :=
  (digestWords (o.sha256 input)).flatMap fun word => crc32Final (crc32Update s.table crc32Init word)

theorem flatMap_digestWords_length (f : Bytes → Bytes) (hf : ∀ word, (f word).length = 4) (digest : Bytes) :
    ((digestWords digest).flatMap f).length = outputLen := by
  simp [digestWords, length_flatMap, hf, Function.comp_def, outputLen]

def funcInfor (o : OneWay) (s : Statics) : FuncInfor where
  func t m :=
    if t = 11 then cryptoCrc32 o s m
    else if t = 13 then o.gost s.gostSbox m
    else o.others t m
  size t m := by
    split_ifs
    · exact flatMap_digestWords_length _ (fun _ => leBytes_length 4 _) _
    · exact o.gost_length _ _
    · exact o.others_length _ _

def initOneWayFunction (s : Statics) : Statics := crc32TableInit (gostInitTable s)

def helloHash (F : FuncInfor) (mess : Bytes) (u : Uninitialised) : Except String (Option Bytes) :=
  if mess.length ≠ inputLen then
    .error ("helloHash:Invalid message length " ++ toString mess.length ++ "\n")
  else .ok (powFunction F mess (fun _ => 0) u)

inductive Call
  | initOneWayFunction
  | helloHash (mess : Bytes) (u : Uninitialised)
  | powFunction (input : Bytes) (mem : Mem) (u : Uninitialised)

def Call.run (o : OneWay) (s : Statics) : Call → Option Bytes × Statics
  | .initOneWayFunction => (none, HelloCrc.initOneWayFunction s)
  | .helloHash mess u => ((HelloCrc.helloHash (funcInfor o s) mess u).toOption.join, s)
  | .powFunction input mem u => (HelloPow.powFunction (funcInfor o s) input mem u, s)

def after (o : OneWay) (history : List Call) : Statics :=
  history.foldl (fun s c => (c.run o s).2) fresh

def standardCrc32 (digest : Bytes) : Bytes :=
  (digestWords digest).flatMap fun word => leBytes 4 (ReflectedCrc.crc POLY word).toNat

def standardInfor (o : OneWay) : FuncInfor where
  func t m :=
    if t = 11 then standardCrc32 (o.sha256 m)
    else if t = 13 then o.gost (rhashGostFillSbox sbox) m
    else o.others t m
  size t m := by
    split_ifs
    · exact flatMap_digestWords_length _ (fun _ => leBytes_length 4 _) _
    · exact o.gost_length _ _
    · exact o.others_length _ _

theorem entryStep_eq : entryStep = ReflectedCrc.bitStep POLY := by
  funext entry
  have hlow : entry &&& 1 ≠ 0 ↔ entry.getLsbD 0 = true := by
    change entry &&& 1#32 ≠ 0#32 ↔ _
    rw [BitVec.and_one_eq_setWidth_ofBool_getLsbD]
    cases entry.getLsbD 0 <;> decide
  simp only [entryStep, ReflectedCrc.bitStep, hlow]

theorem tableEntry_lowByte (x : BitVec 32) :
    tableEntry (lowByte x) = (ReflectedCrc.bitStep POLY)^[8] (x &&& 0xff) := by
  have hbyte : BitVec.ofNat 32 (lowByte x).val = x &&& 0xff := by
    apply BitVec.eq_of_toNat_eq
    have hx := Nat.and_two_pow_sub_one_eq_mod x.toNat 8
    change (x.setWidth 8).toNat % 2 ^ 32 = x.toNat &&& 2 ^ 8 - 1
    rw [hx, BitVec.toNat_setWidth]
    omega
  rw [tableEntry, hbyte, entryStep_eq]

theorem crc32Update_tableEntry (value : BitVec 32) (data : Bytes) :
    crc32Update tableEntry value data = data.foldl (ReflectedCrc.byteStep POLY) value := by
  unfold crc32Update
  congr 1
  funext result b
  rw [tableEntry_lowByte, ReflectedCrc.byteStep_eq_table]

theorem crc32Final_tableEntry (word : Bytes) :
    crc32Final (crc32Update tableEntry crc32Init word) = leBytes 4 (ReflectedCrc.crc POLY word).toNat := by
  rw [crc32Update_tableEntry]
  rfl

theorem crc32Update_zero (value : BitVec 32) (hword : word.length = 4) :
    crc32Update (fun _ => 0) value word = 0 := by
  obtain ⟨a, b, c, d, rfl⟩ := length_eq_four.mp hword
  apply BitVec.eq_of_toNat_eq
  have hv := value.isLt
  simp only [crc32Update, foldl_cons, foldl_nil, BitVec.ofNat_eq_ofNat, BitVec.xor_zero,
    BitVec.toNat_ushiftRight, Nat.shiftRight_eq_div_pow, BitVec.toNat_ofNat]
  omega

theorem mem_digestWords_length (h : digest.length = 32) (hw : word ∈ digestWords digest) :
    word.length = 4 := by
  simp only [digestWords, mem_map, mem_range'] at hw
  obtain ⟨i, ⟨k, hk, rfl⟩, rfl⟩ := hw
  rw [length_take, length_drop]
  omega

theorem chunks_flatten (digest : Bytes) (start n : Nat) :
    ((range' start n 4).map fun i => (digest.drop i).take 4).flatten = (digest.drop start).take (4 * n) := by
  induction n generalizing start with
  | zero => simp
  | succ n ih =>
    rw [range'_succ, map_cons, flatten_cons, ih, ← drop_drop, ← take_add,
      Nat.mul_succ, add_comm]

theorem digestWords_flatten (h : digest.length = 32) : (digestWords digest).flatten = digest := by
  rw [digestWords, chunks_flatten, drop_zero, take_of_length_le (by omega)]

theorem flatMap_inj {f g : Bytes → Bytes} (hlen : ∀ word, (f word).length = (g word).length) {words : List Bytes}
    (h : words.flatMap f = words.flatMap g) : ∀ word ∈ words, f word = g word := by
  induction words with
  | nil => simp
  | cons word words ih =>
    rw [flatMap_cons, flatMap_cons] at h
    obtain ⟨hhead, htail⟩ := append_inj h (hlen word)
    exact forall_mem_cons.mpr ⟨hhead, ih htail⟩

theorem crc_eq_ones (hword : word.length = 4)
    (h : leBytes 4 (ReflectedCrc.crc POLY word).toNat = replicate 4 0xff) :
    word = replicate 4 0xff := by
  have hones : ReflectedCrc.crc POLY (replicate 4 0xff) = 0xffffffff := by decide +kernel
  have hvalue : (ReflectedCrc.crc POLY word).toNat = 0xffffffff := by
    have hv := congrArg leValue h
    rw [leValue_leBytes] at hv
    exact (Nat.mod_eq_of_lt (ReflectedCrc.crc POLY word).isLt).symm.trans hv
  have hpoly : POLY.msb = true := by decide
  apply ReflectedCrc.crc_inj hpoly
  · exact hword
  · omega
  · rw [hones]
    exact BitVec.eq_of_toNat_eq hvalue

theorem digest_of_cryptoCrc32_fresh (o : OneWay) {input : Bytes}
    (h : cryptoCrc32 o fresh input = standardCrc32 (o.sha256 input)) :
    o.sha256 input = replicate 32 0xff := by
  have hlen := o.sha256_length input
  have hwords := flatMap_inj (fun word => by rw [crc32Final, leBytes_length, leBytes_length]) h
  have hones : ∀ word ∈ digestWords (o.sha256 input), word = replicate 4 0xff := by
    intro word hw
    have hword := mem_digestWords_length hlen hw
    have heq := hwords word hw
    rw [fresh, crc32Update_zero crc32Init hword] at heq
    exact crc_eq_ones hword heq.symm
  have hlength : (digestWords (o.sha256 input)).length = 8 := by simp [digestWords]
  rw [← digestWords_flatten hlen, eq_replicate_of_mem hones, hlength]
  rfl

def ready : Statics := initOneWayFunction fresh

theorem initOneWayFunction_ready : initOneWayFunction ready = ready := rfl

theorem after_snoc (o : OneWay) (history : List Call) (c : Call) :
    after o (history ++ [c]) = (c.run o (after o history)).2 := by
  rw [after, foldl_append]
  rfl

theorem after_cases (o : OneWay) (history : List Call) :
    (Call.initOneWayFunction ∈ history ∧ after o history = ready) ∨
      (Call.initOneWayFunction ∉ history ∧ after o history = fresh) := by
  induction history using reverseRecOn with
  | nil => exact .inr ⟨not_mem_nil, rfl⟩
  | append_singleton history c ih =>
    rw [after_snoc]
    cases c with
    | initOneWayFunction =>
      refine .inl ⟨by simp, ?_⟩
      rcases ih with ⟨-, h⟩ | ⟨-, h⟩ <;> rw [h]
      · exact initOneWayFunction_ready
      · rfl
    | helloHash mess u => simpa [Call.run] using ih
    | powFunction input mem u => simpa [Call.run] using ih

theorem cryptoCrc32_ready (o : OneWay) (input : Bytes) :
    cryptoCrc32 o ready input = standardCrc32 (o.sha256 input) := by
  rw [cryptoCrc32, standardCrc32]
  congr 1
  funext word
  exact crc32Final_tableEntry word

theorem funcInfor_ready (o : OneWay) : funcInfor o ready = standardInfor o := by
  have hfunc : (funcInfor o ready).func = (standardInfor o).func := by
    funext t m
    simp only [funcInfor, standardInfor, cryptoCrc32_ready]
    rfl
  generalize funcInfor o ready = F at hfunc
  generalize standardInfor o = G at hfunc
  cases F
  cases G
  simpa using hfunc

theorem helloHash_determined (F : FuncInfor) (mess : Bytes) (u u' : Uninitialised) :
    helloHash F mess u = helloHash F mess u' := by
  unfold helloHash
  split_ifs
  · rfl
  · obtain ⟨out, -, hout⟩ := HelloPowDeterminism.powFunction_eq_some F mess (fun _ => 0) u
    rw [hout, hout]

/-- The digest is the standard CRC-32 in exactly those processes that called `initOneWayFunction`
before. -/
theorem crc32_standard_iff_initialised (o : OneWay) (hsha : ∃ m, o.sha256 m ≠ replicate 32 0xff)
    (history : List Call) :
    ((∀ input, cryptoCrc32 o (after o history) input = standardCrc32 (o.sha256 input)) ∧
      (∀ input, (funcInfor o (after o history)).func 11 input = standardCrc32 (o.sha256 input)) ∧
      ∀ mess u u', helloHash (funcInfor o (after o history)) mess u = helloHash (standardInfor o) mess u') ↔
    Call.initOneWayFunction ∈ history := by
  rcases after_cases o history with ⟨hmem, hafter⟩ | ⟨hmem, hafter⟩ <;> rw [hafter]
  · refine iff_of_true ⟨cryptoCrc32_ready o, cryptoCrc32_ready o, fun mess u u' => ?_⟩ hmem
    rw [funcInfor_ready, helloHash_determined]
  · refine iff_of_false (fun ⟨hcrc, _⟩ => ?_) hmem
    obtain ⟨m, hm⟩ := hsha
    exact hm (digest_of_cryptoCrc32_fresh o (hcrc m))

def emptyDigest : Bytes :=
  [0xe3, 0xb0, 0xc4, 0x42, 0x98, 0xfc, 0x1c, 0x14, 0x9a, 0xfb, 0xf4, 0xc8, 0x99, 0x6f, 0xb9, 0x24,
    0x27, 0xae, 0x41, 0xe4, 0x64, 0x9b, 0x93, 0x4c, 0xa4, 0x95, 0x99, 0x1b, 0x78, 0x52, 0xb8, 0x55]

def emptyOneWay : OneWay where
  sha256 := fun _ => emptyDigest
  sha256_length := fun _ => rfl
  gost := fun _ _ => replicate 32 0
  gost_length := fun _ _ => rfl
  others := fun _ _ => replicate 32 0
  others_length := fun _ _ => rfl

theorem crc32_standard_initialised :
    Call.initOneWayFunction ∈ [Call.initOneWayFunction] ∧
      ∀ input, cryptoCrc32 emptyOneWay (after emptyOneWay [.initOneWayFunction]) input =
        standardCrc32 (emptyOneWay.sha256 input) := by
  have hmem : Call.initOneWayFunction ∈ [Call.initOneWayFunction] := mem_singleton_self _
  exact ⟨hmem, ((crc32_standard_iff_initialised emptyOneWay ⟨[], by decide⟩ _).mpr hmem).1⟩

/-- Without that call the table is all zeros, and the empty message gets 32 bytes of ones. -/
theorem crc32_without_table :
    cryptoCrc32 emptyOneWay (after emptyOneWay []) [] = replicate 32 0xff ∧
      cryptoCrc32 emptyOneWay (after emptyOneWay [.initOneWayFunction]) [] ≠ replicate 32 0xff ∧
      standardCrc32 emptyDigest ≠ replicate 32 0xff := by
  refine ⟨?_, ?_, ?_⟩ <;> decide +kernel

end Utsuite.HelloCrc
