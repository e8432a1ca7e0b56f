import Mathlib.Data.BitVec
import Mathlib.Tactic.Ring
import AbtSt.RoundRobin
import AbtSt.Runs

/-! The hash mapping. A key is hashed to a bucket and the buckets are dealt out
to the loads in equal runs. The arithmetic is that of the fixed-width types of
the source; only the divisions depend on the platform. -/

namespace AbtSt

structure UserKey where
  lba : UInt64
  volumeId : UInt64
  deriving DecidableEq

structure HashInfo where
  totalBuckets : UInt32
  blockSize : UInt32
  hashFn : UserKey → UInt64

def setHashInfo (bucketNum blockSz : UInt32) (hashFunc : UserKey → UInt64) : HashInfo :=
  ⟨bucketNum, blockSz, hashFunc⟩

def Platform.div32 (pf : Platform) (a b : UInt32) : Except Fault UInt32 := do
  let q ← pf.div a.toNat b.toNat
  .ok (UInt32.ofNat q)

def Platform.div64 (pf : Platform) (a b : UInt64) : Except Fault UInt64 := do
  let q ← pf.div a.toNat b.toNat
  .ok (UInt64.ofNat q)

/-- A remainder is computed from the quotient. -/
def Platform.mod64 (pf : Platform) (a b : UInt64) : Except Fault UInt64 := do
  let q ← pf.div64 a b
  .ok (a - q * b)

def getHashKey (pf : Platform) (hashFn : UserKey → UInt64) (key : UserKey) (bucketNum : Int32) :
    Except Fault Int32 := do
  let r ← pf.mod64 (hashFn key) bucketNum.toUInt32.toUInt64
  .ok r.toUInt32.toInt32

/-- The last lines of `hash_mapping_to_load`: the sum is a `uint32_t`. -/
def bucketToLoad (pf : Platform) (totalBuckets nrLoads : UInt32) (hash : Int32) :
    Except Fault UInt32 := do
  let bucketsPerLoads ← pf.div32 (totalBuckets + nrLoads - 1) nrLoads
  pf.div32 hash.toUInt32 bucketsPerLoads

def hashMappingToLoad (pf : Platform) (info : HashInfo) (nrLoads : UInt32) (key : UserKey) :
    Except Fault UInt32 := do
  let q ← pf.div64 key.lba info.blockSize.toUInt64
  let userKey : UserKey := ⟨q * info.blockSize.toUInt64, key.volumeId⟩
  let hash ← getHashKey pf info.hashFn userKey info.totalBuckets.toInt32
  bucketToLoad pf info.totalBuckets nrLoads hash

/-- Thomas Wang's 64 bit mix function on the 512-byte block, plus the volume. -/
def abtstHashFunc (key : UserKey) : UInt64 :=
  let priLoc := key.lba >>> 9
  let priLoc := ~~~priLoc + (priLoc <<< 21)
  let priLoc := priLoc ^^^ (priLoc >>> 24)
  let priLoc := (priLoc + (priLoc <<< 3)) + (priLoc <<< 8)
  let priLoc := priLoc ^^^ (priLoc >>> 14)
  let priLoc := (priLoc + (priLoc <<< 2)) + (priLoc <<< 4)
  let priLoc := priLoc ^^^ (priLoc >>> 28)
  let priLoc := priLoc + (priLoc <<< 31)
  priLoc + key.volumeId

theorem toNat_ne_zero {a : UInt32} (h : a ≠ 0) : a.toNat ≠ 0 :=
  fun h0 => h (UInt32.toNat.inj h0)

theorem Platform.div32_pos {pf : Platform} {a b : UInt32} (h : b ≠ 0) :
    pf.div32 a b = .ok (a / b) := by
  have hb := toNat_ne_zero h
  have hq : UInt32.ofNat (a.toNat / b.toNat) = a / b := by
    apply UInt32.toNat.inj
    rw [← UInt32.toNat_div, UInt32.ofNat_toNat]
  simp [Platform.div32, Platform.div_pos hb, bind, Except.bind, hq]

theorem Platform.div64_pos {pf : Platform} {a b : UInt64} (h : b ≠ 0) :
    pf.div64 a b = .ok (a / b) := by
  have hb : b.toNat ≠ 0 := fun h0 => h (UInt64.toNat.inj h0)
  have hq : UInt64.ofNat (a.toNat / b.toNat) = a / b := by
    apply UInt64.toNat.inj
    rw [← UInt64.toNat_div, UInt64.ofNat_toNat]
  simp [Platform.div64, Platform.div_pos hb, bind, Except.bind, hq]

theorem Platform.mod64_pos {pf : Platform} {a b : UInt64} (h : b ≠ 0) :
    pf.mod64 a b = .ok (a % b) := by
  have hle : a.toNat / b.toNat * b.toNat ≤ a.toNat := Nat.div_mul_le_self _ _
  have hlt := a.toNat_lt
  have hmul : (a / b * b).toNat = a.toNat / b.toNat * b.toNat := by
    rw [UInt64.toNat_mul, UInt64.toNat_div]
    exact Nat.mod_eq_of_lt (by omega)
  have hr : a - a / b * b = a % b := by
    apply UInt64.toNat.inj
    rw [UInt64.toNat_sub, hmul, UInt64.toNat_mod]
    have := Nat.div_add_mod' a.toNat b.toNat
    omega
  simp [Platform.mod64, Platform.div64_pos h, bind, Except.bind, hr]

theorem Platform.div32_zero {pf : Platform} (h : pf.divZero = none) (a : UInt32) :
    pf.div32 a 0 = .error .divByZero := by
  simp [Platform.div32, Platform.div, h, bind, Except.bind]

theorem toUInt64_ne_zero {a : UInt32} (h : a ≠ 0) : a.toUInt64 ≠ 0 := by
  intro h0
  apply h
  apply UInt32.toNat.inj
  rw [← UInt32.toNat_toUInt64, h0]
  rfl

theorem getHashKey_ok (pf : Platform) (hashFn : UserKey → UInt64) (key : UserKey)
    {totalBuckets : UInt32} (h : totalBuckets ≠ 0) :
    ∃ hash, getHashKey pf hashFn key totalBuckets.toInt32 = .ok hash ∧
      hash.toUInt32 < totalBuckets := by
  have hlt := Nat.mod_lt (hashFn key).toNat (Nat.pos_of_ne_zero (toNat_ne_zero h))
  have hbound := totalBuckets.toNat_lt
  refine ⟨(hashFn key % totalBuckets.toUInt64).toUInt32.toInt32, ?_, ?_⟩
  · simp [getHashKey, Platform.mod64_pos (toUInt64_ne_zero h), bind, Except.bind]
  · rw [UInt32.toUInt32_toInt32, UInt32.lt_iff_toNat_lt, UInt64.toNat_toUInt32, UInt64.toNat_mod,
      UInt32.toNat_toUInt64]
    rw [Nat.mod_eq_of_lt (by omega)]
    exact hlt

/-- The rounded-up quotient as the source computes it: right up to `2 ^ 32`,
zero beyond it. -/
theorem roundUp_toNat {total nr : UInt32} (ht : total ≠ 0) (hn : nr ≠ 0) :
    ((total + nr - 1) / nr).toNat =
      if total.toNat + nr.toNat ≤ 2 ^ 32 then total.toNat ⌈/⌉ nr.toNat else 0 := by
  have ht' := toNat_ne_zero ht
  have hn' := toNat_ne_zero hn
  have htl := total.toNat_lt
  have hnl := nr.toNat_lt
  have h1 : (1 : UInt32).toNat = 1 := rfl
  rw [UInt32.toNat_div, UInt32.toNat_sub, UInt32.toNat_add, h1]
  by_cases h : total.toNat + nr.toNat ≤ 2 ^ 32
  · rw [if_pos h, Nat.ceilDiv_eq_add_pred_div]
    congr 1
    omega
  · rw [if_neg h]
    apply Nat.div_eq_of_lt
    omega

theorem ceilDiv_pos {total nr : Nat} (ht : 0 < total) (hn : 0 < nr) : 0 < total ⌈/⌉ nr := by
  by_contra h0
  have hz : total ⌈/⌉ nr ≤ 0 := Nat.not_lt.mp h0
  rw [ceilDiv_le_iff_le_mul hn] at hz
  omega

theorem bucketToLoad_ok {total nr : UInt32} (ht : total ≠ 0) (hn : nr ≠ 0)
    (h : total.toNat + nr.toNat ≤ 2 ^ 32) (pf : Platform) (hash : Int32) :
    bucketToLoad pf total nr hash = .ok (hash.toUInt32 / ((total + nr - 1) / nr)) := by
  have hne : (total + nr - 1) / nr ≠ 0 := by
    intro h0
    have hq := roundUp_toNat ht hn
    have hpos := ceilDiv_pos (Nat.pos_of_ne_zero (toNat_ne_zero ht))
      (Nat.pos_of_ne_zero (toNat_ne_zero hn))
    rw [if_pos h, h0] at hq
    rw [← hq] at hpos
    exact absurd hpos (by decide)
  rw [bucketToLoad, Platform.div32_pos hn]
  exact Platform.div32_pos hne

theorem bucketToLoad_trap {pf : Platform} (hpf : pf.divZero = none) {total nr : UInt32}
    (ht : total ≠ 0) (hn : nr ≠ 0) (h : ¬ total.toNat + nr.toNat ≤ 2 ^ 32) (hash : Int32) :
    bucketToLoad pf total nr hash = .error .divByZero := by
  have hq := roundUp_toNat ht hn
  rw [if_neg h] at hq
  have hzero : (total + nr - 1) / nr = 0 := UInt32.toNat.inj hq
  rw [bucketToLoad, Platform.div32_pos hn, hzero]
  exact Platform.div32_zero hpf _

theorem hashMappingToLoad_bucket (pf : Platform) {info : HashInfo} (nrLoads : UInt32)
    (key : UserKey) (hb : info.blockSize ≠ 0) (ht : info.totalBuckets ≠ 0) :
    ∃ hash : Int32, hash.toUInt32 < info.totalBuckets ∧
      hashMappingToLoad pf info nrLoads key = bucketToLoad pf info.totalBuckets nrLoads hash := by
  obtain ⟨hash, hkey, hlt⟩ := getHashKey_ok pf info.hashFn
    ⟨key.lba / info.blockSize.toUInt64 * info.blockSize.toUInt64, key.volumeId⟩ ht
  refine ⟨hash, hlt, ?_⟩
  simp [hashMappingToLoad, Platform.div64_pos (toUInt64_ne_zero hb), bind, Except.bind, hkey]

theorem hashMappingToLoad_valid_iff {info : HashInfo} {nrLoads : UInt32} (key : UserKey)
    (hb : info.blockSize ≠ 0) (ht : info.totalBuckets ≠ 0) (hn : nrLoads ≠ 0) :
    (∀ pf, ∃ load, hashMappingToLoad pf info nrLoads key = .ok load ∧ load < nrLoads) ↔
      info.totalBuckets.toNat + nrLoads.toNat ≤ 2 ^ 32 := by
  constructor
  · intro hall
    by_contra hwrap
    obtain ⟨load, hload, -⟩ := hall sortedPlatform
    obtain ⟨hash, -, heq⟩ := hashMappingToLoad_bucket sortedPlatform nrLoads key hb ht
    rw [heq, bucketToLoad_trap rfl ht hn hwrap] at hload
    cases hload
  · intro hsum pf
    obtain ⟨hash, hlt, heq⟩ := hashMappingToLoad_bucket pf nrLoads key hb ht
    refine ⟨_, heq.trans (bucketToLoad_ok ht hn hsum pf hash), ?_⟩
    have hn' := toNat_ne_zero hn
    rw [UInt32.lt_iff_toNat_lt] at hlt ⊢
    -- the rounded-up runs of buckets cover all of them
    have hcover : info.totalBuckets.toNat ≤
        nrLoads.toNat * (info.totalBuckets.toNat ⌈/⌉ nrLoads.toNat) :=
      (ceilDiv_le_iff_le_mul (by omega)).mp (Nat.le_refl _)
    rw [UInt32.toNat_div, roundUp_toNat ht hn, if_pos hsum]
    apply Nat.div_lt_of_lt_mul
    rw [Nat.mul_comm]
    omega

theorem hashMappingToLoad_valid_shipped :
    (131072 : UInt32).toNat + (32 : UInt32).toNat ≤ 2 ^ 32 ∧
    ∀ pf, ∃ load, hashMappingToLoad pf (setHashInfo 131072 65536 abtstHashFunc) 32 ⟨1048576, 1⟩ =
      .ok load ∧ load < 32 := by
  have hsum : (131072 : UInt32).toNat + (32 : UInt32).toNat ≤ 2 ^ 32 := by decide
  exact ⟨hsum, (hashMappingToLoad_valid_iff ⟨1048576, 1⟩ (by decide) (by decide) (by decide)).mpr hsum⟩

theorem hashMappingToLoad_wraps :
    ¬ ∀ (info : HashInfo) (nrLoads : UInt32) (key : UserKey), info.blockSize ≠ 0 →
      info.totalBuckets ≠ 0 → nrLoads ≠ 0 → ∀ pf, ∃ load,
        hashMappingToLoad pf info nrLoads key = .ok load ∧ load < nrLoads := by
  intro hall
  obtain ⟨load, hload, -⟩ := hall (setHashInfo 4294967295 65536 abtstHashFunc) 32 ⟨0, 0⟩ (by decide)
    (by decide) (by decide) sortedPlatform
  obtain ⟨hash, -, heq⟩ := hashMappingToLoad_bucket sortedPlatform 32 ⟨0, 0⟩
    (show (setHashInfo 4294967295 65536 abtstHashFunc).blockSize ≠ 0 by decide) (by decide)
  rw [heq, bucketToLoad_trap rfl (by decide) (by decide) (by decide)] at hload
  cases hload

/-- Buckets go to the loads in order and no load is left without one. -/
structure Dealt (pf : Platform) (total nr : UInt32) (load : UInt32 → UInt32) : Prop where
  code : ∀ b < total, bucketToLoad pf total nr b.toInt32 = .ok (load b)
  mono : ∀ b c, b ≤ c → c < total → load b ≤ load c
  onto : ∀ l < nr, ∃ b < total, load b = l

/-- The last load has a bucket when the runs do not overshoot: the buckets
divide evenly, or the remainder makes up for the rounding. -/
theorem last_run_iff {total nr : Nat} (hn : 0 < nr) (hle : nr ≤ total) :
    (nr - 1) * (total ⌈/⌉ nr) < total ↔ nr ∣ total ∨ nr ≤ total / nr + total % nr := by
  have hdm := Nat.div_add_mod total nr
  have hq : 0 < total / nr := Nat.div_pos hle hn
  obtain ⟨k, rfl⟩ : ∃ k, nr = k + 1 := ⟨nr - 1, by omega⟩
  have hexp : (k + 1) * (total / (k + 1)) = k * (total / (k + 1)) + total / (k + 1) :=
    Nat.succ_mul k _
  rw [Nat.dvd_iff_mod_eq_zero, ceilDiv_eq_div_add total hn, Nat.add_sub_cancel, Nat.mul_add]
  by_cases hr : total % (k + 1) = 0
  · rw [if_pos hr]
    constructor
    · exact fun _ => Or.inl hr
    · intro _
      omega
  · rw [if_neg hr]
    constructor
    · intro h
      exact Or.inr (by omega)
    · rintro (h | h)
      · exact absurd h hr
      · omega

theorem bucketLoad_toNat {total nr : UInt32} (ht : total ≠ 0) (hn : nr ≠ 0)
    (h : total.toNat + nr.toNat ≤ 2 ^ 32) (b : UInt32) :
    (b / ((total + nr - 1) / nr)).toNat = b.toNat / (total.toNat ⌈/⌉ nr.toNat) := by
  rw [UInt32.toNat_div, roundUp_toNat ht hn, if_pos h]

theorem Dealt.last_run {pf : Platform} {total nr : UInt32} {load : UInt32 → UInt32}
    (hd : Dealt pf total nr load) (ht : total ≠ 0) (hn : nr ≠ 0)
    (h : total.toNat + nr.toNat ≤ 2 ^ 32) :
    (nr.toNat - 1) * (total.toNat ⌈/⌉ nr.toNat) < total.toNat := by
  have hn' := toNat_ne_zero hn
  have hone : (1 : UInt32) ≤ nr := by
    rw [UInt32.le_iff_toNat_le]
    exact Nat.one_le_iff_ne_zero.mpr hn'
  have hlast : nr - 1 < nr := by
    rw [UInt32.lt_iff_toNat_lt, UInt32.toNat_sub_of_le _ _ hone]
    exact Nat.sub_lt (Nat.pos_of_ne_zero hn') Nat.one_pos
  obtain ⟨b, hb, hload⟩ := hd.onto (nr - 1) hlast
  have hcode := hd.code b hb
  rw [bucketToLoad_ok ht hn h, hload, UInt32.toUInt32_toInt32] at hcode
  have hval := congrArg UInt32.toNat (Except.ok.inj hcode)
  rw [bucketLoad_toNat ht hn h, UInt32.toNat_sub_of_le _ _ hone] at hval
  have hmul := Nat.div_mul_le_self b.toNat (total.toNat ⌈/⌉ nr.toNat)
  rw [hval] at hmul
  exact Nat.lt_of_le_of_lt hmul hb

theorem bucketToLoad_dealt_iff {total nr : UInt32} (hn : 1 ≤ nr) (hle : nr ≤ total)
    (hsum : total.toNat + nr.toNat < 2 ^ 32) :
    (∀ pf, ∃ load, Dealt pf total nr load) ↔
      nr.toNat ∣ total.toNat ∨ nr.toNat ≤ total.toNat / nr.toNat + total.toNat % nr.toNat := by
  rw [UInt32.le_iff_toNat_le] at hn hle
  have hn1 : 0 < nr.toNat := hn
  have hn0 : nr ≠ 0 := by
    rintro rfl
    exact absurd hn1 (by decide)
  have ht0 : total ≠ 0 := by
    rintro rfl
    exact absurd (Nat.lt_of_lt_of_le hn1 hle) (by decide)
  have hrun := bucketLoad_toNat ht0 hn0 (Nat.le_of_lt hsum)
  rw [← last_run_iff hn1 hle]
  constructor
  · intro hall
    obtain ⟨load, hd⟩ := hall sortedPlatform
    exact hd.last_run ht0 hn0 (Nat.le_of_lt hsum)
  · intro hlast pf
    refine ⟨fun b => b / ((total + nr - 1) / nr), ?_, ?_, ?_⟩
    · intro b _
      rw [bucketToLoad_ok ht0 hn0 (Nat.le_of_lt hsum), UInt32.toUInt32_toInt32]
    · intro b c hbc _
      rw [UInt32.le_iff_toNat_le, hrun, hrun]
      exact Nat.div_le_div_right hbc
    · intro l hl
      -- the first bucket of the run of load `l`
      have hl1 : l.toNat ≤ nr.toNat - 1 := Nat.le_sub_one_of_lt hl
      have hfirst := Nat.lt_of_le_of_lt
        (Nat.mul_le_mul_right (total.toNat ⌈/⌉ nr.toNat) hl1) hlast
      have hpos : 0 < total.toNat ⌈/⌉ nr.toNat := ceilDiv_pos (Nat.lt_of_lt_of_le hn1 hle) hn1
      have htl := total.toNat_lt
      have hval : (UInt32.ofNat (l.toNat * (total.toNat ⌈/⌉ nr.toNat))).toNat =
          l.toNat * (total.toNat ⌈/⌉ nr.toNat) :=
        UInt32.toNat_ofNat_of_lt (Nat.lt_trans hfirst htl)
      refine ⟨UInt32.ofNat (l.toNat * (total.toNat ⌈/⌉ nr.toNat)), ?_, ?_⟩
      · rw [UInt32.lt_iff_toNat_lt, hval]
        exact hfirst
      · apply UInt32.toNat.inj
        rw [hrun, hval, Nat.mul_div_cancel _ hpos]

theorem bucketToLoad_dealt_shipped :
    (32 : UInt32).toNat ∣ (131072 : UInt32).toNat ∧ ∀ pf, ∃ load, Dealt pf 131072 32 load := by
  have hdvd : (32 : UInt32).toNat ∣ (131072 : UInt32).toNat := by decide
  exact ⟨hdvd, (bucketToLoad_dealt_iff (by decide) (by decide) (by decide)).mpr (Or.inl hdvd)⟩

/-- With the shipped number of buckets a partition of 13 cores has a load
without a bucket. -/
theorem bucketToLoad_not_dealt :
    ¬ ∀ total nr : UInt32, 1 ≤ nr → nr ≤ total → total.toNat + nr.toNat < 2 ^ 32 →
      ∀ pf, ∃ load, Dealt pf total nr load := by
  intro hall
  obtain ⟨load, hd⟩ := hall 131072 416 (by decide) (by decide) (by decide) sortedPlatform
  have hlast := hd.last_run (by decide) (by decide) (by decide)
  exact absurd hlast (by decide)

section Mix

/-! A multiplication by a number that has an inverse and a shift to the right folded into
the word are injective, so that a chain of such steps is. -/

variable {w : Nat}

theorem mul_injective {c d : BitVec w} (h : c * d = 1) :
    Function.Injective fun x : BitVec w => x * c := by
  intro x y hxy
  calc x = x * c * d := by rw [mul_assoc, h, mul_one]
    _ = y * c * d := congrArg (· * d) hxy
    _ = y := by rw [mul_assoc, h, mul_one]

/-- The difference of two words with the same image is its own shift. -/
theorem xorShift_injective {k : Nat} (hk : 0 < k) :
    Function.Injective fun x : BitVec w => x ^^^ (x >>> k) := by
  intro x y hxy
  have hself : x ^^^ y = (x ^^^ y) >>> k := by
    rw [BitVec.ushiftRight_xor_distrib]
    calc x ^^^ y = (x ^^^ (x >>> k)) ^^^ (x >>> k) ^^^ y := by
          rw [BitVec.xor_assoc x, BitVec.xor_self, BitVec.xor_zero]
      _ = (y ^^^ (y >>> k)) ^^^ (x >>> k) ^^^ y := congrArg (· ^^^ (x >>> k) ^^^ y) hxy
      _ = (x >>> k) ^^^ (y >>> k) := by
          rw [BitVec.xor_comm _ y, ← BitVec.xor_assoc, ← BitVec.xor_assoc, BitVec.xor_self,
            BitVec.zero_xor, BitVec.xor_comm]
  have hnat := congrArg BitVec.toNat hself
  rw [BitVec.toNat_ushiftRight, Nat.shiftRight_eq_div_pow] at hnat
  have hzero : (x ^^^ y).toNat = 0 := by
    by_contra hne
    have hlt := Nat.div_lt_self (Nat.pos_of_ne_zero hne) (Nat.one_lt_two_pow (Nat.ne_of_gt hk))
    omega
  have hxor : x ^^^ y = 0#w := BitVec.eq_of_toNat_eq hzero
  exact BitVec.xor_eq_zero_iff.mp hxor

end Mix

theorem injective_of_toBitVec {f : UInt64 → UInt64} {F : BitVec 64 → BitVec 64}
    (hF : Function.Injective F) (h : ∀ x, (f x).toBitVec = F x.toBitVec) : Function.Injective f := by
  intro x y hxy
  apply UInt64.toBitVec_inj.mp
  apply hF
  rw [← h, ← h, hxy]

theorem foldShift_injective {k : UInt64} {n : Nat} (hn : 0 < n)
    (hk : ∀ x : UInt64, (x >>> k).toBitVec = x.toBitVec >>> n) :
    Function.Injective fun x : UInt64 => x ^^^ (x >>> k) :=
  injective_of_toBitVec (xorShift_injective hn) (fun x => by rw [UInt64.toBitVec_xor, hk])

/-- The first step of the mix function is `(key << 21) - key - 1`. -/
theorem notShift_injective : Function.Injective fun x : UInt64 => ~~~x + (x <<< 21) := by
  have hodd : Function.Injective fun x : BitVec 64 => x * 2097151#64 :=
    mul_injective (show 2097151#64 * 9223367638806167551#64 = 1 by decide)
  refine injective_of_toBitVec ((sub_left_injective (b := 1#64)).comp hodd) (fun x => ?_)
  have hpow : BitVec.twoPow 64 21 = 2097151#64 + 1 := by decide
  change ~~~x.toBitVec + x.toBitVec <<< 21 = x.toBitVec * 2097151#64 - 1#64
  rw [BitVec.not_eq_neg_add, BitVec.shiftLeft_eq_mul_twoPow, hpow]
  ring

theorem times265_injective :
    Function.Injective fun x : UInt64 => (x + (x <<< 3)) + (x <<< 8) := by
  refine injective_of_toBitVec (F := fun x => x * 265#64)
    (mul_injective (show 265#64 * 15244667743933553977#64 = 1 by decide)) (fun x => ?_)
  have hsum : 265#64 = 1 + BitVec.twoPow 64 3 + BitVec.twoPow 64 8 := by decide
  change x.toBitVec + x.toBitVec <<< 3 + x.toBitVec <<< 8 = x.toBitVec * 265#64
  rw [BitVec.shiftLeft_eq_mul_twoPow, BitVec.shiftLeft_eq_mul_twoPow, hsum]
  ring

theorem times21_injective :
    Function.Injective fun x : UInt64 => (x + (x <<< 2)) + (x <<< 4) := by
  refine injective_of_toBitVec (F := fun x => x * 21#64)
    (mul_injective (show 21#64 * 14933078535860113213#64 = 1 by decide)) (fun x => ?_)
  have hsum : 21#64 = 1 + BitVec.twoPow 64 2 + BitVec.twoPow 64 4 := by decide
  change x.toBitVec + x.toBitVec <<< 2 + x.toBitVec <<< 4 = x.toBitVec * 21#64
  rw [BitVec.shiftLeft_eq_mul_twoPow, BitVec.shiftLeft_eq_mul_twoPow, hsum]
  ring

theorem addShift31_injective : Function.Injective fun x : UInt64 => x + (x <<< 31) := by
  refine injective_of_toBitVec (F := fun x => x * 2147483649#64)
    (mul_injective (show 2147483649#64 * 4611686016279904257#64 = 1 by decide)) (fun x => ?_)
  have hsum : 2147483649#64 = 1 + BitVec.twoPow 64 31 := by decide
  change x.toBitVec + x.toBitVec <<< 31 = x.toBitVec * 2147483649#64
  rw [BitVec.shiftLeft_eq_mul_twoPow, hsum]
  ring

/-- Within a volume only the keys of one 512-byte block share a hash value. -/
theorem abtstHashFunc_eq_iff (volumeId a b : UInt64) :
    abtstHashFunc ⟨a, volumeId⟩ = abtstHashFunc ⟨b, volumeId⟩ ↔ a >>> 9 = b >>> 9 := by
  constructor
  · intro h
    have hmix := UInt64.add_left_inj volumeId |>.mp h
    apply notShift_injective
    apply foldShift_injective (k := 24) (n := 24) (by decide) (fun _ => rfl)
    apply times265_injective
    apply foldShift_injective (k := 14) (n := 14) (by decide) (fun _ => rfl)
    apply times21_injective
    apply foldShift_injective (k := 28) (n := 28) (by decide) (fun _ => rfl)
    apply addShift31_injective
    exact hmix
  · intro h
    unfold abtstHashFunc
    dsimp only
    rw [h]

end AbtSt
