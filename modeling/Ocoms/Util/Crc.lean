import Ocoms.Lib.Crc
import Ocoms.Lib.Layout

/-!
The cyclic redundancy check of `crc.c`.

* `CrcTable` is the table of the file with the flag that says whether it has been built;
  `initializeCrcTable` builds it.
* `uicrcPartial` and `bcopyUicrcPartial` go on with a register; `uicrc` and `bcopyUicrc` start
  with `crcInitialRegister`.
* `uicrc_is_remainder`: the register is the remainder of the polynomial that the bytes stand for.

The source is read from one memory and the destination is written in another, since `bcopy` is for
buffers that do not overlap.
-/

namespace Ocoms

open Layout Crc

/-! ### The table -/

/-- `CRC_POLYNOMIAL`. -/
def crcPolynomial : BitVec 32 := 0x04c11db7

/-- `CRC_INITIAL_REGISTER`. -/
def crcInitialRegister : BitVec 32 := 0xffffffff

/-- The rounds of the inner loop of `ocoms_initialize_crc_table`. -/
def crcAccum : ℕ → BitVec 32 → BitVec 32
  | 0, acc => acc
  | j + 1, acc =>
      crcAccum j
        (if acc &&& 0x80000000 ≠ 0 then (acc <<< 1) ^^^ crcPolynomial else acc <<< 1)

/-- `_ocoms_crc_table` and `_ocoms_crc_table_initialized`. -/
structure CrcTable where
  initialized : Bool
  entries : Fin 256 → BitVec 32
  built : initialized = true → ∀ i, entries i = crcAccum 8 (BitVec.ofNat 32 i <<< 24)

/-- The table before the first use: static storage is zero. -/
def CrcTable.start : CrcTable := ⟨false, fun _ => 0, nofun⟩

/-- `ocoms_initialize_crc_table`. -/
def initializeCrcTable : CrcTable :=
  ⟨true, fun i => crcAccum 8 (BitVec.ofNat 32 i <<< 24), fun _ _ => rfl⟩

/-- The first lines of both functions: the table is built when it is not there yet. -/
def CrcTable.ensure (t : CrcTable) : CrcTable := if t.initialized then t else initializeCrcTable

lemma CrcTable.ensure_entries (t : CrcTable) (i : Fin 256) :
    t.ensure.entries i = crcAccum 8 (BitVec.ofNat 32 i <<< 24) := by
  unfold CrcTable.ensure
  split_ifs with h
  · exact t.built h i
  · rfl

/-! ### The check of a buffer -/

/-- `INTALIGNED`. -/
def intAligned (v : ℤ) : Bool := v % 4 = 0

/-- The register after one byte. -/
def crcStep (t : CrcTable) (partialCrc : BitVec 32) (b : Byte) : BitVec 32 :=
  let i := ((partialCrc >>> 24) ^^^ b.setWidth 32) &&& 0xff
  (partialCrc <<< 8) ^^^ t.entries (Fin.ofNat 256 i.toNat)

/-- `while (crclen--)`, a byte at a time. -/
def crcBytes (t : CrcTable) (mem : ℤ → Byte) : ℕ → ℤ → BitVec 32 → BitVec 32
  | 0, _, crc => crc
  | n + 1, src, crc => crcBytes t mem n (src + 1) (crcStep t crc (mem src))

/-- `while (crclen >= sizeof(unsigned int))`: the bytes of the word `tmp` are taken in the order in
which they lie in memory. What is left to read, where, and the register. -/
def crcInts (t : CrcTable) (mem : ℤ → Byte) : ℕ → ℤ → BitVec 32 → ℕ × ℤ × BitVec 32
  | n + 4, src, crc =>
      let tmp := gather mem (run src 4)
      crcInts t mem n (src + 4) (tmp.foldl (crcStep t) crc)
  | n, src, crc => (n, src, crc)

/-- `ocoms_uicrc_partial`: the register, and the table, which may have been built. -/
def uicrcPartial (t : CrcTable) (mem : ℤ → Byte) (source : ℤ) (crclen : ℕ)
    (partialCrc : BitVec 32) : BitVec 32 × CrcTable :=
  let t := t.ensure
  if intAligned source then
    let (n, src, crc) := crcInts t mem crclen source partialCrc
    (crcBytes t mem n src crc, t)
  else
    (crcBytes t mem crclen source partialCrc, t)

/-- `ocoms_uicrc`. -/
def uicrc (t : CrcTable) (mem : ℤ → Byte) (source : ℤ) (crclen : ℕ) : BitVec 32 × CrcTable :=
  uicrcPartial t mem source crclen crcInitialRegister

/-! ### The check of a buffer that is copied -/

/-- The loops of `ocoms_bcopy_uicrc_partial`: what is left to copy, the two pointers, the memory of
the destination and the register. -/
structure CrcCopy where
  copylen : ℕ
  src : ℤ
  dst : ℤ
  mem : ℤ → Byte
  partialCrc : BitVec 32

/-- `while (copylen--)`, a byte at a time. -/
def crcCopyBytes (t : CrcTable) (smem : ℤ → Byte) : ℕ → ℤ → ℤ → (ℤ → Byte) → BitVec 32 → CrcCopy
  | 0, src, dst, mem, crc => ⟨0, src, dst, mem, crc⟩
  | n + 1, src, dst, mem, crc =>
      crcCopyBytes t smem n (src + 1) (dst + 1) (Function.update mem dst (smem src))
        (crcStep t crc (smem src))

/-- `while (copylen >= sizeof(unsigned int))`, a word at a time. -/
def crcCopyInts (t : CrcTable) (smem : ℤ → Byte) : ℕ → ℤ → ℤ → (ℤ → Byte) → BitVec 32 → CrcCopy
  | n + 4, src, dst, mem, crc =>
      let tmp := gather smem (run src 4)
      crcCopyInts t smem n (src + 4) (dst + 4) (scatter mem (run dst 4) tmp)
        (tmp.foldl (crcStep t) crc)
  | n, src, dst, mem, crc => ⟨n, src, dst, mem, crc⟩

/-- `ocoms_bcopy_uicrc_partial`: the register, the memory of the destination, and the table. -/
def bcopyUicrcPartial (t : CrcTable) (smem : ℤ → Byte) (source : ℤ) (dmem : ℤ → Byte)
    (destination : ℤ) (copylen crclen : ℕ) (partialCrc : BitVec 32) :
    BitVec 32 × (ℤ → Byte) × CrcTable :=
  let crclenresidue := if crclen > copylen then crclen - copylen else 0
  let t := t.ensure
  if intAligned source && intAligned destination then
    let words := crcCopyInts t smem copylen source destination dmem partialCrc
    let bytes := crcCopyBytes t smem words.copylen words.src words.dst words.mem words.partialCrc
    (crcBytes t smem crclenresidue bytes.src bytes.partialCrc, bytes.mem, t)
  else
    let bytes := crcCopyBytes t smem copylen source destination dmem partialCrc
    (crcBytes t smem crclenresidue bytes.src bytes.partialCrc, bytes.mem, t)

/-- `ocoms_bcopy_uicrc`. -/
def bcopyUicrc (t : CrcTable) (smem : ℤ → Byte) (source : ℤ) (dmem : ℤ → Byte)
    (destination : ℤ) (copylen crclen : ℕ) : BitVec 32 × (ℤ → Byte) × CrcTable :=
  bcopyUicrcPartial t smem source dmem destination copylen crclen crcInitialRegister

/-! ### A byte of the table is eight bits -/

/-- The check a bit at a time, the most significant bit of a byte first. -/
def crcBitwise (crc : BitVec 32) (bs : List Byte) : BitVec 32 :=
  shiftBits crcPolynomial crc (bs.flatMap bitsOf)

lemma crcBitwise_append (crc : BitVec 32) (as bs : List Byte) :
    crcBitwise crc (as ++ bs) = crcBitwise (crcBitwise crc as) bs := by
  rw [crcBitwise, List.flatMap_append, shiftBits_append]
  rfl

lemma and_msb_ne_zero_iff (acc : BitVec 32) : acc &&& 0x80000000 ≠ 0 ↔ acc.msb = true := by
  have hmask : (0x80000000 : BitVec 32) = BitVec.twoPow 32 31 := by decide
  rw [hmask, BitVec.and_twoPow, BitVec.msb_eq_getLsbD_last]
  cases acc.getLsbD 31 <;> simp

/-- An entry of the table is eight zero bits shifted in. -/
lemma crcAccum_eq (j : ℕ) (acc : BitVec 32) : crcAccum j acc = shiftZeros crcPolynomial j acc := by
  induction j generalizing acc with
  | zero => rfl
  | succ j ih =>
      rw [crcAccum, ih, shiftZeros, shiftBit, Bool.xor_false]
      simp only [and_msb_ne_zero_iff]

/-- The index of `crcStep` is a byte: the first one of the register, with `b` added. -/
lemma crcIndex_eq (crc : BitVec 32) (b : Byte) :
    BitVec.ofNat 32 (Fin.ofNat 256 (((crc >>> 24) ^^^ b.setWidth 32) &&& 0xff).toNat)
      = ((crc >>> 24).setWidth 8 ^^^ b).setWidth 32 := by
  have hword : (crc >>> 24).setWidth 8 ^^^ b = (crc >>> 24 ^^^ b.setWidth 32).setWidth 8 := by
    ext i hi
    simp
  have hmask : (0xff : BitVec 32).toNat = 2 ^ 8 - 1 := by decide
  rw [hword]
  apply BitVec.eq_of_toNat_eq
  rw [BitVec.toNat_setWidth, BitVec.toNat_setWidth, BitVec.toNat_ofNat, Fin.val_ofNat,
    BitVec.toNat_and, hmask, Nat.and_two_pow_sub_one_eq_mod, Nat.mod_mod]

/-- **A byte of the table is eight bits.** -/
lemma crcStep_ensure (t : CrcTable) (crc : BitVec 32) (b : Byte) :
    crcStep t.ensure crc b = crcBitwise crc [b] := by
  rw [crcBitwise, List.flatMap_singleton, shiftBits_eq_table (by omega), top, ← crcIndex_eq,
    ← crcAccum_eq, ← t.ensure_entries]
  rfl

lemma foldl_crcStep (t : CrcTable) (crc : BitVec 32) (bs : List Byte) :
    bs.foldl (crcStep t.ensure) crc = crcBitwise crc bs := by
  induction bs generalizing crc with
  | nil => rfl
  | cons b bs ih =>
      rw [List.foldl_cons, ih, crcStep_ensure, ← crcBitwise_append]
      rfl

/-! ### The loops -/

variable (t : CrcTable) (mem : ℤ → Byte) (s : BitVec 32)

lemma crcBytes_ensure (n : ℕ) (src : ℤ) :
    crcBytes t.ensure mem n src s = crcBitwise s (gather mem (run src n)) := by
  induction n generalizing src s with
  | zero => rfl
  | succ n ih =>
      rw [crcBytes, ih, crcStep_ensure, ← crcBitwise_append]
      rfl

/-- The words and the bytes behind them are the bytes of the buffer. -/
lemma crcBytes_crcInts (n : ℕ) (src : ℤ) :
    crcBytes t.ensure mem (crcInts t.ensure mem n src s).1 (crcInts t.ensure mem n src s).2.1
        (crcInts t.ensure mem n src s).2.2
      = crcBitwise s (gather mem (run src n)) := by
  fun_induction crcInts t.ensure mem n src s with
  | case1 n src crc tmp ih =>
      have hlen : n.succ.succ.succ.succ = 4 + n := by omega
      rw [ih, foldl_crcStep, ← crcBitwise_append, ← gather_append, hlen, run_add]
      rfl
  | case2 n src crc => exact crcBytes_ensure t mem crc n src

lemma uicrcPartial_eq (source : ℤ) (crclen : ℕ) :
    (uicrcPartial t mem source crclen s).1 = crcBitwise s (gather mem (run source crclen)) := by
  unfold uicrcPartial
  split_ifs
  · exact crcBytes_crcInts t mem s crclen source
  · exact crcBytes_ensure t mem s crclen source

variable (dmem : ℤ → Byte)

/-- What has been done when the first `n` bytes have been copied. -/
structure CrcCopied (n : ℕ) (src dst : ℤ) (c : CrcCopy) : Prop where
  src_eq : c.src = src + n
  mem_eq : c.mem = scatter dmem (run dst n) (gather mem (run src n))
  crc_eq : c.partialCrc = crcBitwise s (gather mem (run src n))

variable {t mem s dmem}

/-- `m` bytes have been copied, and `n` bytes behind them. -/
lemma CrcCopied.append {m n : ℕ} {src dst : ℤ} {c c' : CrcCopy}
    (h : CrcCopied mem s dmem m src dst c)
    (h' : CrcCopied mem c.partialCrc c.mem n c.src (dst + m) c') :
    CrcCopied mem s dmem (m + n) src dst c' where
  src_eq := by
    rw [h'.src_eq, h.src_eq]
    push_cast
    ring
  mem_eq := by
    rw [h'.mem_eq, h.mem_eq, h.src_eq, run_add, run_add, gather_append,
      scatter_append dmem (by simp)]
  crc_eq := by
    rw [h'.crc_eq, h.crc_eq, h.src_eq, run_add, gather_append, crcBitwise_append]

variable (t mem s dmem)

lemma crcCopyBytes_copied (n : ℕ) (src dst : ℤ) :
    CrcCopied mem s dmem n src dst (crcCopyBytes t.ensure mem n src dst dmem s) := by
  induction n generalizing src dst dmem s with
  | zero => exact ⟨(add_zero src).symm, rfl, rfl⟩
  | succ n ih =>
      have hrest := ih (crcStep t.ensure s (mem src)) (Function.update dmem dst (mem src))
        (src + 1) (dst + 1)
      refine ⟨?_, hrest.mem_eq, ?_⟩
      · rw [crcCopyBytes, hrest.src_eq]
        push_cast
        ring
      · rw [crcCopyBytes, hrest.crc_eq, crcStep_ensure, ← crcBitwise_append]
        rfl

/-- The words that are copied, and the bytes behind them. -/
lemma crcCopyBytes_crcCopyInts (n : ℕ) (src dst : ℤ) :
    CrcCopied mem s dmem n src dst
      (crcCopyBytes t.ensure mem (crcCopyInts t.ensure mem n src dst dmem s).copylen
        (crcCopyInts t.ensure mem n src dst dmem s).src
        (crcCopyInts t.ensure mem n src dst dmem s).dst
        (crcCopyInts t.ensure mem n src dst dmem s).mem
        (crcCopyInts t.ensure mem n src dst dmem s).partialCrc) := by
  fun_induction crcCopyInts t.ensure mem n src dst dmem s with
  | case1 n src dst dmem crc tmp ih =>
      have hlen : n.succ.succ.succ.succ = 4 + n := by omega
      rw [hlen]
      refine CrcCopied.append
        (c := ⟨n, src + 4, dst + 4, scatter dmem (run dst 4) tmp,
          tmp.foldl (crcStep t.ensure) crc⟩) ⟨rfl, rfl, foldl_crcStep t crc tmp⟩ ih
  | case2 n src dst dmem crc => exact crcCopyBytes_copied t mem crc dmem n src dst

lemma bcopyUicrcPartial_eq (source destination : ℤ) (copylen crclen : ℕ)
    (h : copylen ≤ crclen) :
    (bcopyUicrcPartial t mem source dmem destination copylen crclen s).1
        = crcBitwise s (gather mem (run source crclen)) ∧
      (bcopyUicrcPartial t mem source dmem destination copylen crclen s).2.1
        = scatter dmem (run destination copylen) (gather mem (run source copylen)) := by
  have hresidue : (if crclen > copylen then crclen - copylen else 0) = crclen - copylen := by
    split_ifs <;> omega
  have hrest : ∀ c, CrcCopied mem s dmem copylen source destination c →
      crcBytes t.ensure mem (crclen - copylen) c.src c.partialCrc
        = crcBitwise s (gather mem (run source crclen)) := by
    intro c hc
    rw [crcBytes_ensure, hc.crc_eq, hc.src_eq, ← crcBitwise_append, ← gather_append, ← run_add,
      Nat.add_sub_cancel' h]
  unfold bcopyUicrcPartial
  rw [hresidue]
  split_ifs
  · have hcopied := crcCopyBytes_crcCopyInts t mem s dmem copylen source destination
    exact ⟨hrest _ hcopied, hcopied.mem_eq⟩
  · have hcopied := crcCopyBytes_copied t mem s dmem copylen source destination
    exact ⟨hrest _ hcopied, hcopied.mem_eq⟩

/-! ### The remainder -/

lemma length_flatMap_bitsOf (bs : List Byte) : (bs.flatMap bitsOf).length = 8 * bs.length := by
  induction bs with
  | nil => rfl
  | cons b bs ih =>
      rw [List.flatMap_cons, List.length_append, length_bitsOf, ih, List.length_cons]
      ring

/-- **The check is the remainder of the polynomial that the bytes stand for**, most significant bit
first. A buffer can be cut in two, its address does not matter, and a copy gives the same register
and writes the bytes it is asked for. -/
theorem uicrc_is_remainder (t : CrcTable) (s : BitVec 32) :
    (∀ (mem : ℤ → Byte) (source : ℤ) (crclen : ℕ),
      (uicrcPartial t mem source crclen s).1 = crcBitwise s (gather mem (run source crclen)) ∧
      regPoly (uicrcPartial t mem source crclen s).1
        = (regPoly s * Polynomial.X ^ (8 * crclen)
            + bitsPoly ((gather mem (run source crclen)).flatMap bitsOf) * Polynomial.X ^ 32)
          %ₘ modulus crcPolynomial) ∧
    (∀ (t' : CrcTable) (mem mem₁ mem₂ : ℤ → Byte) (source source₁ source₂ : ℤ) (m n : ℕ),
      gather mem (run source (m + n))
          = gather mem₁ (run source₁ m) ++ gather mem₂ (run source₂ n) →
        (uicrcPartial t mem source (m + n) s).1
          = (uicrcPartial t' mem₂ source₂ n (uicrcPartial t mem₁ source₁ m s).1).1) ∧
    (∀ (t' : CrcTable) (mem mem' : ℤ → Byte) (source source' : ℤ) (crclen : ℕ),
      gather mem (run source crclen) = gather mem' (run source' crclen) →
        (uicrcPartial t mem source crclen s).1 = (uicrcPartial t' mem' source' crclen s).1) ∧
    ∀ (smem : ℤ → Byte) (source : ℤ) (dmem : ℤ → Byte) (destination : ℤ) (copylen crclen : ℕ),
      copylen ≤ crclen →
        (bcopyUicrcPartial t smem source dmem destination copylen crclen s).1
            = (uicrcPartial t smem source crclen s).1 ∧
        ∀ x, (bcopyUicrcPartial t smem source dmem destination copylen crclen s).2.1 x
          = if destination ≤ x ∧ x < destination + copylen then smem (source + (x - destination))
            else dmem x := by
  refine ⟨fun mem source crclen => ?_, fun t' mem mem₁ mem₂ source source₁ source₂ m n h => ?_,
    fun t' mem mem' source source' crclen h => ?_,
    fun smem source dmem destination copylen crclen h => ?_⟩
  · rw [uicrcPartial_eq]
    refine ⟨rfl, ?_⟩
    rw [crcBitwise, regPoly_shiftBits, length_flatMap_bitsOf, length_gather, length_run]
  · rw [uicrcPartial_eq, uicrcPartial_eq, uicrcPartial_eq, h, crcBitwise_append]
  · rw [uicrcPartial_eq, uicrcPartial_eq, h]
  · obtain ⟨hcrc, hmem⟩ := bcopyUicrcPartial_eq t smem s dmem source destination copylen crclen h
    refine ⟨by rw [hcrc, uicrcPartial_eq], fun x => ?_⟩
    rw [hmem, scatter_gather_run_apply]

/-- Two of three bytes are copied before the first use of the table. -/
theorem uicrc_is_remainder_start :
    (bcopyUicrcPartial CrcTable.start (fun x => BitVec.ofInt 8 x) 5 (fun _ => 0) 8 2 3 7).1
      = (uicrcPartial CrcTable.start (fun x => BitVec.ofInt 8 x) 5 3 7).1 :=
  ((uicrc_is_remainder CrcTable.start 7).2.2.2 (fun x => BitVec.ofInt 8 x) 5 (fun _ => 0) 8 2 3
    (by decide)).1

example : (uicrc CrcTable.start (fun x => BitVec.ofInt 8 (48 + x)) 1 9).1 = 0x0376e6e7 := by
  decide +kernel

end Ocoms
