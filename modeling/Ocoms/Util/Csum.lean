import Mathlib.Data.BitVec
import Mathlib.Algebra.BigOperators.Fin
import Ocoms.Lib.Layout
import Ocoms.Lib.WordSum

/-!
The checksums of `crc.c`.

* `ocoms_csum_partial` and `ocoms_uicsum_partial` are the same text for two types of words, and so
  are the copying functions. `CsumWord` is the type, `sumPartial` and `bcopySumPartial` are the
  texts, and the functions follow them under their own names.
* `Carry` is the pair of `lastPartialLong` and `lastPartialLength`.
* `sumPartial_eq` and `bcopySumPartial_eq` say that each of them is `feed`, in every branch.

Words are their bytes in memory, and `nativeVal` is what the machine reads there. The source is read
from one memory and the destination is written in another, since `bcopy` is for buffers that do not
overlap.
-/

namespace Ocoms

open Layout WordSum

/-! ### Words -/

/-- The type a checksum adds up: `unsigned int` or `unsigned long`. -/
inductive CsumWord where
  | unsignedInt
  | unsignedLong
  deriving DecidableEq, Repr

namespace CsumWord

/-- `sizeof`. -/
def size : CsumWord → ℕ
  | unsignedInt => 4
  | unsignedLong => 8

lemma size_pos (k : CsumWord) : 0 < k.size := by cases k <;> decide

/-- The bytes of a word. -/
abbrev Word (k : CsumWord) := Fin k.size → Byte

/-- The value of a word. -/
abbrev Val (k : CsumWord) := BitVec (8 * k.size)

/-- `WORDALIGNED` and `INTALIGNED`. -/
def aligned (k : CsumWord) (v : ℤ) : Bool := v % k.size = 0

lemma mod_eq_zero_of_aligned (k : CsumWord) {n : ℕ} (h : k.aligned n = true) : n % k.size = 0 := by
  have hmod : (n : ℤ) % k.size = 0 := of_decide_eq_true h
  exact_mod_cast hmod

end CsumWord

/-- Which byte of a word in memory counts least. -/
inductive ByteOrder where
  | little
  | big
  deriving DecidableEq, Repr

/-- The place of byte `i` in a word of `n` bytes. -/
def ByteOrder.place (n i : ℕ) : ByteOrder → ℕ
  | little => i
  | big => n - 1 - i

section Model

variable {k : CsumWord}

/-- The value of a word on a machine with this byte order. -/
def nativeVal (order : ByteOrder) (t : k.Word) : k.Val :=
  BitVec.ofNat (8 * k.size) (∑ i, (t i).toNat * 256 ^ order.place k.size i)

/-- The bytes of a word, in memory order. -/
def wordBytes (t : k.Word) : List Byte := List.ofFn t

variable (order : ByteOrder) (mem : ℤ → Byte)

/-- `memcpy((char *)&temp + off, src, n)`. -/
def memcpyTo (temp : k.Word) (off : ℕ) (src : ℤ) (n : ℕ) : k.Word :=
  put temp off (gather mem (run src n))

/-- The next word of the source: `temp = *src` if `deref`, and `memcpy(&temp, src, sizeof(temp))`
otherwise. -/
def fetch (deref : Bool) (temp : k.Word) (src : ℤ) : k.Word :=
  if deref then fun i => mem (src + (i : ℕ)) else memcpyTo mem temp 0 src k.size

/-! ### A buffer -/

/-- The local variables of `ocoms_csum_partial`. -/
structure CsumLocals (k : CsumWord) where
  src : ℤ
  csumlen : ℕ
  csum : k.Val
  temp : k.Word

/-- A word is added. -/
def csumWord (deref : Bool) (s : CsumLocals k) : CsumLocals k :=
  let temp := fetch mem deref s.temp s.src
  { s with src := s.src + k.size, csum := s.csum + nativeVal order temp, temp := temp }

/-- `for(i = 0; i < n; i++)`. -/
def csumFor (deref : Bool) : ℕ → CsumLocals k → CsumLocals k
  | 0, s => s
  | n + 1, s => csumFor deref n (csumWord order mem deref s)

/-- `for(i = 0; i < csumlen/sizeof(*src); i++)` and `csumlen -= i * sizeof(*src)`. -/
def csumWords (deref : Bool) (s : CsumLocals k) : CsumLocals k :=
  { csumFor order mem deref (s.csumlen / k.size) s with
    csumlen := s.csumlen - s.csumlen / k.size * k.size }

/-- `for( ;csumlen >= sizeof(*src); csumlen -= sizeof(*src))`. -/
def csumWhile (deref : Bool) (s : CsumLocals k) : CsumLocals k :=
  if k.size ≤ s.csumlen then
    csumWhile deref { csumWord order mem deref s with csumlen := s.csumlen - k.size }
  else s
termination_by s.csumlen
decreasing_by
  have := k.size_pos
  omega

/-- YES, we have enough data to fill out the partial word. -/
def csumFill (c : Carry k.size Byte) (s : CsumLocals k) : CsumLocals k :=
  let temp := memcpyTo mem s.temp c.len s.src (k.size - c.len)
  { src := s.src + (k.size - c.len : ℕ)
    csumlen := s.csumlen - (k.size - c.len)
    csum := s.csum + (nativeVal order temp - nativeVal order c.word)
    temp := temp }

/-- NO, we don't. -/
def csumExtend (c : Carry k.size Byte) (s : CsumLocals k) : CsumLocals k × Carry k.size Byte :=
  let temp := memcpyTo mem s.temp c.len s.src s.csumlen
  ({ src := s.src + s.csumlen
     csumlen := 0
     csum := s.csum + (nativeVal order temp - nativeVal order c.word)
     temp := temp }, ⟨temp, c.len + s.csumlen⟩)

/-- The last part of `ocoms_csum_partial`: if `csumlen` is non-zero there was a bit left. -/
def csumLeft (s : CsumLocals k) (c : Carry k.size Byte) : k.Val × Carry k.size Byte :=
  if s.csumlen ≠ 0 then
    let temp := c.word
    if c.len ≠ 0 then
      if s.csumlen ≥ k.size - c.len then
        let filled := csumFill order mem c { s with temp := temp }
        let temp := if filled.csumlen ≠ 0 then memcpyTo mem 0 0 filled.src filled.csumlen else 0
        (filled.csum + nativeVal order temp, ⟨temp, filled.csumlen⟩)
      else
        let extended := csumExtend order mem c { s with temp := temp }
        (extended.1.csum, extended.2)
    else
      let temp := memcpyTo mem temp 0 s.src s.csumlen
      (s.csum + nativeVal order temp, ⟨temp, s.csumlen⟩)
  else (s.csum, c)

/-- `ocoms_csum_partial`: the sum, `lastPartialLong` and `lastPartialLength`. -/
def sumPartial (source : ℤ) (csumlen : ℕ) (c : Carry k.size Byte) : k.Val × Carry k.size Byte :=
  let s : CsumLocals k := ⟨source, csumlen, 0, c.word⟩
  if k.aligned source then
    if c.len ≠ 0 then
      if csumlen ≥ k.size - c.len then
        csumLeft order mem (csumWords order mem false (csumFill order mem c s)) ⟨0, 0⟩
      else
        let extended := csumExtend order mem c s
        csumLeft order mem extended.1 extended.2
    else
      let s := csumWords order mem true s
      if k.aligned csumlen then (s.csum, ⟨0, 0⟩)
      else csumLeft order mem s ⟨0, 0⟩
  else
    if c.len ≠ 0 then
      if csumlen ≥ k.size - c.len then
        let s := csumFill order mem c s
        if k.aligned s.src then csumLeft order mem (csumWords order mem true s) ⟨0, 0⟩
        else csumLeft order mem (csumWords order mem false s) ⟨0, 0⟩
      else
        let extended := csumExtend order mem c s
        csumLeft order mem extended.1 extended.2
    else csumLeft order mem (csumWhile order mem false s) ⟨0, 0⟩

/-! ### A buffer that is copied -/

/-- `memcpy(dst, bytes, …)` and `*dst = …`. -/
def writeBytes (dmem : ℤ → Byte) (dst : ℤ) (bs : List Byte) : ℤ → Byte :=
  scatter dmem (run dst bs.length) bs

/-- The local variables of `ocoms_bcopy_csum_partial`, and the memory of the destination. -/
structure CopyLocals (k : CsumWord) where
  src : ℤ
  dest : ℤ
  dmem : ℤ → Byte
  copylen : ℕ
  csum : k.Val
  temp : k.Word

/-- A word is added and copied. -/
def copyWord (deref : Bool) (s : CopyLocals k) : CopyLocals k :=
  let temp := fetch mem deref s.temp s.src
  { s with
    src := s.src + k.size
    dest := s.dest + k.size
    dmem := writeBytes s.dmem s.dest (wordBytes temp)
    csum := s.csum + nativeVal order temp
    temp := temp }

/-- `for(i = 0; i < numLongs; i++)`. -/
def copyFor (deref : Bool) : ℕ → CopyLocals k → CopyLocals k
  | 0, s => s
  | n + 1, s => copyFor deref n (copyWord order mem deref s)

/-- `numLongs = copylen/sizeof(*src)`, the loop, and `copylen -= i * sizeof(*src)`. -/
def copyWords (deref : Bool) (s : CopyLocals k) : CopyLocals k :=
  { copyFor order mem deref (s.copylen / k.size) s with
    copylen := s.copylen - s.copylen / k.size * k.size }

/-- `for( ;copylen >= sizeof(*src); copylen -= sizeof(*src))`. -/
def copyWhile (deref : Bool) (s : CopyLocals k) : CopyLocals k :=
  if k.size ≤ s.copylen then
    copyWhile deref { copyWord order mem deref s with copylen := s.copylen - k.size }
  else s
termination_by s.copylen
decreasing_by
  have := k.size_pos
  omega

/-- YES, we have enough data to fill out the partial word. -/
def copyFill (c : Carry k.size Byte) (s : CopyLocals k) : CopyLocals k :=
  let temp := memcpyTo mem s.temp c.len s.src (k.size - c.len)
  { src := s.src + (k.size - c.len : ℕ)
    dest := s.dest + (k.size - c.len : ℕ)
    dmem := writeBytes s.dmem s.dest (((wordBytes temp).drop c.len).take (k.size - c.len))
    copylen := s.copylen - (k.size - c.len)
    csum := s.csum + (nativeVal order temp - nativeVal order c.word)
    temp := temp }

/-- NO, we don't. -/
def copyExtend (c : Carry k.size Byte) (s : CopyLocals k) : CopyLocals k × Carry k.size Byte :=
  let temp := memcpyTo mem s.temp c.len s.src s.copylen
  ({ src := s.src + s.copylen
     dest := s.dest + s.copylen
     dmem := writeBytes s.dmem s.dest (((wordBytes temp).drop c.len).take s.copylen)
     copylen := 0
     csum := s.csum + (nativeVal order temp - nativeVal order c.word)
     temp := temp }, ⟨temp, c.len + s.copylen⟩)

/-- `memcpy(&copytemp, src, copylen)` and `memcpy(dest, &copytemp, copylen)`, where `copytemp` was
zero. -/
def copyRest (s : CopyLocals k) : ℤ → Byte :=
  let copytemp : k.Word := memcpyTo mem 0 0 s.src s.copylen
  writeBytes s.dmem s.dest ((wordBytes copytemp).take s.copylen)

/-- The last part of `ocoms_bcopy_csum_partial` when nothing follows the copied bytes. -/
def copyLeft (s : CopyLocals k) (c : Carry k.size Byte) :
    k.Val × Carry k.size Byte × (ℤ → Byte) :=
  let temp := c.word
  if c.len ≠ 0 then
    if s.copylen ≥ k.size - c.len then
      let temp := memcpyTo mem temp c.len s.src (k.size - c.len)
      let csum := s.csum + (nativeVal order temp - nativeVal order c.word)
      let left := s.copylen - (k.size - c.len)
      let src := s.src + (k.size - c.len : ℕ)
      let temp : k.Word := if left ≠ 0 then memcpyTo mem 0 0 src left else 0
      (csum + nativeVal order temp, ⟨temp, left⟩, copyRest mem s)
    else
      let temp := memcpyTo mem temp c.len s.src s.copylen
      (s.csum + (nativeVal order temp - nativeVal order c.word), ⟨temp, c.len + s.copylen⟩,
        copyRest mem s)
  else
    let temp := memcpyTo mem temp 0 s.src s.copylen
    (s.csum + nativeVal order temp, ⟨temp, s.copylen⟩,
      writeBytes s.dmem s.dest ((wordBytes temp).take s.copylen))

/-- The unfinished word goes on with what is left of the copied bytes, and with the
`csumlenresidue` bytes that follow. -/
def residueWord (csumlenresidue : ℕ) (s : CopyLocals k) (c : Carry k.size Byte) :
    CsumLocals k × Carry k.size Byte :=
  if csumlenresidue < k.size - s.copylen - c.len then
    let temp := memcpyTo mem c.word c.len s.src (s.copylen + csumlenresidue)
    (⟨s.src + k.size, 0, s.csum + (nativeVal order temp - nativeVal order c.word), temp⟩,
      ⟨temp, c.len + (s.copylen + csumlenresidue)⟩)
  else
    -- we have enough chksum data to fill out our last partial word
    let temp := memcpyTo mem c.word c.len s.src (k.size - c.len)
    (⟨s.src + (k.size - c.len : ℕ), csumlenresidue - (k.size - c.len - s.copylen),
      s.csum + (nativeVal order temp - nativeVal order c.word), temp⟩, ⟨0, 0⟩)

/-- `if (csumlenresidue)`, behind the whole words. -/
def residueEnd (s : CsumLocals k) (c : Carry k.size Byte) : k.Val × Carry k.size Byte :=
  if s.csumlen ≠ 0 then
    let temp := memcpyTo mem 0 0 s.src s.csumlen
    (s.csum + nativeVal order temp, ⟨temp, s.csumlen⟩)
  else (s.csum, c)

/-- The last part of `ocoms_bcopy_csum_partial` when `csumlenresidue` bytes follow that are not
copied. -/
def copyResidue (csumlenresidue : ℕ) (s : CopyLocals k) (c : Carry k.size Byte) :
    k.Val × Carry k.size Byte × (ℤ → Byte) :=
  let dmem := if s.copylen ≠ 0 then copyRest mem s else s.dmem
  let word := residueWord order mem csumlenresidue s c
  let words := csumWords order mem (k.aligned word.1.src) word.1
  let sum := residueEnd order mem words word.2
  (sum.1, sum.2, dmem)

/-- The end of `ocoms_bcopy_csum_partial`. -/
def copyEnd (csumlenresidue : ℕ) (s : CopyLocals k) (c : Carry k.size Byte) :
    k.Val × Carry k.size Byte × (ℤ → Byte) :=
  if s.copylen ≠ 0 ∧ csumlenresidue = 0 then copyLeft order mem s c
  else if csumlenresidue ≠ 0 then copyResidue order mem csumlenresidue s c
  else (s.csum, c, s.dmem)

/-- `ocoms_bcopy_csum_partial`: the sum, `lastPartialLong` and `lastPartialLength`, and the memory
of the destination. -/
def bcopySumPartial (source : ℤ) (dmem : ℤ → Byte) (destination : ℤ) (copylen csumlen : ℕ)
    (c : Carry k.size Byte) : k.Val × Carry k.size Byte × (ℤ → Byte) :=
  let csumlenresidue := if csumlen > copylen then csumlen - copylen else 0
  let s : CopyLocals k := ⟨source, destination, dmem, copylen, 0, c.word⟩
  if k.aligned source && k.aligned destination then
    if c.len ≠ 0 then
      if copylen ≥ k.size - c.len then
        copyEnd order mem csumlenresidue (copyWhile order mem false (copyFill order mem c s)) ⟨0, 0⟩
      else
        let extended := copyExtend order mem c s
        copyEnd order mem csumlenresidue extended.1 extended.2
    else
      let s := copyWords order mem true s
      if k.aligned copylen && csumlenresidue = 0 then (s.csum, ⟨0, 0⟩, s.dmem)
      else copyEnd order mem csumlenresidue s ⟨0, 0⟩
  else if k.aligned source then
    if c.len ≠ 0 then
      if copylen ≥ k.size - c.len then
        let s := copyFill order mem c s
        if k.aligned s.dest then
          copyEnd order mem csumlenresidue (copyWords order mem false s) ⟨0, 0⟩
        else copyEnd order mem csumlenresidue (copyWhile order mem false s) ⟨0, 0⟩
      else
        let extended := copyExtend order mem c s
        copyEnd order mem csumlenresidue extended.1 extended.2
    else copyEnd order mem csumlenresidue (copyWhile order mem true s) ⟨0, 0⟩
  else if k.aligned destination then
    if c.len ≠ 0 then
      if copylen ≥ k.size - c.len then
        let s := copyFill order mem c s
        if k.aligned s.src then
          copyEnd order mem csumlenresidue (copyWhile order mem true s) ⟨0, 0⟩
        else copyEnd order mem csumlenresidue (copyWhile order mem false s) ⟨0, 0⟩
      else
        let extended := copyExtend order mem c s
        copyEnd order mem csumlenresidue extended.1 extended.2
    else copyEnd order mem csumlenresidue (copyWhile order mem false s) ⟨0, 0⟩
  else
    if c.len ≠ 0 then
      if copylen ≥ k.size - c.len then
        let s := copyFill order mem c s
        if k.aligned s.src && k.aligned s.dest then
          copyEnd order mem csumlenresidue (copyWords order mem true s) ⟨0, 0⟩
        else copyEnd order mem csumlenresidue (copyWhile order mem false s) ⟨0, 0⟩
      else
        let extended := copyExtend order mem c s
        copyEnd order mem csumlenresidue extended.1 extended.2
    else copyEnd order mem csumlenresidue (copyWhile order mem false s) ⟨0, 0⟩

end Model

/-! ### The functions -/

section Functions

variable (order : ByteOrder) (mem : ℤ → Byte)

/-- `ocoms_csum_partial`. -/
def csumPartial := sumPartial (k := .unsignedLong) order mem

/-- `ocoms_uicsum_partial`. -/
def uicsumPartial := sumPartial (k := .unsignedInt) order mem

/-- `ocoms_csum`. -/
def csum (source : ℤ) (csumlen : ℕ) : CsumWord.unsignedLong.Val :=
  (csumPartial order mem source csumlen ⟨0, 0⟩).1

/-- `ocoms_uicsum`. -/
def uicsum (source : ℤ) (csumlen : ℕ) : CsumWord.unsignedInt.Val :=
  (uicsumPartial order mem source csumlen ⟨0, 0⟩).1

/-- `ocoms_bcopy_csum_partial`. -/
def bcopyCsumPartial := bcopySumPartial (k := .unsignedLong) order mem

/-- `ocoms_bcopy_uicsum_partial`. -/
def bcopyUicsumPartial := bcopySumPartial (k := .unsignedInt) order mem

/-- `ocoms_bcopy_csum`. -/
def bcopyCsum (source : ℤ) (dmem : ℤ → Byte) (destination : ℤ) (copylen csumlen : ℕ) :
    CsumWord.unsignedLong.Val :=
  (bcopyCsumPartial order mem source dmem destination copylen csumlen ⟨0, 0⟩).1

/-- `ocoms_bcopy_uicsum`. -/
def bcopyUicsum (source : ℤ) (dmem : ℤ → Byte) (destination : ℤ) (copylen csumlen : ℕ) :
    CsumWord.unsignedInt.Val :=
  (bcopyUicsumPartial order mem source dmem destination copylen csumlen ⟨0, 0⟩).1

end Functions

/-! ### Words that are read -/

section Sum

variable {k : CsumWord} (order : ByteOrder) (mem : ℤ → Byte)

lemma nativeVal_zero : nativeVal order (0 : k.Word) = 0 := by
  simp [nativeVal]

/-- Both ways to read a word read the same bytes. -/
lemma fetch_eq (deref : Bool) (temp : k.Word) (src : ℤ) :
    fetch mem deref temp src = pad (gather mem (run src k.size)) := by
  cases deref with
  | false => exact put_zero_of_length temp 0 (by simp)
  | true =>
      funext i
      have hi : (i : ℕ) < k.size := i.isLt
      show mem (src + (i : ℕ))
        = if 0 ≤ (i : ℕ) then (gather mem (run src k.size))[(i : ℕ) - 0]?.getD 0 else 0
      rw [if_pos (Nat.zero_le _), Nat.sub_zero, getElem?_gather_run, if_pos hi]
      rfl

lemma gather_run_words (n : ℕ) (src : ℤ) :
    gather mem (run src ((n + 1) * k.size))
      = gather mem (run src k.size) ++ gather mem (run (src + k.size) (n * k.size)) := by
  have hlen : (n + 1) * k.size = k.size + n * k.size := by ring
  rw [hlen, run_add, gather_append]

lemma sumWords_gather_succ (n : ℕ) (src : ℤ) :
    sumWords (nativeVal (k := k) order) (n + 1) (gather mem (run src ((n + 1) * k.size)))
      = nativeVal order (pad (gather mem (run src k.size)))
        + sumWords (nativeVal (k := k) order) n (gather mem (run (src + k.size) (n * k.size))) := by
  have hlen : (gather mem (run src k.size)).length = k.size := by simp
  rw [gather_run_words, sumWords, pad_append_of_le _ hlen.ge, List.drop_left' hlen]

/-- `n` words are read and added. -/
lemma csumFor_spec (deref : Bool) (n : ℕ) (s : CsumLocals k) :
    (csumFor order mem deref n s).src = s.src + (n * k.size : ℕ) ∧
      (csumFor order mem deref n s).csum
        = s.csum + sumWords (nativeVal (k := k) order) n (gather mem (run s.src (n * k.size))) := by
  induction n generalizing s with
  | zero => simp [csumFor, sumWords]
  | succ n ih =>
      rw [csumFor]
      obtain ⟨hsrc, hcsum⟩ := ih (csumWord order mem deref s)
      refine ⟨?_, ?_⟩
      · rw [hsrc, csumWord]
        push_cast
        ring
      · rw [hcsum, sumWords_gather_succ, csumWord, fetch_eq, add_assoc]

/-- The loop does not look at `csumlen`. -/
lemma csumFor_csumlen (deref : Bool) (n l : ℕ) (s : CsumLocals k) :
    csumFor order mem deref n { s with csumlen := l }
      = { csumFor order mem deref n s with csumlen := l } := by
  induction n generalizing s with
  | zero => rfl
  | succ n ih => exact ih (csumWord order mem deref s)

/-- The loop that counts `csumlen` down is the loop that counts words. -/
lemma csumWhile_eq (deref : Bool) (s : CsumLocals k) :
    csumWhile order mem deref s = csumWords order mem deref s := by
  fun_induction csumWhile order mem deref s with
  | case1 s hle ih =>
      have hcount : s.csumlen / k.size = (s.csumlen - k.size) / k.size + 1 :=
        Nat.div_eq_sub_div k.size_pos hle
      have hleft : s.csumlen - ((s.csumlen - k.size) / k.size + 1) * k.size
          = s.csumlen - k.size - (s.csumlen - k.size) / k.size * k.size := by
        rw [Nat.add_mul, Nat.one_mul, Nat.add_comm, Nat.sub_sub]
      rw [ih, csumWords, csumWords, csumFor_csumlen, hcount, csumFor, hleft]
  | case2 s hlt =>
      rw [csumWords, Nat.div_eq_of_lt (by omega), Nat.zero_mul, Nat.sub_zero, csumFor]

/-- What has been read, from `source` on, and what the sum and the unfinished word are then: the
sum was `base` before. -/
structure Summed (base : k.Val) (source : ℤ) (total : ℕ) (c : Carry k.size Byte)
    (s : CsumLocals k) (c' : Carry k.size Byte) : Prop where
  le : s.csumlen ≤ total
  src_eq : s.src = source + (total - s.csumlen : ℕ)
  csum_eq : s.csum = base
    + (feed (nativeVal order) c (gather mem (run source (total - s.csumlen)))).1
  carry_eq : c' = (feed (nativeVal order) c (gather mem (run source (total - s.csumlen)))).2
  left : s.csumlen = 0 ∨ s.csumlen < k.size ∧ c' = Carry.start

variable {source : ℤ} {c c' : Carry k.size Byte} (s : CsumLocals k)

/-- Whole words, when no word is unfinished. -/
lemma csumWords_summed (deref : Bool) (hc : c.len = 0) :
    Summed order mem s.csum s.src s.csumlen c (csumWords order mem deref s) ⟨0, 0⟩ := by
  have hread : s.csumlen - (csumWords order mem deref s).csumlen = s.csumlen / k.size * k.size :=
    Nat.sub_sub_self (Nat.div_mul_le_self _ _)
  have hleft : (csumWords order mem deref s).csumlen < k.size := by
    have hmod : s.csumlen - s.csumlen / k.size * k.size = s.csumlen % k.size := by
      rw [Nat.mod_def, Nat.mul_comm]
    show s.csumlen - s.csumlen / k.size * k.size < k.size
    rw [hmod]
    exact Nat.mod_lt _ k.size_pos
  obtain ⟨hsrc, hcsum⟩ := csumFor_spec order mem deref (s.csumlen / k.size) s
  have hfeed : feed (nativeVal order) c (gather mem (run s.src (s.csumlen / k.size * k.size)))
      = (sumWords (nativeVal order) (s.csumlen / k.size)
          (gather mem (run s.src (s.csumlen / k.size * k.size))), Carry.start) :=
    feed_words k.size_pos hc _ (by simp)
  refine ⟨Nat.sub_le _ _, ?_, ?_, ?_, .inr ⟨hleft, rfl⟩⟩
  · rw [hread]
    exact hsrc
  · rw [hread, hfeed]
    exact hcsum
  · rw [hread, hfeed]
    rfl

/-- The unfinished word is filled, and whole words follow. -/
lemma csumFill_summed (deref : Bool) (hclear : c.len = 0 → c.word = 0)
    (htemp : s.temp = c.word) (hlen : k.size - c.len ≤ s.csumlen) :
    Summed order mem s.csum s.src s.csumlen c (csumWords order mem deref (csumFill order mem c s))
      ⟨0, 0⟩ := by
  set f := csumFill order mem c s with hf
  set n := f.csumlen / k.size with hn
  have hleft : (csumWords order mem deref f).csumlen = f.csumlen % k.size := by
    rw [Nat.mod_def, Nat.mul_comm]
    rfl
  have hread : s.csumlen - (csumWords order mem deref f).csumlen = (k.size - c.len) + n * k.size := by
    have hdiv := Nat.div_add_mod' f.csumlen k.size
    rw [← hn] at hdiv
    have hfilled : f.csumlen = s.csumlen - (k.size - c.len) := rfl
    rw [hleft]
    omega
  have hbytes : gather mem (run s.src ((k.size - c.len) + n * k.size))
      = gather mem (run s.src (k.size - c.len)) ++ gather mem (run f.src (n * k.size)) := by
    rw [run_add, gather_append]
    rfl
  have hfeed := feed_fill (nativeVal_zero order) k.size_pos hclear
    (gather mem (run s.src (k.size - c.len))) (gather mem (run f.src (n * k.size)))
    (n := n) (by simp) (by simp)
  rw [← hbytes] at hfeed
  obtain ⟨hsrc, hcsum⟩ := csumFor_spec order mem deref n f
  have hmod : f.csumlen % k.size < k.size := Nat.mod_lt _ k.size_pos
  refine ⟨?_, ?_, ?_, ?_, .inr ⟨by rw [hleft]; exact hmod, rfl⟩⟩
  · rw [hleft]
    exact (Nat.mod_le _ _).trans (Nat.sub_le _ _)
  · rw [hread]
    show (csumFor order mem deref n f).src = _
    rw [hsrc, hf, csumFill]
    push_cast
    ring
  · rw [hread, hfeed]
    show (csumFor order mem deref n f).csum = _
    rw [hcsum, hf, csumFill, htemp, add_assoc]
    rfl
  · rw [hread, hfeed]
    rfl

/-- A piece that does not finish the word. -/
lemma csumExtend_summed (hclear : c.len = 0 → c.word = 0) (htemp : s.temp = c.word)
    (hlen : s.csumlen < k.size - c.len) :
    Summed order mem s.csum s.src s.csumlen c (csumExtend order mem c s).1
      (csumExtend order mem c s).2 := by
  have hfeed := feed_extend (nativeVal_zero order) hclear
    (gather mem (run s.src s.csumlen)) (by simpa using hlen)
  refine ⟨Nat.zero_le _, rfl, ?_, ?_, .inl rfl⟩
  · show _ = s.csum + (feed (nativeVal order) c (gather mem (run s.src s.csumlen))).1
    rw [hfeed, csumExtend, htemp]
    rfl
  · show _ = (feed (nativeVal order) c (gather mem (run s.src s.csumlen))).2
    rw [hfeed, csumExtend, htemp, length_gather, length_run]
    rfl

variable {order mem s}

/-- The end of the function adds what is left, which is less than a word. -/
lemma csumLeft_eq {base : k.Val} {total : ℕ} (h : Summed order mem base source total c s c')
    (hc : c.len < k.size) :
    csumLeft order mem s c'
      = (base + (feed (nativeVal order) c (gather mem (run source total))).1,
          (feed (nativeVal order) c (gather mem (run source total))).2) := by
  have hsplit : gather mem (run source total)
      = gather mem (run source (total - s.csumlen)) ++ gather mem (run s.src s.csumlen) := by
    rw [h.src_eq, ← gather_append, ← run_add, Nat.sub_add_cancel h.le]
  rw [hsplit, feed_append (nativeVal_zero order) k.size_pos hc, ← h.carry_eq]
  dsimp only
  rw [← add_assoc, ← h.csum_eq]
  unfold csumLeft
  split_ifs with hzero hlen hfill
  · rcases h.left with hnone | ⟨-, hstart⟩
    · exact absurd hnone hzero
    · rw [hstart] at hlen
      exact absurd rfl hlen
  · rcases h.left with hnone | ⟨-, hstart⟩
    · exact absurd hnone hzero
    · rw [hstart] at hlen
      exact absurd rfl hlen
  · obtain ⟨hlt, rfl⟩ : s.csumlen < k.size ∧ c' = Carry.start := h.left.resolve_left hzero
    rw [feed_start (nativeVal_zero order) (by simpa using hlt), length_gather, length_run]
    rfl
  · rw [not_not] at hzero
    have hclear : c'.len = 0 → c'.word = 0 := by
      rw [h.carry_eq]
      exact feed_clear c _
    have hlt : c'.len < k.size := by
      rw [h.carry_eq]
      exact feed_len_lt k.size_pos hc _
    rw [hzero, run_zero, gather_nil, feed_nil (nativeVal_zero order) hlt hclear, add_zero]

/-- **The checksum of a piece**, in every branch: the words of the string so far. -/
theorem sumPartial_eq (csumlen : ℕ) (hc : c.len < k.size) :
    sumPartial order mem source csumlen c
      = feed (nativeVal order) c (gather mem (run source csumlen)) := by
  have hfill : ∀ deref, c.len ≠ 0 → csumlen ≥ k.size - c.len →
      csumLeft order mem (csumWords order mem deref
        (csumFill order mem c ⟨source, csumlen, 0, c.word⟩)) ⟨0, 0⟩
        = feed (nativeVal order) c (gather mem (run source csumlen)) := by
    intro deref hzero hlen
    rw [csumLeft_eq (csumFill_summed order mem ⟨source, csumlen, 0, c.word⟩ deref
      (fun h => absurd h hzero) rfl hlen) hc]
    exact Prod.ext (zero_add _) rfl
  have hextend : c.len ≠ 0 → ¬ csumlen ≥ k.size - c.len →
      csumLeft order mem (csumExtend order mem c ⟨source, csumlen, 0, c.word⟩).1
        (csumExtend order mem c ⟨source, csumlen, 0, c.word⟩).2
        = feed (nativeVal order) c (gather mem (run source csumlen)) := by
    intro hzero hlen
    rw [csumLeft_eq (csumExtend_summed order mem ⟨source, csumlen, 0, c.word⟩
      (fun h => absurd h hzero) rfl (Nat.lt_of_not_le hlen)) hc]
    exact Prod.ext (zero_add _) rfl
  have hwords : ∀ deref, c.len = 0 →
      csumLeft order mem (csumWords order mem deref ⟨source, csumlen, 0, c.word⟩) ⟨0, 0⟩
        = feed (nativeVal order) c (gather mem (run source csumlen)) := by
    intro deref hzero
    rw [csumLeft_eq (csumWords_summed order mem ⟨source, csumlen, 0, c.word⟩ deref hzero) hc]
    exact Prod.ext (zero_add _) rfl
  unfold sumPartial
  dsimp only
  split_ifs with hsrc hzero hlen haligned hzero hlen hsrc'
  · exact hfill false hzero hlen
  · exact hextend hzero hlen
  · -- nothing is left, and the function returns at once
    have hnone : csumlen - csumlen / k.size * k.size = 0 := by
      rw [Nat.mul_comm, ← Nat.mod_def]
      exact k.mod_eq_zero_of_aligned haligned
    rw [← hwords true (not_not.mp hzero)]
    exact (if_neg (not_not.mpr hnone)).symm
  · exact hwords true (not_not.mp hzero)
  · exact hfill true hzero hlen
  · exact hfill false hzero hlen
  · exact hextend hzero hlen
  · rw [csumWhile_eq]
    exact hwords false (not_not.mp hzero)

/-! ### Bytes that are copied -/

/-- What a copying function adds up. -/
def CopyLocals.sums (s : CopyLocals k) : CsumLocals k := ⟨s.src, s.copylen, s.csum, s.temp⟩

variable (order mem)

lemma writeBytes_gather (dmem : ℤ → Byte) (src dst : ℤ) (n : ℕ) :
    writeBytes dmem dst (gather mem (run src n))
      = scatter dmem (run dst n) (gather mem (run src n)) := by
  rw [writeBytes, length_gather, length_run]

/-- The bytes that have been read into a word are the bytes that are written out of it. -/
lemma take_drop_memcpyTo (t : k.Word) (off : ℕ) {n : ℕ} (src : ℤ) (h : off + n ≤ k.size) :
    ((wordBytes (memcpyTo mem t off src n)).drop off).take n = gather mem (run src n) := by
  have hlen : (gather mem (run src n)).length = n := by simp
  have hput := take_drop_put t off (gather mem (run src n)) (by rwa [hlen])
  rwa [hlen] at hput

lemma wordBytes_fetch (deref : Bool) (temp : k.Word) (src : ℤ) :
    wordBytes (fetch mem deref temp src) = gather mem (run src k.size) := by
  have hbytes := take_drop_memcpyTo mem (0 : k.Word) 0 (n := k.size) src (by omega)
  rw [List.drop_zero, List.take_of_length_le (by simp [wordBytes])] at hbytes
  rw [fetch_eq]
  exact hbytes

/-- `n` bytes have been copied between the two states. -/
structure Moves (n : ℕ) (s s' : CopyLocals k) : Prop where
  src_eq : s'.src = s.src + n
  dest_eq : s'.dest = s.dest + n
  dmem_eq : s'.dmem = scatter s.dmem (run s.dest n) (gather mem (run s.src n))

variable {mem}

lemma Moves.trans {m n : ℕ} {s s' s'' : CopyLocals k} (h : Moves mem m s s')
    (h' : Moves mem n s' s'') : Moves mem (m + n) s s'' where
  src_eq := by
    rw [h'.src_eq, h.src_eq]
    push_cast
    ring
  dest_eq := by
    rw [h'.dest_eq, h.dest_eq]
    push_cast
    ring
  dmem_eq := by
    rw [h'.dmem_eq, h.dmem_eq, h.src_eq, h.dest_eq, run_add, run_add, gather_append,
      scatter_append _ (by simp)]

variable (mem)

lemma copyWord_moves (deref : Bool) (s : CopyLocals k) :
    Moves mem k.size s (copyWord order mem deref s) := by
  refine ⟨rfl, rfl, ?_⟩
  show writeBytes s.dmem s.dest (wordBytes (fetch mem deref s.temp s.src)) = _
  rw [wordBytes_fetch, writeBytes_gather]

lemma copyFor_moves (deref : Bool) (n : ℕ) (s : CopyLocals k) :
    Moves mem (n * k.size) s (copyFor order mem deref n s) := by
  induction n generalizing s with
  | zero =>
      rw [Nat.zero_mul]
      exact ⟨(add_zero _).symm, (add_zero _).symm, rfl⟩
  | succ n ih =>
      have hlen : (n + 1) * k.size = k.size + n * k.size := by ring
      rw [hlen, copyFor]
      exact (copyWord_moves order mem deref s).trans (ih _)

lemma copyFor_sums (deref : Bool) (n : ℕ) (s : CopyLocals k) :
    (copyFor order mem deref n s).sums = csumFor order mem deref n s.sums := by
  induction n generalizing s with
  | zero => rfl
  | succ n ih =>
      rw [copyFor, ih, csumFor]
      rfl

lemma copyWords_moves (deref : Bool) (s : CopyLocals k) :
    Moves mem (s.copylen / k.size * k.size) s (copyWords order mem deref s) :=
  have h := copyFor_moves order mem deref (s.copylen / k.size) s
  ⟨h.src_eq, h.dest_eq, h.dmem_eq⟩

lemma copyWords_sums (deref : Bool) (s : CopyLocals k) :
    (copyWords order mem deref s).sums = csumWords order mem deref s.sums := by
  have h := copyFor_sums order mem deref (s.copylen / k.size) s
  have hwords : csumWords order mem deref s.sums
      = { csumFor order mem deref (s.copylen / k.size) s.sums with
          csumlen := s.copylen - s.copylen / k.size * k.size } := rfl
  rw [hwords, ← h]
  rfl

lemma copyFor_copylen (deref : Bool) (n l : ℕ) (s : CopyLocals k) :
    copyFor order mem deref n { s with copylen := l }
      = { copyFor order mem deref n s with copylen := l } := by
  induction n generalizing s with
  | zero => rfl
  | succ n ih => exact ih (copyWord order mem deref s)

lemma copyWhile_eq (deref : Bool) (s : CopyLocals k) :
    copyWhile order mem deref s = copyWords order mem deref s := by
  fun_induction copyWhile order mem deref s with
  | case1 s hle ih =>
      have hcount : s.copylen / k.size = (s.copylen - k.size) / k.size + 1 :=
        Nat.div_eq_sub_div k.size_pos hle
      have hleft : s.copylen - ((s.copylen - k.size) / k.size + 1) * k.size
          = s.copylen - k.size - (s.copylen - k.size) / k.size * k.size := by
        rw [Nat.add_mul, Nat.one_mul, Nat.add_comm, Nat.sub_sub]
      rw [ih, copyWords, copyWords, copyFor_copylen, hcount, copyFor, hleft]
  | case2 s hlt =>
      rw [copyWords, Nat.div_eq_of_lt (by omega), Nat.zero_mul, Nat.sub_zero, copyFor]

lemma copyFill_moves (s : CopyLocals k) (hc : c.len < k.size) :
    Moves mem (k.size - c.len) s (copyFill order mem c s) := by
  refine ⟨rfl, rfl, ?_⟩
  show writeBytes s.dmem s.dest (((wordBytes (memcpyTo mem s.temp c.len s.src _)).drop c.len).take _)
    = _
  rw [take_drop_memcpyTo mem _ _ _ (by omega), writeBytes_gather]

lemma copyExtend_moves {s : CopyLocals k} (hlen : s.copylen < k.size - c.len) :
    Moves mem s.copylen s (copyExtend order mem c s).1 := by
  refine ⟨rfl, rfl, ?_⟩
  show writeBytes s.dmem s.dest (((wordBytes (memcpyTo mem s.temp c.len s.src _)).drop c.len).take _)
    = _
  rw [take_drop_memcpyTo mem _ _ _ (by omega), writeBytes_gather]

lemma copyRest_eq {s : CopyLocals k} (h : s.copylen ≤ k.size) :
    copyRest mem s = scatter s.dmem (run s.dest s.copylen) (gather mem (run s.src s.copylen)) := by
  have hbytes := take_drop_memcpyTo mem (0 : k.Word) 0 s.src (n := s.copylen) (by omega)
  rw [List.drop_zero] at hbytes
  rw [copyRest, hbytes, writeBytes_gather]

/-- Behind the copied bytes the sum goes on with `r` bytes, and with what is left of the copied
ones. -/
lemma residueEnd_eq {r : ℕ} {s : CopyLocals k} (deref : Bool) (hclear : c.len = 0 → c.word = 0)
    (hlen : c.len + s.copylen < k.size) :
    residueEnd order mem (csumWords order mem deref (residueWord order mem r s c).1)
        (residueWord order mem r s c).2
      = (s.csum + (feed (nativeVal order) c (gather mem (run s.src (s.copylen + r)))).1,
          (feed (nativeVal order) c (gather mem (run s.src (s.copylen + r)))).2) := by
  by_cases hshort : r < k.size - s.copylen - c.len
  · have hfeed := feed_extend (nativeVal_zero order) hclear
      (gather mem (run s.src (s.copylen + r))) (by simp; omega)
    rw [hfeed, length_gather, length_run, residueWord, if_pos hshort]
    dsimp only
    rw [csumWords, Nat.zero_div, csumFor]
    exact if_neg (not_not.mpr (Nat.zero_sub _))
  · have hword : residueWord order mem r s c
        = (csumFill order mem c ⟨s.src, s.copylen + r, s.csum, c.word⟩, ⟨0, 0⟩) := by
      have hleft : r - (k.size - c.len - s.copylen) = s.copylen + r - (k.size - c.len) := by omega
      rw [residueWord, if_neg hshort, hleft]
      rfl
    have hsum := csumFill_summed order mem ⟨s.src, s.copylen + r, s.csum, c.word⟩ deref hclear rfl (by dsimp only; omega)
    rw [← csumLeft_eq hsum (by omega), hword]
    rfl

/-- The end of the function: what is left is copied, and everything is added. -/
lemma copyEnd_eq {s₀ s : CopyLocals k} {copylen r : ℕ} (hle : s.copylen ≤ copylen)
    (hmoves : Moves mem (copylen - s.copylen) s₀ s)
    (hsum : Summed order mem 0 s₀.src copylen c s.sums c') (hc : c.len < k.size) :
    copyEnd order mem r s c'
      = ((feed (nativeVal order) c (gather mem (run s₀.src (copylen + r)))).1,
          (feed (nativeVal order) c (gather mem (run s₀.src (copylen + r)))).2,
          scatter s₀.dmem (run s₀.dest copylen) (gather mem (run s₀.src copylen))) := by
  have hclear : c'.len = 0 → c'.word = 0 := by
    rw [hsum.carry_eq]
    exact feed_clear c _
  have hlt : c'.len < k.size := by
    rw [hsum.carry_eq]
    exact feed_len_lt k.size_pos hc _
  have hleft : c'.len + s.copylen < k.size := by
    rcases hsum.left with hnone | ⟨hshort, hstart⟩
    · have hnone : s.copylen = 0 := hnone
      omega
    · have hshort : s.copylen < k.size := hshort
      rw [hstart]
      show 0 + s.copylen < k.size
      omega
  have hcopied : scatter s.dmem (run s.dest s.copylen) (gather mem (run s.src s.copylen))
      = scatter s₀.dmem (run s₀.dest copylen) (gather mem (run s₀.src copylen)) := by
    have hlast : Moves mem s.copylen s { s with
        src := s.src + s.copylen
        dest := s.dest + s.copylen
        dmem := scatter s.dmem (run s.dest s.copylen) (gather mem (run s.src s.copylen)) } :=
      ⟨rfl, rfl, rfl⟩
    have hall := (hmoves.trans hlast).dmem_eq
    rwa [Nat.sub_add_cancel hle] at hall
  have hcsum : s.csum
      = (feed (nativeVal order) c (gather mem (run s₀.src (copylen - s.copylen)))).1 :=
    hsum.csum_eq.trans (zero_add _)
  have hcarry : c' = (feed (nativeVal order) c
      (gather mem (run s₀.src (copylen - s.copylen)))).2 := hsum.carry_eq
  unfold copyEnd
  split_ifs with hno hres
  · obtain ⟨hrest, rfl⟩ := hno
    obtain ⟨-, rfl⟩ := hsum.left.resolve_left hrest
    have hend := csumLeft_eq hsum hc
    have hsome : s.sums.csumlen ≠ 0 := hrest
    rw [zero_add, csumLeft, if_pos hsome] at hend
    rw [Nat.add_zero, ← hcopied, ← copyRest_eq mem (by omega)]
    exact congrArg (fun r => (r.1, r.2, copyRest mem s)) hend
  · have hbytes : gather mem (run s₀.src (copylen + r))
        = gather mem (run s₀.src (copylen - s.copylen))
          ++ gather mem (run s.src (s.copylen + r)) := by
      rw [hmoves.src_eq, ← gather_append, ← run_add]
      congr 2
      omega
    have hdmem : (if s.copylen ≠ 0 then copyRest mem s else s.dmem)
        = scatter s₀.dmem (run s₀.dest copylen) (gather mem (run s₀.src copylen)) := by
      rw [← hcopied]
      split_ifs with hrest
      · exact copyRest_eq mem (by omega)
      · rw [not_not.mp hrest, run_zero, scatter_nil]
    rw [hbytes, feed_append (nativeVal_zero order) k.size_pos hc, ← hcarry, ← hcsum, copyResidue,
      residueEnd_eq order mem _ hclear hleft, hdmem]
  · have hrest : s.copylen = 0 := by
      by_contra hrest
      exact hno ⟨hrest, not_not.mp hres⟩
    rw [hrest, Nat.sub_zero] at hcsum hcarry
    rw [hrest, run_zero, scatter_nil] at hcopied
    rw [not_not.mp hres, Nat.add_zero, ← hcsum, ← hcarry, hcopied]

/-- **Copying and adding**, in every branch: the words of the string so far, and the bytes. -/
theorem bcopySumPartial_eq (dmem : ℤ → Byte) (destination : ℤ) {copylen csumlen : ℕ}
    (h : copylen ≤ csumlen) (hc : c.len < k.size) :
    bcopySumPartial order mem source dmem destination copylen csumlen c
      = ((feed (nativeVal order) c (gather mem (run source csumlen))).1,
          (feed (nativeVal order) c (gather mem (run source csumlen))).2,
          scatter dmem (run destination copylen) (gather mem (run source copylen))) := by
  have hresidue : (if csumlen > copylen then csumlen - copylen else 0) = csumlen - copylen := by
    split_ifs <;> omega
  have htotal : copylen + (csumlen - copylen) = csumlen := Nat.add_sub_cancel' h
  set s : CopyLocals k := ⟨source, destination, dmem, copylen, 0, c.word⟩ with hs
  have hend : ∀ {t : CopyLocals k} {c' : Carry k.size Byte}, t.copylen ≤ copylen →
      Moves mem (copylen - t.copylen) s t → Summed order mem 0 source copylen c t.sums c' →
        copyEnd order mem (csumlen - copylen) t c'
          = ((feed (nativeVal order) c (gather mem (run source csumlen))).1,
              (feed (nativeVal order) c (gather mem (run source csumlen))).2,
              scatter dmem (run destination copylen) (gather mem (run source copylen))) := by
    intro t c' hle hmoves hsum
    rw [copyEnd_eq order mem hle hmoves hsum hc, hs]
    dsimp only
    rw [htotal]
  have hfill : ∀ deref, c.len ≠ 0 → copylen ≥ k.size - c.len →
      copyEnd order mem (csumlen - copylen)
          (copyWords order mem deref (copyFill order mem c s)) ⟨0, 0⟩
        = ((feed (nativeVal order) c (gather mem (run source csumlen))).1,
            (feed (nativeVal order) c (gather mem (run source csumlen))).2,
            scatter dmem (run destination copylen) (gather mem (run source copylen))) := by
    intro deref hzero hlen
    have hsum := csumFill_summed order mem s.sums deref
      (fun h => absurd h hzero) rfl hlen
    have hmoves := (copyFill_moves order mem s hc).trans
      (copyWords_moves order mem deref (copyFill order mem c s))
    have hleft : (copyWords order mem deref (copyFill order mem c s)).copylen
        = copylen - (k.size - c.len)
          - (copyFill order mem c s).copylen / k.size * k.size := rfl
    have hdiv : (copyFill order mem c s).copylen / k.size * k.size ≤ copylen - (k.size - c.len) :=
      Nat.div_mul_le_self _ _
    refine hend (by omega) ?_ ?_
    · rw [hleft]
      convert hmoves using 1
      omega
    · rw [copyWords_sums]
      exact hsum
  have hextend : c.len ≠ 0 → ¬ copylen ≥ k.size - c.len →
      copyEnd order mem (csumlen - copylen) (copyExtend order mem c s).1
          (copyExtend order mem c s).2
        = ((feed (nativeVal order) c (gather mem (run source csumlen))).1,
            (feed (nativeVal order) c (gather mem (run source csumlen))).2,
            scatter dmem (run destination copylen) (gather mem (run source copylen))) := by
    intro hzero hlen
    have hmoves : Moves mem copylen s (copyExtend order mem c s).1 :=
      copyExtend_moves order mem (s := s) (Nat.lt_of_not_le hlen)
    exact hend (Nat.zero_le _) hmoves
      (csumExtend_summed order mem s.sums (fun h => absurd h hzero) rfl
        (Nat.lt_of_not_le hlen))
  have hwords : ∀ deref, c.len = 0 →
      copyEnd order mem (csumlen - copylen) (copyWords order mem deref s) ⟨0, 0⟩
        = ((feed (nativeVal order) c (gather mem (run source csumlen))).1,
            (feed (nativeVal order) c (gather mem (run source csumlen))).2,
            scatter dmem (run destination copylen) (gather mem (run source copylen))) := by
    intro deref hzero
    have hleft : copylen - (copyWords order mem deref s).copylen
        = copylen / k.size * k.size := Nat.sub_sub_self (Nat.div_mul_le_self _ _)
    refine hend (Nat.sub_le _ _) ?_ ?_
    · rw [hleft]
      exact copyWords_moves order mem deref s
    · rw [copyWords_sums]
      exact csumWords_summed order mem s.sums deref hzero
  unfold bcopySumPartial
  simp only [hresidue, copyWhile_eq]
  split_ifs with hboth hzero hlen hnone hsrc hzero hlen hdest hdst hzero hlen hsrc' hzero hlen hboth'
  · exact hfill false hzero hlen
  · exact hextend hzero hlen
  · -- nothing is left, and the function returns at once
    rw [Bool.and_eq_true, decide_eq_true_eq] at hnone
    have hmod := k.mod_eq_zero_of_aligned hnone.1
    have hleft : (copyWords order mem true s).copylen = 0 := by
      rw [Nat.mod_def, Nat.mul_comm] at hmod
      exact hmod
    rw [← hwords true (not_not.mp hzero), copyEnd, if_neg fun h => h.1 hleft,
      if_neg (not_not.mpr hnone.2)]
  · exact hwords true (not_not.mp hzero)
  · exact hfill false hzero hlen
  · exact hfill false hzero hlen
  · exact hextend hzero hlen
  · exact hwords true (not_not.mp hzero)
  · exact hfill true hzero hlen
  · exact hfill false hzero hlen
  · exact hextend hzero hlen
  · exact hwords false (not_not.mp hzero)
  · exact hfill true hzero hlen
  · exact hfill false hzero hlen
  · exact hextend hzero hlen
  · exact hwords false (not_not.mp hzero)

end Sum

/-! ### Pieces -/

/-- A piece of a string: `len` bytes at the address `source`. -/
structure CsumPiece where
  mem : ℤ → Byte
  source : ℤ
  len : ℕ

/-- The bytes of a piece. -/
def CsumPiece.bytes (p : CsumPiece) : List Byte := gather p.mem (run p.source p.len)

/-- The pieces are given to a checksum function one after the other, and the results are added. -/
def sumPieces {k : CsumWord}
    (csumPartial : (ℤ → Byte) → ℤ → ℕ → Carry k.size Byte → k.Val × Carry k.size Byte) :
    Carry k.size Byte → List CsumPiece → k.Val × Carry k.size Byte
  | c, [] => (0, c)
  | c, p :: ps =>
      let (csum, c) := csumPartial p.mem p.source p.len c
      let (rest, c) := sumPieces csumPartial c ps
      (csum + rest, c)

section Pieces

variable {k : CsumWord} (order : ByteOrder)

lemma sumPieces_eq_feedAll (ps : List CsumPiece) {c : Carry k.size Byte} (hc : c.len < k.size) :
    sumPieces (sumPartial order) c ps
      = feedAll (nativeVal order) c (ps.map CsumPiece.bytes) := by
  induction ps generalizing c with
  | nil => rfl
  | cons p ps ih =>
      rw [sumPieces, sumPartial_eq p.len hc]
      dsimp only
      rw [ih (feed_len_lt k.size_pos hc _)]
      rfl

/-- The sum of a string that has been cut into pieces. -/
lemma sumPieces_eq (ps : List CsumPiece) :
    (sumPieces (k := k) (sumPartial order) ⟨0, 0⟩ ps).1
      = wordSum (nativeVal order) (ps.flatMap CsumPiece.bytes) := by
  rw [sumPieces_eq_feedAll order ps k.size_pos]
  cases ps with
  | nil => exact wordSum_nil.symm
  | cons p ps =>
      have hall := feedAll_flatten (nativeVal_zero order) k.size_pos p.bytes
        (ps.map CsumPiece.bytes) (c := ⟨0, 0⟩) k.size_pos
      rw [List.map_cons, hall, ← List.map_cons, ← List.flatMap_def]
      rfl

lemma sumPartial_start_eq (mem : ℤ → Byte) (source : ℤ) (csumlen : ℕ) :
    (sumPartial (k := k) order mem source csumlen ⟨0, 0⟩).1
      = wordSum (nativeVal order) (gather mem (run source csumlen)) := by
  rw [sumPartial_eq csumlen k.size_pos]
  rfl

end Pieces

/-- **The checksum of a string does not depend on how it is cut and where the pieces lie**: it is
the sum of its words, the last one padded with zeros. In particular it is what the function gives
for the string in one piece. -/
theorem csum_of_pieces (order : ByteOrder) (ps : List CsumPiece) :
    ((sumPieces (k := .unsignedInt) (uicsumPartial order) ⟨0, 0⟩ ps).1
        = wordSum (nativeVal order) (ps.flatMap CsumPiece.bytes) ∧
      ∀ (mem : ℤ → Byte) (source : ℤ) (csumlen : ℕ),
        gather mem (run source csumlen) = ps.flatMap CsumPiece.bytes →
          uicsum order mem source csumlen
            = (sumPieces (k := .unsignedInt) (uicsumPartial order) ⟨0, 0⟩ ps).1) ∧
    ((sumPieces (k := .unsignedLong) (csumPartial order) ⟨0, 0⟩ ps).1
        = wordSum (nativeVal order) (ps.flatMap CsumPiece.bytes) ∧
      ∀ (mem : ℤ → Byte) (source : ℤ) (csumlen : ℕ),
        gather mem (run source csumlen) = ps.flatMap CsumPiece.bytes →
          csum order mem source csumlen
            = (sumPieces (k := .unsignedLong) (csumPartial order) ⟨0, 0⟩ ps).1) := by
  refine ⟨⟨sumPieces_eq order ps, fun mem source csumlen h => ?_⟩,
    sumPieces_eq order ps, fun mem source csumlen h => ?_⟩
  · have hpieces := sumPieces_eq (k := .unsignedInt) order ps
    rw [← h] at hpieces
    exact (sumPartial_start_eq order mem source csumlen).trans hpieces.symm
  · have hpieces := sumPieces_eq (k := .unsignedLong) order ps
    rw [← h] at hpieces
    exact (sumPartial_start_eq order mem source csumlen).trans hpieces.symm

/-- Five bytes as pieces of two and three. -/
theorem csum_of_pieces_five :
    uicsum .little (fun x => BitVec.ofInt 8 x) 1 5
      = (sumPieces (k := .unsignedInt) (uicsumPartial .little) ⟨0, 0⟩
          [⟨fun x => BitVec.ofInt 8 x, 1, 2⟩, ⟨fun x => BitVec.ofInt 8 (x - 4), 7, 3⟩]).1 :=
  (csum_of_pieces .little _).1.2 _ 1 5 (by decide)

/-! ### Copies -/

/-- A copying checksum function is the checksum function `csumPartial`, wherever the source and the
destination lie, and it writes the first `copylen` bytes and no others. -/
structure CopiesAndSums {k : CsumWord}
    (csumPartial : (ℤ → Byte) → ℤ → ℕ → Carry k.size Byte → k.Val × Carry k.size Byte)
    (bcopy : (ℤ → Byte) → ℤ → (ℤ → Byte) → ℤ → ℕ → ℕ → Carry k.size Byte →
      k.Val × Carry k.size Byte × (ℤ → Byte)) : Prop where
  csum_eq : ∀ smem source dmem destination copylen csumlen c, copylen ≤ csumlen → c.len < k.size →
    (bcopy smem source dmem destination copylen csumlen c).1 = (csumPartial smem source csumlen c).1
  carry_eq : ∀ smem source dmem destination copylen csumlen c, copylen ≤ csumlen →
    c.len < k.size → (bcopy smem source dmem destination copylen csumlen c).2.1
      = (csumPartial smem source csumlen c).2
  dmem_eq : ∀ smem source dmem destination (copylen : ℕ) csumlen c, copylen ≤ csumlen →
    c.len < k.size → ∀ x, (bcopy smem source dmem destination copylen csumlen c).2.2 x
      = if destination ≤ x ∧ x < destination + copylen then smem (source + (x - destination))
        else dmem x
  branches_eq : ∀ smem source dmem destination smem' source' dmem' destination' copylen csumlen c,
    copylen ≤ csumlen → c.len < k.size →
    gather smem (run source csumlen) = gather smem' (run source' csumlen) →
      (bcopy smem source dmem destination copylen csumlen c).1
          = (bcopy smem' source' dmem' destination' copylen csumlen c).1 ∧
        (bcopy smem source dmem destination copylen csumlen c).2.1
          = (bcopy smem' source' dmem' destination' copylen csumlen c).2.1

lemma copiesAndSums {k : CsumWord} (order : ByteOrder) :
    CopiesAndSums (k := k) (sumPartial order) (bcopySumPartial order) where
  csum_eq smem source dmem destination copylen csumlen c h hc := by
    rw [bcopySumPartial_eq order smem dmem destination h hc, sumPartial_eq csumlen hc]
  carry_eq smem source dmem destination copylen csumlen c h hc := by
    rw [bcopySumPartial_eq order smem dmem destination h hc, sumPartial_eq csumlen hc]
  dmem_eq smem source dmem destination copylen csumlen c h hc x := by
    rw [bcopySumPartial_eq order smem dmem destination h hc]
    exact scatter_gather_run_apply dmem smem destination source copylen x
  branches_eq smem source dmem destination smem' source' dmem' destination' copylen csumlen c h hc
      hbytes := by
    rw [bcopySumPartial_eq order smem dmem destination h hc,
      bcopySumPartial_eq order smem' dmem' destination' h hc, hbytes]
    exact ⟨rfl, rfl⟩

/-- **Copying and adding is adding**, for both types of words. -/
theorem bcopy_csum_agrees (order : ByteOrder) :
    CopiesAndSums (k := .unsignedInt) (uicsumPartial order) (bcopyUicsumPartial order) ∧
      CopiesAndSums (k := .unsignedLong) (csumPartial order) (bcopyCsumPartial order) :=
  ⟨copiesAndSums order, copiesAndSums order⟩

end Ocoms
