import Mathlib.Algebra.BigOperators.Group.List.Basic
import Mathlib.Algebra.Group.Basic
import Mathlib.Tactic.Abel
import Mathlib.Tactic.Ring

/-!
Sums of the words of a byte string that arrives in pieces.

* A word is its `w` cells in the order in which they lie in memory; `put` writes into a word and
  `pad` fills one up with zeros. What a word is worth is a parameter `val`.
* `wordSum val bs` adds the words of `bs`, the last one padded.
* `feed val c bs` goes on with the word `c` that the piece before has left unfinished, and says by
  how much the sum grows. `feed_append`: two pieces are as good as one.
-/

namespace Ocoms.WordSum

variable {β S : Type*} {w : ℕ}

/-! ### Words -/

/-- The cells `bs` are written into the word `t`, from the cell `off` on. -/
def put (t : Fin w → β) (off : ℕ) (bs : List β) : Fin w → β :=
  fun i => if off ≤ i then bs[i - off]?.getD (t i) else t i

@[simp] lemma put_nil (t : Fin w → β) (off : ℕ) : put t off [] = t := by
  funext i
  simp [put]

/-- Writing two strings one behind the other. -/
lemma put_put (t : Fin w → β) (off : ℕ) (as bs : List β) :
    put (put t off as) (off + as.length) bs = put t off (as ++ bs) := by
  funext i
  unfold put
  by_cases hoff : off ≤ i
  · rw [if_pos hoff, if_pos hoff]
    by_cases has : off + as.length ≤ i
    · rw [if_pos has, List.getElem?_append_right (by omega),
        List.getElem?_eq_none (l := as) (by omega)]
      congr 2
      omega
    · rw [if_neg has, List.getElem?_append_left (by omega)]
  · rw [if_neg hoff, if_neg hoff, if_neg (by omega)]

/-- What does not fit into the word is not looked at. -/
lemma put_append_of_le (t : Fin w → β) (off : ℕ) {as : List β} (bs : List β)
    (h : w - off ≤ as.length) : put t off (as ++ bs) = put t off as := by
  funext i
  have hi := i.isLt
  unfold put
  split_ifs with hoff
  · rw [List.getElem?_append_left (by omega)]
  · rfl

/-- A word that is written from its first to its last cell. -/
lemma put_zero_of_length (t u : Fin w → β) {bs : List β} (h : w ≤ bs.length) :
    put t 0 bs = put u 0 bs := by
  funext i
  have hi : (i : ℕ) < bs.length := i.isLt.trans_le h
  simp [put, List.getElem?_eq_getElem hi]

/-- What has been written into a word is found there. -/
lemma take_drop_put (t : Fin w → β) (off : ℕ) (bs : List β) (h : off + bs.length ≤ w) :
    ((List.ofFn (put t off bs)).drop off).take bs.length = bs := by
  apply List.ext_getElem
  · simp
    omega
  · intro i hi hi'
    simp [put, hi']

/-! ### Whole words -/

/-- What is behind the last whole word. -/
def rest (w : ℕ) (bs : List β) : List β := bs.drop (bs.length / w * w)

lemma length_rest (bs : List β) : (rest w bs).length = bs.length % w := by
  rw [rest, List.length_drop, Nat.mod_def, Nat.mul_comm]

lemma rest_append {k : ℕ} (hw : 0 < w) {as : List β} (bs : List β) (h : as.length = k * w) :
    rest w (as ++ bs) = rest w bs := by
  have hcount : (as ++ bs).length / w * w = as.length + bs.length / w * w := by
    rw [List.length_append, h, Nat.add_comm, Nat.add_mul_div_right _ _ hw, Nat.add_mul,
      Nat.add_comm]
  rw [rest, hcount, ← List.drop_drop, List.drop_left]
  rfl

lemma rest_of_length_lt {bs : List β} (h : bs.length < w) : rest w bs = bs := by
  rw [rest, Nat.div_eq_of_lt h, Nat.zero_mul, List.drop_zero]

/-! ### The sum of the words -/

variable [Zero β]

/-- The first word of a string, zero behind the end of the string. -/
def pad (bs : List β) : Fin w → β := put 0 0 bs

@[simp] lemma pad_nil : (pad [] : Fin w → β) = 0 := put_nil 0 0

lemma pad_append_of_le {as : List β} (bs : List β) (h : w ≤ as.length) :
    (pad (as ++ bs) : Fin w → β) = pad as := put_append_of_le 0 0 bs (by omega)

lemma put_pad (as bs : List β) : put (pad as : Fin w → β) as.length bs = pad (as ++ bs) := by
  have h := put_put (0 : Fin w → β) 0 as bs
  rwa [Nat.zero_add] at h

variable [AddCommGroup S] (val : (Fin w → β) → S)

/-- The sum of the first `n` words of a string. -/
def sumWords : ℕ → List β → S
  | 0, _ => 0
  | n + 1, bs => val (pad bs) + sumWords n (bs.drop w)

lemma sumWords_add (m n : ℕ) (bs : List β) :
    sumWords val (m + n) bs = sumWords val m bs + sumWords val n (bs.drop (m * w)) := by
  induction m generalizing bs with
  | zero => rw [Nat.zero_add, Nat.zero_mul, List.drop_zero, sumWords, zero_add]
  | succ m ih =>
      have hskip : w + m * w = (m + 1) * w := by ring
      rw [Nat.succ_add, sumWords, ih, sumWords, add_assoc, List.drop_drop, hskip]

/-- Words that lie in the first of two strings. -/
lemma sumWords_append_left {n : ℕ} {as : List β} (bs : List β) (h : n * w ≤ as.length) :
    sumWords val n (as ++ bs) = sumWords val n as := by
  induction n generalizing as with
  | zero => rfl
  | succ n ih =>
      have hlen : (n + 1) * w = n * w + w := by ring
      rw [sumWords, sumWords, pad_append_of_le bs (by omega),
        List.drop_append_of_le_length (by omega), ih (by rw [List.length_drop]; omega)]

/-- The sum of the words of a string, the last one padded. -/
def wordSum (bs : List β) : S := sumWords val ((bs.length + (w - 1)) / w) bs

variable {val}

lemma wordSum_nil : wordSum val ([] : List β) = 0 := by
  rcases Nat.eq_zero_or_pos w with rfl | hw
  · rw [wordSum, Nat.div_zero, sumWords]
  · rw [wordSum, List.length_nil, Nat.zero_add, Nat.div_eq_of_lt (by omega), sumWords]

/-- A string that is not longer than a word. -/
lemma wordSum_of_length_le (hval : val 0 = 0) {bs : List β} (h : bs.length ≤ w) :
    wordSum val bs = val (pad bs) := by
  cases bs with
  | nil => rw [wordSum_nil, pad_nil, hval]
  | cons b bs =>
      have hone : ((b :: bs).length + (w - 1)) / w = 1 := by
        rw [List.length_cons] at h ⊢
        refine Nat.div_eq_of_lt_le ?_ ?_ <;> omega
      rw [wordSum, hone, sumWords, sumWords, add_zero]

/-- Whole words in front of a string. -/
lemma wordSum_append {k : ℕ} (hw : 0 < w) {as : List β} (bs : List β) (h : as.length = k * w) :
    wordSum val (as ++ bs) = sumWords val k as + wordSum val bs := by
  have hcount : ((as ++ bs).length + (w - 1)) / w = k + (bs.length + (w - 1)) / w := by
    rw [List.length_append, h, Nat.add_assoc, Nat.add_comm (k * w), Nat.add_mul_div_right _ _ hw,
      Nat.add_comm]
  rw [wordSum, hcount, sumWords_add, sumWords_append_left val bs (by omega), ← h, List.drop_left]
  rfl

/-! ### Pieces -/

/-- A word of which the first `len` cells have been given, and count already. -/
structure Carry (w : ℕ) (β : Type*) where
  word : Fin w → β
  len : ℕ

/-- The string `p`, shorter than a word, is left. -/
def Carry.of (p : List β) : Carry w β := ⟨pad p, p.length⟩

/-- No word has been begun. -/
def Carry.start : Carry w β := ⟨0, 0⟩

@[simp] lemma Carry.of_nil : (Carry.of [] : Carry w β) = Carry.start := by
  rw [Carry.of, pad_nil]
  rfl

variable (val)

/-- The piece `bs` arrives: by how much the sum grows, and which word is unfinished then. The
growth is a difference of words because the unfinished word counts already. -/
def feed (c : Carry w β) (bs : List β) : S × Carry w β :=
  if c.len = 0 then (wordSum val bs, Carry.of (rest w bs))
  else if bs.length < w - c.len then
    (val (put c.word c.len bs) - val c.word, ⟨put c.word c.len bs, c.len + bs.length⟩)
  else
    (val (put c.word c.len bs) - val c.word + wordSum val (bs.drop (w - c.len)),
      Carry.of (rest w (bs.drop (w - c.len))))

variable {val}

/-- What a piece does when the unfinished word is a string with zeros behind it. -/
lemma feed_of (hval : val 0 = 0) (hw : 0 < w) {p : List β} (hp : p.length < w) (bs : List β) :
    feed val (Carry.of p) bs
      = (wordSum val (p ++ bs) - val (pad p), Carry.of (rest w (p ++ bs))) := by
  unfold feed
  show (if p.length = 0 then _ else _) = _
  split_ifs with hzero hshort
  · rw [List.length_eq_zero_iff.mp hzero, List.nil_append, pad_nil, hval, sub_zero]
  · have hlt : (p ++ bs).length < w := by
      change bs.length < w - p.length at hshort
      rw [List.length_append]
      omega
    rw [wordSum_of_length_le hval hlt.le, rest_of_length_lt hlt, Carry.of, put_pad, Carry.of,
      List.length_append]
  · change ¬ bs.length < w - p.length at hshort
    have hsplit : p ++ bs = (p ++ bs.take (w - p.length)) ++ bs.drop (w - p.length) := by
      rw [List.append_assoc, List.take_append_drop]
    have hlen : (p ++ bs.take (w - p.length)).length = 1 * w := by
      rw [List.length_append, List.length_take]
      omega
    rw [hsplit, wordSum_append hw _ hlen, rest_append hw _ hlen, sumWords, sumWords, add_zero,
      ← pad_append_of_le (bs.drop (w - p.length)) (by omega), ← hsplit, Carry.of, put_pad]
    congr 1
    abel

/-- What a piece does behind whole words and the string `p`. -/
lemma feed_append_start (hval : val 0 = 0) (hw : 0 < w) (as bs : List β) :
    (wordSum val (as ++ bs), (Carry.of (rest w (as ++ bs)) : Carry w β))
      = (wordSum val as + (feed val (Carry.of (rest w as)) bs).1,
          (feed val (Carry.of (rest w as)) bs).2) := by
  have hrest : (rest w as).length < w := by
    rw [length_rest]
    exact Nat.mod_lt _ hw
  have hwhole : (as.take (as.length / w * w)).length = as.length / w * w := by
    rw [List.length_take, Nat.min_eq_left (Nat.div_mul_le_self _ _)]
  have hsplit : as = as.take (as.length / w * w) ++ rest w as := (List.take_append_drop _ _).symm
  have hsum : wordSum val as
      = sumWords val (as.length / w) (as.take (as.length / w * w)) + val (pad (rest w as)) := by
    conv_lhs => rw [hsplit]
    rw [wordSum_append hw _ hwhole, wordSum_of_length_le hval hrest.le]
  have htotal : wordSum val (as ++ bs)
      = sumWords val (as.length / w) (as.take (as.length / w * w))
        + wordSum val (rest w as ++ bs) := by
    conv_lhs => rw [hsplit, List.append_assoc]
    rw [wordSum_append hw _ hwhole]
  have hleft : rest w (as ++ bs) = rest w (rest w as ++ bs) := by
    conv_lhs => rw [hsplit, List.append_assoc]
    rw [rest_append hw _ hwhole]
  rw [feed_of hval hw hrest, htotal, hleft, hsum]
  dsimp only
  congr 1
  abel

/-- **Two pieces are as good as one.** -/
theorem feed_append (hval : val 0 = 0) (hw : 0 < w) {c : Carry w β} (hc : c.len < w)
    (as bs : List β) :
    feed val c (as ++ bs)
      = ((feed val c as).1 + (feed val (feed val c as).2 bs).1,
          (feed val (feed val c as).2 bs).2) := by
  by_cases hzero : c.len = 0
  · simp only [feed, if_pos hzero]
    exact feed_append_start hval hw as bs
  by_cases has : as.length < w - c.len
  · have hfirst : feed val c as
        = (val (put c.word c.len as) - val c.word, ⟨put c.word c.len as, c.len + as.length⟩) := by
      rw [feed, if_neg hzero, if_pos has]
    rw [hfirst]
    have hpos : ¬ c.len + as.length = 0 := by omega
    by_cases hbs : (as ++ bs).length < w - c.len
    · have hbs' : bs.length < w - (c.len + as.length) := by
        rw [List.length_append] at hbs
        omega
      simp only [feed, if_neg hzero, if_neg hpos, if_pos hbs, if_pos hbs', put_put]
      rw [List.length_append, Nat.add_assoc]
      congr 1
      abel
    · have hbs' : ¬ bs.length < w - (c.len + as.length) := by
        rw [List.length_append] at hbs
        omega
      have hdrop : (as ++ bs).drop (w - c.len) = bs.drop (w - (c.len + as.length)) := by
        rw [List.drop_append, List.drop_of_length_le (by omega), List.nil_append]
        congr 1
        omega
      simp only [feed, if_neg hzero, if_neg hpos, if_neg hbs, if_neg hbs', put_put, hdrop]
      congr 1
      abel
  · have hlong : ¬ (as ++ bs).length < w - c.len := by
      rw [List.length_append]
      omega
    have hput : put c.word c.len (as ++ bs) = put c.word c.len as :=
      put_append_of_le _ _ _ (by omega)
    have hdrop : (as ++ bs).drop (w - c.len) = as.drop (w - c.len) ++ bs :=
      List.drop_append_of_le_length (by omega)
    have hrest := feed_append_start hval hw (as.drop (w - c.len)) bs
    rw [Prod.mk.injEq] at hrest
    simp only [feed, if_neg hzero, if_neg has, if_neg hlong, hput, hdrop]
    simp only [feed] at hrest
    rw [hrest.1, hrest.2]
    congr 1
    abel

/-! ### Particular pieces -/

lemma wordSum_of_length {n : ℕ} (hw : 0 < w) {bs : List β} (h : bs.length = n * w) :
    wordSum val bs = sumWords val n bs := by
  have hsum : wordSum val (bs ++ []) = sumWords val n bs + wordSum val [] := wordSum_append hw [] h
  rwa [List.append_nil, wordSum_nil, add_zero] at hsum

lemma Carry.of_rest_of_length {n : ℕ} {bs : List β} (h : bs.length = n * w) :
    (Carry.of (rest w bs) : Carry w β) = Carry.start := by
  have hrest : rest w bs = [] := by
    apply List.eq_nil_of_length_eq_zero
    rw [length_rest, h, Nat.mul_mod_left]
  rw [hrest, Carry.of_nil]

/-- Whole words, and no word is unfinished. -/
lemma feed_words {n : ℕ} (hw : 0 < w) {c : Carry w β} (hc : c.len = 0) (bs : List β)
    (h : bs.length = n * w) : feed val c bs = (sumWords val n bs, Carry.start) := by
  rw [feed, if_pos hc, wordSum_of_length hw h, Carry.of_rest_of_length h]

/-- The end of the unfinished word and whole words. -/
lemma feed_fill {n : ℕ} (hval : val 0 = 0) (hw : 0 < w) {c : Carry w β}
    (hc : c.len = 0 → c.word = 0) (as bs : List β) (has : as.length = w - c.len)
    (hbs : bs.length = n * w) :
    feed val c (as ++ bs)
      = (val (put c.word c.len as) - val c.word + sumWords val n bs, Carry.start) := by
  by_cases hzero : c.len = 0
  · rw [hzero, Nat.sub_zero] at has
    have hlen : (as ++ bs).length = (n + 1) * w := by
      rw [List.length_append, has, hbs]
      ring
    rw [feed_words hw hzero _ hlen, sumWords, pad_append_of_le bs has.ge, List.drop_left' has,
      hc hzero, hzero, hval, sub_zero]
    rfl
  · have hlong : ¬ (as ++ bs).length < w - c.len := by
      rw [List.length_append]
      omega
    rw [feed, if_neg hzero, if_neg hlong, put_append_of_le _ _ _ has.ge, ← has, List.drop_left,
      wordSum_of_length hw hbs, Carry.of_rest_of_length hbs]

/-- A piece that is shorter than a word, and no word is unfinished. -/
lemma feed_start (hval : val 0 = 0) {bs : List β} (h : bs.length < w) :
    feed val Carry.start bs = (val (pad bs), ⟨pad bs, bs.length⟩) := by
  have hlen : (Carry.start : Carry w β).len = 0 := rfl
  rw [feed, if_pos hlen, wordSum_of_length_le hval h.le, rest_of_length_lt h]
  rfl

/-- A piece that does not finish the word. -/
lemma feed_extend (hval : val 0 = 0) {c : Carry w β} (hc : c.len = 0 → c.word = 0) (bs : List β)
    (h : bs.length < w - c.len) :
    feed val c bs
      = (val (put c.word c.len bs) - val c.word, ⟨put c.word c.len bs, c.len + bs.length⟩) := by
  by_cases hzero : c.len = 0
  · have hstart : c = Carry.start := by
      cases c
      exact congrArg₂ Carry.mk (hc hzero) hzero
    subst hstart
    rw [feed_start hval h]
    show _ = (val (pad bs) - val 0, Carry.mk (pad bs) (0 + bs.length))
    rw [hval, sub_zero, Nat.zero_add]
  · rw [feed, if_neg hzero, if_pos h]

/-- A word that has not been begun is zero. -/
lemma feed_clear (c : Carry w β) (bs : List β) :
    (feed val c bs).2.len = 0 → (feed val c bs).2.word = 0 := by
  have hof : ∀ p : List β, (Carry.of p : Carry w β).len = 0 → (Carry.of p : Carry w β).word = 0 := by
    intro p hp
    rw [List.length_eq_zero_iff.mp hp, Carry.of_nil]
    rfl
  unfold feed
  split_ifs with hzero hshort
  · exact hof _
  · intro hlen
    change c.len + bs.length = 0 at hlen
    omega
  · exact hof _

lemma feed_nil (hval : val 0 = 0) {c : Carry w β} (hc : c.len < w)
    (hclear : c.len = 0 → c.word = 0) : feed val c [] = (0, c) := by
  have hshort : ([] : List β).length < w - c.len := Nat.sub_pos_of_lt hc
  rw [feed_extend hval hclear [] hshort, put_nil, sub_self]
  rfl

lemma feed_len_lt (hw : 0 < w) {c : Carry w β} (hc : c.len < w) (bs : List β) :
    (feed val c bs).2.len < w := by
  unfold feed
  split_ifs with hzero hshort
  · exact (length_rest bs).trans_lt (Nat.mod_lt _ hw)
  · show c.len + bs.length < w
    omega
  · exact (length_rest _).trans_lt (Nat.mod_lt _ hw)

/-- The pieces `bss`, one after the other. -/
def feedAll (val : (Fin w → β) → S) (c : Carry w β) : List (List β) → S × Carry w β
  | [] => (0, c)
  | bs :: bss =>
      ((feed val c bs).1 + (feedAll val (feed val c bs).2 bss).1,
        (feedAll val (feed val c bs).2 bss).2)

/-- **However a string is cut**, the pieces add up to the string. -/
theorem feedAll_flatten (hval : val 0 = 0) (hw : 0 < w) (bs : List β) (bss : List (List β))
    {c : Carry w β} (hc : c.len < w) :
    feedAll val c (bs :: bss) = feed val c (bs :: bss).flatten := by
  induction bss generalizing c bs with
  | nil => simp [feedAll]
  | cons bs' bss ih =>
      have hlen : (feed val c bs).2.len < w := feed_len_lt hw hc bs
      have hrest := ih bs' hlen
      have hflat : (bs :: bs' :: bss).flatten = bs ++ (bs' :: bss).flatten := List.flatten_cons
      rw [feedAll, hrest, hflat, feed_append hval hw hc]

end Ocoms.WordSum
