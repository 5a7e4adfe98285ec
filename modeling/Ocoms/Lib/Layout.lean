import Mathlib.Tactic

/-!
Byte layouts: lists of addresses, read and written in order.

* `run a n` is the interval of `n` consecutive addresses from `a`; `stride n ext f d` is the
  concatenation of the `n` lists `f d`, `f (d + ext)`, …, with `stride_add` splitting it after
  any number of rounds and `run_mul` reading a dense stride as one run.
* `Spans as lo hi` says that `lo` is the least of the addresses and `hi` one past the greatest;
  `Spans.append` and `Spans.stride` compute both for longer lists.
* `gather m as` reads the cells of the memory `m` at the addresses `as`, in order;
  `scatter m as bs` writes the values `bs` to them, in order.
* `scatter_append` and `gather_append` cut both along a split of the address list,
  `scatter_of_notMem` is the frame rule, and `scatter_gather` is the round trip: values
  gathered along a repetition-free list are found again at the same addresses.
-/

namespace Ocoms

/-- A byte of memory. -/
abbrev Byte := BitVec 8

end Ocoms

namespace Ocoms.Layout

/-! ### Runs and strides -/

/-- The addresses `a, a + 1, …, a + n - 1`. -/
def run (a : ℤ) : ℕ → List ℤ
  | 0 => []
  | n + 1 => a :: run (a + 1) n

@[simp] lemma run_zero (a : ℤ) : run a 0 = [] := rfl

@[simp] lemma length_run (a : ℤ) (n : ℕ) : (run a n).length = n := by
  induction n generalizing a with
  | zero => rfl
  | succ n ih => simp [run, ih]

lemma run_add (a : ℤ) (m n : ℕ) : run a (m + n) = run a m ++ run (a + m) n := by
  induction m generalizing a with
  | zero => simp
  | succ m ih =>
      have h : a + 1 + (m : ℤ) = a + ((m + 1 : ℕ) : ℤ) := by push_cast; ring
      rw [show m + 1 + n = m + n + 1 by omega, run, run, ih, h, List.cons_append]

lemma mem_run {a x : ℤ} {n : ℕ} : x ∈ run a n ↔ a ≤ x ∧ x < a + n := by
  induction n generalizing a with
  | zero => simp only [run_zero, List.not_mem_nil, false_iff]; push_cast; omega
  | succ n ih => rw [run, List.mem_cons, ih]; push_cast; omega

lemma map_add_run (a x : ℤ) (n : ℕ) : (run a n).map (· + x) = run (a + x) n := by
  induction n generalizing a with
  | zero => rfl
  | succ n ih =>
      rw [run, run, List.map_cons, ih]
      congr 2; ring

lemma take_run (a : ℤ) {m n : ℕ} (h : m ≤ n) : (run a n).take m = run a m := by
  obtain ⟨k, rfl⟩ := Nat.exists_eq_add_of_le h
  rw [run_add, List.take_left' (length_run a m)]

lemma drop_run (a : ℤ) {m n : ℕ} (h : m ≤ n) : (run a n).drop m = run (a + m) (n - m) := by
  obtain ⟨k, rfl⟩ := Nat.exists_eq_add_of_le h
  rw [run_add, List.drop_left' (length_run a m), Nat.add_sub_cancel_left]

section Stride

variable {α β : Type*}

/-- `f d ++ f (d + ext) ++ ⋯`, `n` rounds. -/
def stride (n : ℕ) (ext : ℤ) (f : ℤ → List α) (d : ℤ) : List α :=
  match n with
  | 0 => []
  | n + 1 => f d ++ stride n ext f (d + ext)

@[simp] lemma stride_zero (ext : ℤ) (f : ℤ → List α) (d : ℤ) : stride 0 ext f d = [] := rfl

lemma stride_succ (n : ℕ) (ext : ℤ) (f : ℤ → List α) (d : ℤ) :
    stride (n + 1) ext f d = f d ++ stride n ext f (d + ext) := rfl

@[simp] lemma stride_one (ext : ℤ) (f : ℤ → List α) (d : ℤ) : stride 1 ext f d = f d := by
  rw [stride_succ, stride_zero, List.append_nil]

lemma stride_add (m n : ℕ) (ext : ℤ) (f : ℤ → List α) (d : ℤ) :
    stride (m + n) ext f d = stride m ext f d ++ stride n ext f (d + m * ext) := by
  induction m generalizing d with
  | zero => simp
  | succ m ih =>
      have h : d + ext + (m : ℤ) * ext = d + ((m + 1 : ℕ) : ℤ) * ext := by push_cast; ring
      rw [Nat.succ_add, stride_succ, stride_succ, ih, h, List.append_assoc]

/-- Rounds of `m` rounds each. -/
lemma stride_mul (n m : ℕ) (ext : ℤ) (f : ℤ → List α) (d : ℤ) :
    stride (n * m) ext f d = stride n (m * ext) (fun x => stride m ext f x) d := by
  induction n generalizing d with
  | zero => rw [Nat.zero_mul]; rfl
  | succ n ih => rw [Nat.succ_mul, Nat.add_comm, stride_add, stride_succ, ih]

/-- A stride split after `m` of its `n` rounds. -/
lemma stride_split {m n : ℕ} (h : m ≤ n) (ext : ℤ) (f : ℤ → List α) (d : ℤ) :
    stride n ext f d = stride m ext f d ++ stride (n - m) ext f (d + m * ext) := by
  rw [← stride_add, Nat.add_sub_cancel' h]

lemma length_stride {k : ℕ} (n : ℕ) (ext : ℤ) (f : ℤ → List α) (d : ℤ)
    (hf : ∀ x, (f x).length = k) : (stride n ext f d).length = n * k := by
  induction n generalizing d with
  | zero => simp
  | succ n ih => rw [stride_succ, List.length_append, hf, ih]; ring

lemma stride_congr (n : ℕ) (ext : ℤ) {f g : ℤ → List α} (d : ℤ) (h : ∀ x, f x = g x) :
    stride n ext f d = stride n ext g d := by rw [show f = g from funext h]

lemma flatMap_stride (n : ℕ) (ext : ℤ) (f : ℤ → List α) (g : α → List β) (d : ℤ) :
    (stride n ext f d).flatMap g = stride n ext (fun x => (f x).flatMap g) d := by
  induction n generalizing d with
  | zero => rfl
  | succ n ih => rw [stride_succ, stride_succ, List.flatMap_append, ih]

lemma map_stride (n : ℕ) (ext : ℤ) (f : ℤ → List α) (g : α → β) (d : ℤ) :
    (stride n ext f d).map g = stride n ext (fun x => (f x).map g) d := by
  induction n generalizing d with
  | zero => rfl
  | succ n ih => rw [stride_succ, stride_succ, List.map_append, ih]

/-- Moving the start of a stride into its rounds. -/
lemma stride_add_right (n : ℕ) (ext x : ℤ) (f : ℤ → List α) (d : ℤ) :
    stride n ext f (d + x) = stride n ext (fun y => f (y + x)) d := by
  induction n generalizing d with
  | zero => rfl
  | succ n ih => rw [stride_succ, stride_succ, ← ih, add_right_comm]

/-- Moving the start of a stride whose rounds move with their start. -/
lemma stride_shift (n : ℕ) (ext x : ℤ) {f : ℤ → List α} {g : α → α} (d : ℤ)
    (hf : ∀ y, f (y + x) = (f y).map g) : stride n ext f (d + x) = (stride n ext f d).map g := by
  rw [stride_add_right, map_stride]
  exact stride_congr _ _ _ hf

lemma mem_stride {n : ℕ} {ext : ℤ} {f : ℤ → List α} {d : ℤ} {x : α} :
    x ∈ stride n ext f d ↔ ∃ k < n, x ∈ f (d + k * ext) := by
  induction n generalizing d with
  | zero => simp
  | succ n ih =>
      rw [stride_succ, List.mem_append, ih]
      constructor
      · rintro (h | ⟨k, hk, h⟩)
        · exact ⟨0, by omega, by simpa using h⟩
        · refine ⟨k + 1, by omega, ?_⟩
          have : d + ext + (k : ℤ) * ext = d + ((k + 1 : ℕ) : ℤ) * ext := by push_cast; ring
          rwa [← this]
      · rintro ⟨k, hk, h⟩
        cases k with
        | zero => exact Or.inl (by simpa using h)
        | succ k =>
            refine Or.inr ⟨k, by omega, ?_⟩
            have : d + ext + (k : ℤ) * ext = d + ((k + 1 : ℕ) : ℤ) * ext := by push_cast; ring
            rwa [this]

end Stride

/-- A dense stride of runs is one run. -/
lemma stride_run (n k : ℕ) (d : ℤ) : stride n k (fun x => run x k) d = run d (n * k) := by
  induction n generalizing d with
  | zero => simp
  | succ n ih =>
      have h : (n + 1) * k = k + n * k := by ring
      rw [stride_succ, ih, h, run_add]

/-! ### The first addresses of runs that are apart -/

/-- The first `n` addresses of runs of `len`, `ext` apart from `a` on. -/
def runsUpTo (len : ℕ) (ext a : ℤ) (n : ℕ) : List ℤ :=
  stride (n / len) ext (fun x => run x len) a ++ run (a + (n / len : ℕ) * ext) (n % len)

section Runs

variable {len : ℕ} (ext a : ℤ)

lemma length_runsUpTo (n : ℕ) : (runsUpTo len ext a n).length = n := by
  rw [runsUpTo, List.length_append, length_stride _ _ _ _ fun x => length_run x len, length_run]
  exact Nat.div_add_mod' n len

/-- Whole runs, and a part of the next one. -/
lemma runsUpTo_mul_add (hlen : 0 < len) (k : ℕ) {r : ℕ} (hr : r ≤ len) :
    runsUpTo len ext a (k * len + r)
      = stride k ext (fun x => run x len) a ++ run (a + k * ext) r := by
  rcases Nat.lt_or_eq_of_le hr with hr | rfl
  · have hdiv : (k * len + r) / len = k := by
      rw [Nat.add_comm, Nat.add_mul_div_right _ _ hlen, Nat.div_eq_of_lt hr, Nat.zero_add]
    have hmod : (k * len + r) % len = r := by
      rw [Nat.mul_add_mod_self_right, Nat.mod_eq_of_lt hr]
    rw [runsUpTo, hdiv, hmod]
  · have hsucc : k * r + r = (k + 1) * r := (Nat.succ_mul k r).symm
    rw [hsucc, runsUpTo, Nat.mul_div_cancel _ hlen, Nat.mul_mod_left, run_zero, List.append_nil,
      stride_add, stride_one]

lemma runsUpTo_mul (hlen : 0 < len) (k : ℕ) :
    runsUpTo len ext a (k * len) = stride k ext (fun x => run x len) a := by
  have h := runsUpTo_mul_add ext a hlen k (Nat.zero_le len)
  rwa [Nat.add_zero, run_zero, List.append_nil] at h

/-- The rest of a run. -/
lemma runsUpTo_rest (hlen : 0 < len) (k : ℕ) {r : ℕ} (hr : r ≤ len) :
    runsUpTo len ext a (k * len + r) ++ run (a + k * ext + r) (len - r)
      = runsUpTo len ext a ((k + 1) * len) := by
  rw [runsUpTo_mul_add ext a hlen k hr, runsUpTo_mul ext a hlen, List.append_assoc, ← run_add,
    Nat.add_sub_cancel' hr, stride_add, stride_one]

/-- Whole runs, and a part of the next one, behind whole runs. -/
lemma runsUpTo_append (hlen : 0 < len) (k c : ℕ) {p : ℕ} (hp : p ≤ len) :
    runsUpTo len ext a (k * len) ++ (stride c ext (fun x => run x len) (a + k * ext) ++
        run (a + k * ext + c * ext) p)
      = runsUpTo len ext a ((k + c) * len + p) := by
  have hstart : a + (k : ℤ) * ext + c * ext = a + ((k + c : ℕ) : ℤ) * ext := by push_cast; ring
  rw [runsUpTo_mul_add ext a hlen (k + c) hp, runsUpTo_mul ext a hlen, stride_add,
    List.append_assoc, hstart]

/-- The first addresses of more runs. -/
lemma runsUpTo_prefix (hlen : 0 < len) {n m : ℕ} (h : n ≤ m * len) :
    runsUpTo len ext a n <+: stride m ext (fun x => run x len) a := by
  have hsplit : runsUpTo len ext a n
      = stride (n / len) ext (fun x => run x len) a ++ run (a + (n / len : ℕ) * ext) (n % len) := rfl
  have hle : n / len ≤ m := (Nat.div_le_iff_le_mul_add_pred hlen).mpr (by rw [Nat.mul_comm]; omega)
  rcases Nat.lt_or_eq_of_le hle with hlt | heq
  · obtain ⟨j, rfl⟩ := Nat.exists_eq_add_of_lt hlt
    have hm : n / len + j + 1 = n / len + (1 + j) := by omega
    rw [hsplit, hm, stride_add, stride_add 1 j, stride_one, List.prefix_append_right_inj]
    refine List.IsPrefix.trans ?_ (List.prefix_append _ _)
    rw [← take_run _ (Nat.mod_lt n hlen).le]
    exact List.take_prefix _ _
  · have hmod : n % len = 0 := by
      have := Nat.div_add_mod' n len
      rw [heq] at this
      omega
    rw [hsplit, hmod, run_zero, List.append_nil, heq]

end Runs

/-! ### Bounds of an address list -/

/-- `lo` is the least of the addresses `as`, `hi` one past the greatest. -/
structure Spans (as : List ℤ) (lo hi : ℤ) : Prop where
  least : lo ∈ as
  greatest : hi - 1 ∈ as
  within : ∀ x ∈ as, lo ≤ x ∧ x < hi

lemma Spans.ne_nil {as : List ℤ} {lo hi : ℤ} (h : Spans as lo hi) : as ≠ [] :=
  List.ne_nil_of_mem h.least

lemma Spans.lt {as : List ℤ} {lo hi : ℤ} (h : Spans as lo hi) : lo < hi :=
  (h.within lo h.least).2

lemma spans_run (a : ℤ) {n : ℕ} (hn : 0 < n) : Spans (run a n) a (a + n) where
  least := mem_run.mpr ⟨le_rfl, by omega⟩
  greatest := mem_run.mpr ⟨by omega, by omega⟩
  within := fun _ hx => mem_run.mp hx

lemma Spans.run_eq {a lo hi : ℤ} {n : ℕ} (h : Spans (run a n) lo hi) :
    a = lo ∧ a + n = hi := by
  have hn : 0 < n := by
    rcases Nat.eq_zero_or_pos n with rfl | hn
    · exact absurd rfl h.ne_nil
    · exact hn
  have h₁ := mem_run.mp h.least
  have h₂ := mem_run.mp h.greatest
  have h₃ := h.within a (mem_run.mpr ⟨le_rfl, by omega⟩)
  have h₄ := h.within (a + n - 1) (mem_run.mpr ⟨by omega, by omega⟩)
  omega

lemma Spans.append {as bs : List ℤ} {lo hi lo' hi' : ℤ} (h : Spans as lo hi)
    (h' : Spans bs lo' hi') : Spans (as ++ bs) (min lo lo') (max hi hi') where
  least := by
    rcases min_choice lo lo' with hm | hm <;> rw [hm, List.mem_append]
    · exact Or.inl h.least
    · exact Or.inr h'.least
  greatest := by
    rcases max_choice hi hi' with hm | hm <;> rw [hm, List.mem_append]
    · exact Or.inl h.greatest
    · exact Or.inr h'.greatest
  within := fun x hx => by
    rcases List.mem_append.mp hx with hx | hx
    · have := h.within x hx
      omega
    · have := h'.within x hx
      omega

lemma Spans.shift {as : List ℤ} {lo hi : ℤ} (h : Spans as lo hi) (x : ℤ) :
    Spans (as.map (· + x)) (lo + x) (hi + x) where
  least := List.mem_map.mpr ⟨lo, h.least, rfl⟩
  greatest := List.mem_map.mpr ⟨hi - 1, h.greatest, by ring⟩
  within := fun y hy => by
    obtain ⟨a, ha, rfl⟩ := List.mem_map.mp hy
    have := h.within a ha
    omega

/-- The bounds of the rounds of a stride: the first and the last round have the extreme ones. -/
lemma Spans.stride {as : List ℤ} {lo hi : ℤ} (h : Spans as lo hi) {n : ℕ} (hn : 0 < n)
    (ext d : ℤ) :
    Spans (stride n ext (fun x => as.map (· + x)) d) (min d (d + ext * (n - 1)) + lo)
      (max d (d + ext * (n - 1)) + hi) := by
  have hround : ∀ k < n, d + k * ext ∈ Set.Icc (min d (d + ext * (n - 1)))
      (max d (d + ext * (n - 1))) := by
    intro k hk
    have hk' : (k : ℤ) ≤ n - 1 := by omega
    rw [Set.mem_Icc, min_le_iff, le_max_iff]
    rcases le_total 0 ext with he | he
    · have hmul := mul_le_mul_of_nonneg_left hk' he
      have hnonneg := mul_nonneg he (Int.natCast_nonneg k)
      rw [mul_comm ext k] at hmul hnonneg
      constructor <;> omega
    · have hmul := mul_le_mul_of_nonpos_left hk' he
      have hnonpos := mul_nonpos_of_nonpos_of_nonneg he (Int.natCast_nonneg k)
      rw [mul_comm ext k] at hmul hnonpos
      constructor <;> omega
  have hmem : ∀ k < n, ∀ a ∈ as, a + (d + k * ext)
      ∈ Layout.stride n ext (fun x => as.map (· + x)) d := fun k hk a ha =>
    mem_stride.mpr ⟨k, hk, List.mem_map.mpr ⟨a, ha, rfl⟩⟩
  -- both extremes are the start of a round
  have hends : ∀ a ∈ as, ∀ e, e = d ∨ e = d + ext * (n - 1) →
      e + a ∈ Layout.stride n ext (fun x => as.map (· + x)) d := by
    rintro a ha e (rfl | rfl)
    · have := hmem 0 hn a ha
      simpa [add_comm] using this
    · have := hmem (n - 1) (by omega) a ha
      rwa [Nat.cast_sub hn, Nat.cast_one, mul_comm _ ext, add_comm] at this
  refine ⟨hends lo h.least _ (min_choice _ _), ?_, fun x hx => ?_⟩
  · have := hends (hi - 1) h.greatest _ (max_choice d (d + ext * (n - 1)))
    rwa [← add_sub_assoc] at this
  · obtain ⟨k, hk, hx⟩ := mem_stride.mp hx
    obtain ⟨a, ha, rfl⟩ := List.mem_map.mp hx
    have ha := h.within a ha
    obtain ⟨hlo, hhi⟩ := Set.mem_Icc.mp (hround k hk)
    omega

/-! ### Reading and writing along an address list -/

section Memory

variable {α : Type*}

/-- The cells of `m` at the addresses `as`, in order. -/
def gather (m : ℤ → α) (as : List ℤ) : List α := as.map m

@[simp] lemma gather_nil (m : ℤ → α) : gather m [] = [] := rfl

@[simp] lemma length_gather (m : ℤ → α) (as : List ℤ) : (gather m as).length = as.length := by
  simp [gather]

lemma gather_append (m : ℤ → α) (as bs : List ℤ) :
    gather m (as ++ bs) = gather m as ++ gather m bs := by simp [gather]

lemma getElem?_run (a : ℤ) (n i : ℕ) : (run a n)[i]? = if i < n then some (a + i) else none := by
  induction n generalizing a i with
  | zero => simp
  | succ n ih =>
      cases i with
      | zero => simp [run]
      | succ i =>
          rw [run, List.getElem?_cons_succ, ih]
          simp only [Nat.add_lt_add_iff_right]
          split_ifs
          · congr 1; push_cast; ring
          · rfl

lemma getElem?_gather_run (m : ℤ → α) (a : ℤ) (n i : ℕ) :
    (gather m (run a n))[i]? = if i < n then some (m (a + i)) else none := by
  rw [gather, List.getElem?_map, getElem?_run]
  split_ifs <;> rfl

/-- The memory after writing the values `bs` to the addresses `as`, in order. -/
def scatter (m : ℤ → α) : List ℤ → List α → ℤ → α
  | a :: as, b :: bs => scatter (Function.update m a b) as bs
  | _, _ => m

@[simp] lemma scatter_nil (m : ℤ → α) (bs : List α) : scatter m [] bs = m := by
  cases bs <;> rfl

@[simp] lemma scatter_nil_right (m : ℤ → α) (as : List ℤ) : scatter m as [] = m := by
  cases as <;> rfl

lemma scatter_append (m : ℤ → α) {as₁ as₂ : List ℤ} {bs₁ bs₂ : List α}
    (h : as₁.length = bs₁.length) :
    scatter m (as₁ ++ as₂) (bs₁ ++ bs₂) = scatter (scatter m as₁ bs₁) as₂ bs₂ := by
  induction as₁ generalizing m bs₁ with
  | nil =>
      have : bs₁ = [] := List.length_eq_zero_iff.mp h.symm
      simp [this]
  | cons a as ih =>
      cases bs₁ with
      | nil => simp at h
      | cons b bs =>
          simp only [List.cons_append, scatter]
          exact ih _ (by simpa using h)

/-- Writing changes no other address. -/
lemma scatter_of_notMem (m : ℤ → α) {as : List ℤ} (bs : List α) {x : ℤ} (hx : x ∉ as) :
    scatter m as bs x = m x := by
  induction as generalizing m bs with
  | nil => simp
  | cons a as ih =>
      cases bs with
      | nil => simp
      | cons b bs =>
          simp only [List.mem_cons, not_or] at hx
          rw [scatter, ih _ _ hx.2, Function.update_of_ne hx.1]

/-- An address keeps what is written to it last. -/
lemma getElem?_scatter (m : ℤ → α) {as : List ℤ} {bs : List α} (hlen : as.length = bs.length)
    {i : ℕ} {a : ℤ} (hi : as[i]? = some a) (hlast : a ∉ as.drop (i + 1)) :
    bs[i]? = some (scatter m as bs a) := by
  induction as generalizing m bs i with
  | nil => cases hi
  | cons a' as ih =>
      cases bs with
      | nil => cases hlen
      | cons b bs =>
          have hlen' : as.length = bs.length := Nat.succ_injective hlen
          cases i with
          | zero =>
              obtain rfl : a' = a := Option.some.inj hi
              have hkeep : scatter (Function.update m a' b) as bs a' = Function.update m a' b a' :=
                scatter_of_notMem _ _ hlast
              rw [scatter, hkeep, Function.update_self]
              rfl
          | succ i => exact ih _ hlen' hi hlast

/-- Writing a run, address by address. -/
lemma scatter_run_apply (m : ℤ → α) (a : ℤ) (bs : List α) (x : ℤ) :
    scatter m (run a bs.length) bs x
      = if a ≤ x then bs[(x - a).toNat]?.getD (m x) else m x := by
  induction bs generalizing m a with
  | nil => simp
  | cons b bs ih =>
      rw [List.length_cons, run, scatter, ih]
      rcases lt_trichotomy x a with h | rfl | h
      · rw [if_neg (by omega), if_neg (by omega), Function.update_of_ne h.ne]
      · simp
      · have hidx : (x - a).toNat = (x - (a + 1)).toNat + 1 := by omega
        rw [if_pos (by omega), if_pos h.le, hidx, List.getElem?_cons_succ,
          Function.update_of_ne h.ne']

/-- A run reads what was written to it. -/
lemma gather_scatter_run (m : ℤ → α) (a : ℤ) {bs : List α} {n : ℕ} (hlen : bs.length = n) :
    gather (scatter m (run a n) bs) (run a n) = bs := by
  subst hlen
  refine List.ext_getElem? fun i => ?_
  rw [getElem?_gather_run, scatter_run_apply, if_pos (show a ≤ a + (i : ℤ) by omega),
    add_sub_cancel_left, Int.toNat_natCast]
  split_ifs with hi
  · rw [List.getElem?_eq_getElem hi, Option.getD_some]
  · rw [List.getElem?_eq_none (by omega)]

/-- Copying a run, address by address. -/
lemma scatter_gather_run_apply (m src : ℤ → α) (a b : ℤ) (n : ℕ) (x : ℤ) :
    scatter m (run a n) (gather src (run b n)) x
      = if a ≤ x ∧ x < a + n then src (b + (x - a)) else m x := by
  have h := scatter_run_apply m a (gather src (run b n)) x
  rw [length_gather, length_run, getElem?_gather_run] at h
  rw [h]
  split_ifs with hle hlt hin hin hin
  · rw [Int.toNat_of_nonneg (by omega)]
    rfl
  · omega
  · omega
  · rfl
  · omega
  · rfl

/-- What was gathered from `src` along a repetition-free list is found again after the
scatter. -/
lemma scatter_gather (m src : ℤ → α) {as : List ℤ} (h : as.Nodup) {x : ℤ} (hx : x ∈ as) :
    scatter m as (gather src as) x = src x := by
  induction as generalizing m with
  | nil => simp at hx
  | cons a as ih =>
      rw [List.nodup_cons] at h
      simp only [gather, List.map_cons, scatter]
      rcases List.mem_cons.mp hx with rfl | hx'
      · rw [scatter_of_notMem _ _ h.1, Function.update_self]
      · exact ih _ h.2 hx'

end Memory

end Ocoms.Layout
