import Ocoms.Lib.Greedy

/-!
Weighted items that arrive in segments.

* A receiver takes segments of a stream of items one after the other. It keeps at most a first
  part of one item from one segment to the next: `receive w limit n xs k` takes a segment of `n`
  when `k` of the first of the items `xs` is there. It fails when the segment does not complete
  that item, and when it ends within an item heavier than `limit`.
* `CutOnce` says that the ends of the segments cut every item at most once, and none that is
  heavier than `limit`. `receiveAll_isSome_iff` says that this is what the receiver needs.
-/

namespace Ocoms.Greedy

variable {α : Type*} (w : α → ℕ) (limit : ℕ)

/-- A segment of `n` that starts with a new item. -/
def settle (n : ℕ) (xs : List α) : Option (List α × ℕ) :=
  match rest w n xs with
  | [] => some ([], 0)
  | y :: ys =>
      if n - weight w (fit w n xs) = 0 then some (y :: ys, 0)
      else if limit < w y then none
      else some (y :: ys, n - weight w (fit w n xs))

/-- A segment of `n` when `k` of the first item is there. -/
def receive (n : ℕ) (xs : List α) (k : ℕ) : Option (List α × ℕ) :=
  if k = 0 then settle w limit n xs
  else match xs with
    | [] => none
    | x :: xs => if n < w x - k then none else settle w limit (n - (w x - k)) xs

/-- The segments `ns`, one after the other. -/
def receiveAll : List ℕ → List α → ℕ → Option (List α × ℕ)
  | [], xs, k => some (xs, k)
  | n :: ns, xs, k => (receive w limit n xs k).bind fun r => receiveAll ns r.1 r.2

/-- `k` is a proper part of the first item, which is light enough. -/
def Within (xs : List α) (k : ℕ) : Prop :=
  k = 0 ∨ ∃ y ys, xs = y :: ys ∧ k < w y ∧ w y ≤ limit

/-- The ends of the segments `ns`, behind `k`. -/
def cuts (k : ℕ) (ns : List ℕ) : Set ℕ := {p | ∃ pre, pre <+: ns ∧ p = k + pre.sum}

/-- The ends of the segments cut every item at most once, and none that is too heavy. -/
def CutOnce (xs : List α) (k : ℕ) (ns : List ℕ) : Prop :=
  ∀ pre x post, xs = pre ++ x :: post → ∀ p ∈ cuts k ns, weight w pre < p →
    p < weight w pre + w x → w x ≤ limit ∧
      ∀ p' ∈ cuts k ns, weight w pre < p' → p' < weight w pre + w x → p' = p

variable {w limit}

lemma mem_cuts_self (k : ℕ) (ns : List ℕ) : k ∈ cuts k ns := ⟨[], List.nil_prefix, by simp⟩

lemma mem_cuts_cons {k n p : ℕ} {ns : List ℕ} :
    p ∈ cuts k (n :: ns) ↔ p = k ∨ p ∈ cuts (k + n) ns := by
  constructor
  · rintro ⟨pre, hpre, rfl⟩
    cases pre with
    | nil => exact Or.inl (by simp)
    | cons m pre =>
        obtain ⟨rfl, htail⟩ := List.cons_prefix_cons.mp hpre
        exact Or.inr ⟨pre, htail, by rw [List.sum_cons, Nat.add_assoc]⟩
  · rintro (rfl | ⟨pre, hpre, rfl⟩)
    · exact mem_cuts_self _ _
    · exact ⟨n :: pre, List.cons_prefix_cons.mpr ⟨rfl, hpre⟩, by rw [List.sum_cons, Nat.add_assoc]⟩

lemma mem_cuts_add {a k p : ℕ} {ns : List ℕ} : p ∈ cuts (a + k) ns ↔ ∃ q ∈ cuts k ns, p = a + q := by
  constructor
  · rintro ⟨pre, hpre, rfl⟩
    exact ⟨k + pre.sum, ⟨pre, hpre, rfl⟩, by rw [Nat.add_assoc]⟩
  · rintro ⟨q, ⟨pre, hpre, rfl⟩, rfl⟩
    exact ⟨pre, hpre, by rw [Nat.add_assoc]⟩

/-- The cuts of a stream, behind some of its items. -/
lemma CutOnce.of_append {k : ℕ} {xs ys : List α} {ns : List ℕ}
    (h : CutOnce w limit (xs ++ ys) (k + weight w xs) ns) : CutOnce w limit ys k ns := by
  intro pre x post hys p hp hlt hgt
  have hmem : ∀ q ∈ cuts k ns, weight w xs + q ∈ cuts (k + weight w xs) ns := by
    intro q hq
    rw [Nat.add_comm k]
    exact mem_cuts_add.mpr ⟨q, hq, rfl⟩
  obtain ⟨hlimit, honce⟩ := h (xs ++ pre) x post (by rw [hys, List.append_assoc]) _ (hmem p hp)
    (by rw [weight_append]; omega) (by rw [weight_append]; omega)
  refine ⟨hlimit, fun p' hp' hlt' hgt' => ?_⟩
  have := honce _ (hmem p' hp') (by rw [weight_append]; omega) (by rw [weight_append]; omega)
  omega

/-- The cuts behind the first segment. -/
lemma CutOnce.tail {k n : ℕ} {xs : List α} {ns : List ℕ} (h : CutOnce w limit xs k (n :: ns)) :
    CutOnce w limit xs (k + n) ns := by
  intro pre x post hxs p hp hlt hgt
  obtain ⟨hlimit, honce⟩ := h pre x post hxs p (mem_cuts_cons.mpr (Or.inr hp)) hlt hgt
  exact ⟨hlimit, fun p' hp' => honce p' (mem_cuts_cons.mpr (Or.inr hp'))⟩

/-- The place where the cuts start is within an item that may be cut. -/
lemma CutOnce.within {k : ℕ} {x : α} {xs : List α} {ns : List ℕ}
    (h : CutOnce w limit (x :: xs) k ns) (hk : k < w x) : Within w limit (x :: xs) k := by
  rcases Nat.eq_zero_or_pos k with hzero | hpos
  · exact Or.inl hzero
  · exact Or.inr ⟨x, xs, rfl, hk, (h [] x xs rfl k (mem_cuts_self k ns) (by rwa [weight_nil])
      (by rw [weight_nil]; omega)).1⟩

lemma receive_zero (n : ℕ) (xs : List α) : receive w limit n xs 0 = settle w limit n xs := by
  simp [receive]

lemma receive_cons {k : ℕ} (hk : k ≠ 0) (n : ℕ) (x : α) (xs : List α) :
    receive w limit n (x :: xs) k
      = if n < w x - k then none else settle w limit (n - (w x - k)) xs := by
  simp [receive, hk]

lemma receiveAll_append (ns ms : List ℕ) (xs : List α) (k : ℕ) :
    receiveAll w limit (ns ++ ms) xs k
      = (receiveAll w limit ns xs k).bind fun r => receiveAll w limit ms r.1 r.2 := by
  induction ns generalizing xs k with
  | nil => rfl
  | cons n ns ih =>
      rw [List.cons_append, receiveAll, receiveAll, Option.bind_assoc]
      simp only [ih]

/-- What a segment that starts with a new item does. -/
lemma settle_spec (n : ℕ) (xs : List α) (hn : n ≤ weight w xs) :
    (∃ as xs' k', settle w limit n xs = some (xs', k') ∧ xs = as ++ xs' ∧ weight w as + k' = n ∧
        Within w limit xs' k') ∨
      settle w limit n xs = none ∧ ∃ as y ys, xs = as ++ y :: ys ∧ weight w as < n ∧
        n < weight w as + w y ∧ limit < w y := by
  have hsplit := fit_append_rest w n xs
  have hle := weight_fit_le w n xs
  rw [settle]
  cases hr : rest w n xs with
  | nil =>
      rw [hr, List.append_nil] at hsplit
      refine Or.inl ⟨xs, [], 0, rfl, (List.append_nil _).symm, ?_, Or.inl rfl⟩
      rw [hsplit] at hle
      omega
  | cons y ys =>
      rw [hr] at hsplit
      have hy : n - weight w (fit w n xs) < w y := by
        by_contra hlt
        have hfit := fit_append w (n := n) hle (y :: ys)
        rw [hsplit, fit_cons_of_le w (not_lt.mp hlt)] at hfit
        have hlen := congrArg List.length hfit
        simp at hlen
      by_cases h0 : n - weight w (fit w n xs) = 0
      · exact Or.inl ⟨fit w n xs, y :: ys, 0, if_pos h0, hsplit.symm, by omega, Or.inl rfl⟩
      · by_cases hlim : limit < w y
        · refine Or.inr ⟨?_, fit w n xs, y, ys, hsplit.symm, by omega, by omega, hlim⟩
          simp [h0, hlim]
        · refine Or.inl ⟨fit w n xs, y :: ys, n - weight w (fit w n xs), ?_, hsplit.symm, by omega,
            Or.inr ⟨y, ys, rfl, hy, not_lt.mp hlim⟩⟩
          simp [h0, hlim]

/-- What a segment does: it takes the items `as`, or it fails for one of the two reasons. -/
lemma receive_spec {n k : ℕ} {xs : List α} (hk : Within w limit xs k) (hn : k + n ≤ weight w xs) :
    (∃ as xs' k', receive w limit n xs k = some (xs', k') ∧ xs = as ++ xs' ∧
        weight w as + k' = k + n ∧ Within w limit xs' k' ∧ (0 < k → k < weight w as)) ∨
      receive w limit n xs k = none ∧
        ((0 < k ∧ ∃ x ys, xs = x :: ys ∧ n < w x - k) ∨
          ∃ as y ys, xs = as ++ y :: ys ∧ weight w as < k + n ∧ k + n < weight w as + w y ∧
            limit < w y) := by
  by_cases h0 : k = 0
  · subst h0
    rw [receive_zero]
    rcases settle_spec (w := w) n xs (by omega) with
      ⟨as, xs', k', hs, hxs, hw, hwithin⟩ | ⟨hs, as, y, ys, hxs, hlt, hgt, hlim⟩
    · exact Or.inl ⟨as, xs', k', hs, hxs, by omega, hwithin, by omega⟩
    · exact Or.inr ⟨hs, Or.inr ⟨as, y, ys, hxs, by omega, by omega, hlim⟩⟩
  · obtain h | ⟨y, ys, rfl, hky, hlim⟩ := hk
    · exact absurd h h0
    · rw [receive_cons h0]
      by_cases hlt : n < w y - k
      · exact Or.inr ⟨if_pos hlt, Or.inl ⟨Nat.pos_of_ne_zero h0, y, ys, rfl, hlt⟩⟩
      · rw [weight_cons] at hn
        rw [if_neg hlt]
        rcases settle_spec (w := w) (n - (w y - k)) ys (by omega) with
          ⟨as, xs', k', hs, hxs, hw, hwithin⟩ | ⟨hs, as, y', ys', hxs, hlt', hgt, hlim'⟩
        · refine Or.inl ⟨y :: as, xs', k', hs, by rw [hxs]; rfl, ?_, hwithin, fun _ => ?_⟩
          · rw [weight_cons]
            omega
          · rw [weight_cons]
            omega
        · refine Or.inr ⟨hs, Or.inr ⟨y :: as, y', ys', by rw [hxs]; rfl, ?_, ?_, hlim'⟩⟩
          · rw [weight_cons]
            omega
          · rw [weight_cons]
            omega

/-- The condition behind a segment that is taken. -/
lemma cutOnce_cons_iff {n k k' : ℕ} {as xs' : List α} {ns : List ℕ}
    (hpos : ∀ x ∈ as ++ xs', 0 < w x) (hk : Within w limit (as ++ xs') k)
    (hw : weight w as + k' = k + n) (has : 0 < k → k < weight w as) :
    CutOnce w limit (as ++ xs') k (n :: ns) ↔ CutOnce w limit xs' k' ns := by
  have hcuts : ∀ p, p ∈ cuts k (n :: ns) ↔ p = k ∨ ∃ q ∈ cuts k' ns, p = weight w as + q := by
    intro p
    rw [mem_cuts_cons, ← hw, mem_cuts_add]
  constructor
  · intro h pre x post hxs p hp hlt hgt
    obtain ⟨hlim, honce⟩ := h (as ++ pre) x post (by rw [hxs, List.append_assoc])
      (weight w as + p) ((hcuts _).mpr (Or.inr ⟨p, hp, rfl⟩))
      (by rw [weight_append]; omega) (by rw [weight_append]; omega)
    refine ⟨hlim, fun p' hp' hlt' hgt' => ?_⟩
    have := honce (weight w as + p') ((hcuts _).mpr (Or.inr ⟨p', hp', rfl⟩))
      (by rw [weight_append]; omega) (by rw [weight_append]; omega)
    omega
  · intro h pre x post hxs p hp hlt hgt
    rcases Nat.lt_or_ge (weight w pre) (weight w as) with hin | hout
    · -- the item is in the segment, so the only end that can cut it is `k`
      obtain ⟨mid, has'⟩ : ∃ mid, as = pre ++ x :: mid := by
        rcases List.append_eq_append_iff.mp hxs with ⟨mid, rfl, -⟩ | ⟨mid, has', hmid⟩
        · rw [weight_append] at hin
          omega
        · cases mid with
          | nil =>
              rw [has', List.append_nil] at hin
              exact absurd hin (lt_irrefl _)
          | cons y mid =>
              obtain ⟨rfl, -⟩ := List.cons.inj hmid
              exact ⟨mid, has'⟩
      have hend : weight w pre + w x ≤ weight w as := by
        rw [has', weight_append, weight_cons]
        omega
      have honly : ∀ q ∈ cuts k (n :: ns), q < weight w pre + w x → q = k := by
        intro q hq hqlt
        obtain rfl | ⟨q', -, rfl⟩ := (hcuts q).mp hq
        · rfl
        · omega
      obtain rfl := honly p hp hgt
      refine ⟨?_, fun p' hp' _ hgt' => honly p' hp' hgt'⟩
      obtain rfl | ⟨y, ys, hy, hky, hlim⟩ := hk
      · omega
      · -- `k` is within the first item
        cases pre with
        | nil =>
            obtain ⟨rfl, -⟩ := List.cons.inj (hy.symm.trans hxs)
            exact hlim
        | cons z pre =>
            obtain ⟨rfl, -⟩ := List.cons.inj (hy.symm.trans hxs)
            rw [weight_cons] at hlt
            omega
    · -- the item is behind the segment
      obtain ⟨mid, rfl, hpost⟩ : ∃ mid, pre = as ++ mid ∧ xs' = mid ++ x :: post := by
        rcases List.append_eq_append_iff.mp hxs with hmid | ⟨mid, has', hmid⟩
        · exact hmid
        · cases mid with
          | nil => exact ⟨[], by rw [has']; simp, hmid.symm⟩
          | cons y mid =>
              have hy := hpos y (by rw [has']; simp)
              rw [has', weight_append, weight_cons] at hout
              omega
      rw [weight_append] at hlt hgt ⊢
      have hne : ∀ q, weight w as + weight w mid < q → q ≠ k := by
        intro q hq
        rcases Nat.eq_zero_or_pos k with h0 | h0
        · omega
        · have := has h0
          omega
      obtain rfl | ⟨q, hq, rfl⟩ := (hcuts p).mp hp
      · exact absurd rfl (hne _ hlt)
      · obtain ⟨hlim, honce⟩ := h mid x post hpost q hq (by omega) (by omega)
        refine ⟨hlim, fun p' hp' hlt' hgt' => ?_⟩
        obtain rfl | ⟨q', hq', rfl⟩ := (hcuts p').mp hp'
        · exact absurd rfl (hne _ hlt')
        · rw [honce q' hq' (by omega) (by omega)]

/-- The condition behind a segment that the receiver cannot take. -/
lemma not_cutOnce_cons {n k : ℕ} {xs : List α} {ns : List ℕ} (hn : 0 < n)
    (h : (0 < k ∧ ∃ x ys, xs = x :: ys ∧ n < w x - k) ∨
      ∃ as y ys, xs = as ++ y :: ys ∧ weight w as < k + n ∧ k + n < weight w as + w y ∧
        limit < w y) :
    ¬ CutOnce w limit xs k (n :: ns) := by
  have hnext : k + n ∈ cuts k (n :: ns) := mem_cuts_cons.mpr (Or.inr (mem_cuts_self _ _))
  intro hcut
  rcases h with ⟨hk, x, ys, rfl, hlt⟩ | ⟨as, y, ys, rfl, hlt, hgt, hlim⟩
  · -- the item is cut at `k` and again at `k + n`
    obtain ⟨-, honce⟩ := hcut [] x ys rfl k (mem_cuts_self _ _) (by simpa using hk)
      (by rw [weight_nil]; omega)
    have := honce (k + n) hnext (by rw [weight_nil]; omega) (by rw [weight_nil]; omega)
    omega
  · obtain ⟨hle, -⟩ := hcut as y ys rfl (k + n) hnext hlt hgt
    omega

/-- **The receiver takes all segments exactly if they cut every item at most once**, and none that
is too heavy. -/
theorem receiveAll_isSome_iff {ns : List ℕ} {k : ℕ} {xs : List α} (hpos : ∀ x ∈ xs, 0 < w x)
    (hk : Within w limit xs k) (hns : ∀ n ∈ ns, 0 < n) (hsum : k + ns.sum ≤ weight w xs) :
    (receiveAll w limit ns xs k).isSome ↔ CutOnce w limit xs k ns := by
  induction ns generalizing k xs with
  | nil =>
      simp only [receiveAll, Option.isSome_some, true_iff]
      have hcuts : ∀ q ∈ cuts k [], q = k := by
        rintro q ⟨pre, hpre, rfl⟩
        rw [List.prefix_nil.mp hpre]
        simp
      intro pre x post hxs p hp hlt hgt
      obtain rfl := hcuts p hp
      refine ⟨?_, fun p' hp' _ _ => hcuts p' hp'⟩
      obtain rfl | ⟨y, ys, rfl, hky, hlim⟩ := hk
      · omega
      · cases pre with
        | nil =>
            obtain ⟨rfl, -⟩ := List.cons.inj hxs
            exact hlim
        | cons z pre =>
            obtain ⟨rfl, -⟩ := List.cons.inj hxs
            rw [weight_cons] at hlt
            omega
  | cons n ns ih =>
      rw [List.sum_cons] at hsum
      rw [receiveAll]
      rcases receive_spec (n := n) hk (by omega) with
        ⟨as, xs', k', hr, rfl, hw, hk', has⟩ | ⟨hr, hbad⟩
      · rw [hr, Option.bind_some, cutOnce_cons_iff hpos hk hw has]
        rw [weight_append] at hsum
        have hsum' : k' + ns.sum ≤ weight w xs' := by omega
        exact ih (fun x hx => hpos x (List.mem_append_right _ hx)) hk'
          (fun m hm => hns m (List.mem_cons_of_mem _ hm)) hsum'
      · rw [hr]
        simpa using not_cutOnce_cons (hns n (by simp)) hbad

end Ocoms.Greedy
