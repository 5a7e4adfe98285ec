import Ocoms.Lib.Layout

/-!
Moving pieces of a memory, one after the other.

* A `Piece` is a first address and a length. `Piece.move δ p m` is the memory `m` after the cells
  of `p` have been moved `δ` addresses on, all at once; `moves δ ps m` moves the pieces `ps` one
  after the other.
* `chunks c a n` are the pieces of length `c` that a run of `n` addresses is cut into.
* `origin δ ps x` is the address whose old content ends up at `x` (`moves_apply`): it is `x` itself
  exactly if no piece is moved over `x` (`origin_eq_self_iff`).
* `FirstHand δ ps a` says that the last piece with the address `a` is moved before anything has
  been moved over `a`. For `δ ≠ 0` this is what it takes for the old content of `a` to end up at
  `a + δ`, whatever the memory holds (`moves_add_iff`).
-/

namespace Ocoms.Layout

/-- The `len` addresses from `start` on. -/
structure Piece where
  start : ℤ
  len : ℕ
  deriving DecidableEq, Repr

namespace Piece

/-- The address belongs to the piece. -/
def Holds (p : Piece) (a : ℤ) : Prop := p.start ≤ a ∧ a < p.start + p.len

instance (p : Piece) (a : ℤ) : Decidable (p.Holds a) := inferInstanceAs (Decidable (_ ∧ _))

/-- Its addresses. -/
def addresses (p : Piece) : List ℤ := run p.start p.len

lemma mem_addresses {p : Piece} {a : ℤ} : a ∈ p.addresses ↔ p.Holds a := mem_run

/-- The memory after the cells of the piece have been moved `δ` addresses on. -/
def move {α : Type*} (δ : ℤ) (p : Piece) (m : ℤ → α) : ℤ → α := fun x =>
  if p.Holds (x - δ) then m (x - δ) else m x

end Piece

/-- The addresses of the pieces, in order. -/
def pieceBytes (ps : List Piece) : List ℤ := ps.flatMap Piece.addresses

lemma mem_pieceBytes {ps : List Piece} {a : ℤ} : a ∈ pieceBytes ps ↔ ∃ p ∈ ps, p.Holds a := by
  simp only [pieceBytes, List.mem_flatMap, Piece.mem_addresses]

@[simp] lemma pieceBytes_nil : pieceBytes [] = [] := rfl

@[simp] lemma pieceBytes_append (ps qs : List Piece) :
    pieceBytes (ps ++ qs) = pieceBytes ps ++ pieceBytes qs := List.flatMap_append

/-- A run of `n` cut into pieces of `c`. -/
def chunks (c : ℕ) (a : ℤ) (n : ℕ) : List Piece :=
  stride (n / c) c (fun x => [⟨x, c⟩]) a
    ++ if n % c = 0 then [] else [⟨a + (n / c : ℕ) * c, n % c⟩]

/-- The addresses of pieces of one length. -/
lemma pieceBytes_stride (n len : ℕ) (ext a : ℤ) :
    pieceBytes (stride n ext (fun x => [⟨x, len⟩]) a) = stride n ext (fun x => run x len) a := by
  rw [pieceBytes, flatMap_stride]
  exact stride_congr _ _ _ fun x => by simp [Piece.addresses]

lemma pieceBytes_chunks (c : ℕ) (a : ℤ) (n : ℕ) : pieceBytes (chunks c a n) = run a n := by
  have hlast : pieceBytes (if n % c = 0 then [] else [⟨a + (n / c : ℕ) * c, n % c⟩])
      = run (a + (n / c : ℕ) * c) (n % c) := by
    split_ifs with h
    · rw [h]
      rfl
    · simp [pieceBytes, Piece.addresses]
  have hmul : a + ((n / c : ℕ) : ℤ) * c = a + (n / c * c : ℕ) := by push_cast; rfl
  rw [chunks, pieceBytes_append, pieceBytes_stride, hlast, stride_run, hmul, ← run_add,
    Nat.div_add_mod']

/-- The first chunk, and the others. -/
lemma chunks_of_le {c n : ℕ} (hc : 0 < c) (h : c ≤ n) (a : ℤ) :
    chunks c a n = ⟨a, c⟩ :: chunks c (a + c) (n - c) := by
  obtain ⟨m, rfl⟩ := Nat.exists_eq_add_of_le h
  have hdiv : (c + m) / c = m / c + 1 := by rw [Nat.add_div_left _ hc]
  have hstart : a + ((m / c + 1 : ℕ) : ℤ) * c = a + c + (m / c : ℕ) * c := by push_cast; ring
  rw [Nat.add_sub_cancel_left, chunks, hdiv, Nat.add_mod_left, hstart, stride_succ]
  rfl

lemma chunks_of_lt {c n : ℕ} (h : n < c) (hn : n ≠ 0) (a : ℤ) : chunks c a n = [⟨a, n⟩] := by
  rw [chunks, Nat.div_eq_of_lt h, Nat.mod_eq_of_lt h, if_neg hn]
  simp

@[simp] lemma chunks_zero (c : ℕ) (a : ℤ) : chunks c a 0 = [] := by simp [chunks]

section Moves

variable {α : Type*} (δ : ℤ)

/-- The memory after the pieces have been moved, one after the other. -/
def moves (ps : List Piece) (m : ℤ → α) : ℤ → α := ps.foldl (fun m p => p.move δ m) m

/-- The address whose old content ends up at `x`. -/
def origin (ps : List Piece) : ℤ → ℤ := moves δ ps id

@[simp] lemma moves_nil (m : ℤ → α) : moves δ [] m = m := rfl

@[simp] lemma moves_cons (p : Piece) (ps : List Piece) (m : ℤ → α) :
    moves δ (p :: ps) m = moves δ ps (p.move δ m) := rfl

lemma moves_concat (ps : List Piece) (p : Piece) (m : ℤ → α) :
    moves δ (ps ++ [p]) m = p.move δ (moves δ ps m) := by
  rw [moves, List.foldl_append]
  rfl

lemma move_comp (p : Piece) (m : ℤ → α) (f : ℤ → ℤ) : p.move δ (m ∘ f) = m ∘ p.move δ f := by
  funext x
  exact (apply_ite m _ _ _).symm

lemma moves_comp (ps : List Piece) (m : ℤ → α) (f : ℤ → ℤ) :
    moves δ ps (m ∘ f) = m ∘ moves δ ps f := by
  induction ps generalizing f with
  | nil => rfl
  | cons p ps ih => rw [moves_cons, move_comp, ih, moves_cons]

/-- Every cell comes from its origin. -/
lemma moves_eq_comp (ps : List Piece) (m : ℤ → α) : moves δ ps m = m ∘ origin δ ps :=
  moves_comp δ ps m id

lemma moves_apply (ps : List Piece) (m : ℤ → α) (x : ℤ) : moves δ ps m x = m (origin δ ps x) :=
  congrFun (moves_eq_comp δ ps m) x

lemma origin_concat (ps : List Piece) (p : Piece) (x : ℤ) :
    origin δ (ps ++ [p]) x = if p.Holds (x - δ) then origin δ ps (x - δ) else origin δ ps x := by
  rw [origin, moves_concat]
  rfl

/-- Nothing is moved over the address. -/
def Untouched (ps : List Piece) (x : ℤ) : Prop := ∀ p ∈ ps, ¬ p.Holds (x - δ)

lemma untouched_concat {ps : List Piece} {p : Piece} {x : ℤ} :
    Untouched δ (ps ++ [p]) x ↔ Untouched δ ps x ∧ ¬ p.Holds (x - δ) := by
  simp only [Untouched, List.mem_append, List.mem_singleton]
  exact ⟨fun h => ⟨fun q hq => h q (Or.inl hq), h p (Or.inr rfl)⟩,
    fun h q hq => hq.elim (h.1 q) fun hq => hq ▸ h.2⟩

/-- A content moves some number of times, none exactly if nothing is moved over its place. -/
lemma exists_origin_eq (ps : List Piece) (x : ℤ) :
    ∃ k : ℕ, origin δ ps x = x - k * δ ∧ (k = 0 ↔ Untouched δ ps x) := by
  induction ps using List.reverseRecOn generalizing x with
  | nil => exact ⟨0, by simp [origin], by simp [Untouched]⟩
  | append_singleton ps p ih =>
      rw [origin_concat, untouched_concat]
      by_cases hp : p.Holds (x - δ)
      · obtain ⟨k, hk, -⟩ := ih (x - δ)
        refine ⟨k + 1, ?_, by simp [hp]⟩
        rw [if_pos hp, hk]
        push_cast
        ring
      · obtain ⟨k, hk, hzero⟩ := ih x
        exact ⟨k, by rw [if_neg hp, hk], by simp [hp, hzero]⟩

variable {δ}

/-- A cell keeps its content exactly if nothing is moved over it. -/
lemma origin_eq_self_iff (hδ : δ ≠ 0) {ps : List Piece} {x : ℤ} :
    origin δ ps x = x ↔ Untouched δ ps x := by
  obtain ⟨k, hk, hzero⟩ := exists_origin_eq δ ps x
  rw [hk, ← hzero]
  constructor
  · intro h
    have hmul : (k : ℤ) * δ = 0 := by omega
    exact Int.natCast_eq_zero.mp ((mul_eq_zero.mp hmul).resolve_right hδ)
  · rintro rfl
    simp

/-- Pieces without addresses change nothing. -/
lemma moves_of_pieceBytes_eq_nil {ps : List Piece} (h : pieceBytes ps = []) (m : ℤ → α) :
    moves δ ps m = m := by
  funext x
  obtain ⟨k, hk, hzero⟩ := exists_origin_eq δ ps x
  have hfree : Untouched δ ps x := fun p hp hold => by
    have hmem := mem_pieceBytes.mpr ⟨p, hp, hold⟩
    simp [h] at hmem
  rw [moves_apply, hk, hzero.mpr hfree, Nat.cast_zero, zero_mul, sub_zero]

/-- Moving by nothing. -/
lemma moves_zero (ps : List Piece) (m : ℤ → α) : moves 0 ps m = m := by
  have hid : origin 0 ps = id := by
    funext x
    obtain ⟨k, hk, -⟩ := exists_origin_eq 0 ps x
    simpa using hk
  rw [moves_eq_comp, hid]
  rfl

/-- The last piece with the address `a` is moved before anything has been moved over `a`. -/
def FirstHand (δ : ℤ) (ps : List Piece) (a : ℤ) : Prop :=
  ∃ pre p post, ps = pre ++ p :: post ∧ p.Holds a ∧ (∀ q ∈ post, ¬ q.Holds a) ∧
    Untouched δ pre a

lemma FirstHand.mem {ps : List Piece} {a : ℤ} (h : FirstHand δ ps a) : a ∈ pieceBytes ps := by
  obtain ⟨pre, p, post, rfl, hp, -⟩ := h
  exact mem_pieceBytes.mpr ⟨p, by simp, hp⟩

/-- Where nothing is moved over the addresses of the pieces, all of them are moved first hand. -/
lemma firstHand_of_untouched {ps : List Piece} {a : ℤ} (ha : a ∈ pieceBytes ps)
    (h : Untouched δ ps a) : FirstHand δ ps a := by
  induction ps with
  | nil => simp at ha
  | cons p ps ih =>
      have htail : Untouched δ ps a := fun q hq => h q (List.mem_cons_of_mem _ hq)
      by_cases hps : a ∈ pieceBytes ps
      · obtain ⟨pre, q, post, rfl, hq, hpost, hpre⟩ := ih hps htail
        refine ⟨p :: pre, q, post, rfl, hq, hpost, fun r hr => ?_⟩
        rcases List.mem_cons.mp hr with rfl | hr
        · exact h r List.mem_cons_self
        · exact hpre r hr
      · refine ⟨[], p, ps, rfl, ?_, fun q hq hqa => hps (mem_pieceBytes.mpr ⟨q, hq, hqa⟩),
          fun q hq => by cases hq⟩
        obtain ⟨q, hq, hqa⟩ := mem_pieceBytes.mp ha
        rcases List.mem_cons.mp hq with rfl | hq
        · exact hqa
        · exact absurd (mem_pieceBytes.mpr ⟨q, hq, hqa⟩) hps

lemma firstHand_concat {ps : List Piece} {p : Piece} {a : ℤ} :
    FirstHand δ (ps ++ [p]) a ↔ if p.Holds a then Untouched δ ps a else FirstHand δ ps a := by
  constructor
  · rintro ⟨pre, q, post, heq, hq, hpost, hpre⟩
    rcases List.eq_nil_or_concat post with rfl | ⟨post, r, rfl⟩
    · obtain ⟨rfl, hqp⟩ := List.append_inj' heq rfl
      obtain rfl : p = q := by simpa using hqp
      rwa [if_pos hq]
    · rw [List.concat_eq_append, ← List.cons_append, ← List.append_assoc] at heq
      obtain ⟨rfl, hr⟩ := List.append_inj' heq rfl
      obtain rfl : p = r := by simpa using hr
      rw [if_neg (hpost p (by simp))]
      exact ⟨pre, q, post, rfl, hq, fun s hs => hpost s (by simp [hs]), hpre⟩
  · split_ifs with hp
    · exact fun h => ⟨ps, p, [], rfl, hp, by simp, h⟩
    · rintro ⟨pre, q, post, rfl, hq, hpost, hpre⟩
      refine ⟨pre, q, post ++ [p], by simp, hq, fun r hr => ?_, hpre⟩
      rcases List.mem_append.mp hr with hr | hr
      · exact hpost r hr
      · rwa [List.mem_singleton.mp hr]

/-- The content of `a` ends up at `a + δ` exactly if it is moved first hand. -/
lemma origin_add_eq_iff (hδ : δ ≠ 0) {ps : List Piece} {a : ℤ} :
    origin δ ps (a + δ) = a ↔ FirstHand δ ps a := by
  induction ps using List.reverseRecOn with
  | nil =>
      refine iff_of_false ?_ fun h => by simpa using h.mem
      simpa [origin] using hδ
  | append_singleton ps p ih =>
      rw [origin_concat, firstHand_concat, add_sub_cancel_right]
      split_ifs with hp
      · exact origin_eq_self_iff hδ
      · exact ih

variable [Nontrivial α]

/-- Two cells hold the same in every memory only if they are the same. -/
lemma forall_memory_eq_iff {x y : ℤ} : (∀ m : ℤ → α, m x = m y) ↔ x = y := by
  constructor
  · intro h
    obtain ⟨u, v, huv⟩ := exists_pair_ne α
    by_contra hne
    have hm := h (Function.update (fun _ => v) x u)
    rw [Function.update_self, Function.update_of_ne (Ne.symm hne)] at hm
    exact huv hm
  · rintro rfl m
    rfl

/-- **The old content of `a` ends up at `a + δ`** in every memory exactly if it is moved first
hand. -/
theorem moves_add_iff (hδ : δ ≠ 0) {ps : List Piece} {a : ℤ} :
    (∀ m : ℤ → α, moves δ ps m (a + δ) = m a) ↔ FirstHand δ ps a := by
  simp only [moves_apply, forall_memory_eq_iff, origin_add_eq_iff hδ]

/-- **A cell keeps its content** in every memory exactly if nothing is moved over it. -/
theorem moves_self_iff (hδ : δ ≠ 0) {ps : List Piece} {x : ℤ} :
    (∀ m : ℤ → α, moves δ ps m x = m x) ↔ Untouched δ ps x := by
  simp only [moves_apply, forall_memory_eq_iff, origin_eq_self_iff hδ]

end Moves

end Ocoms.Layout
