import Mathlib.Data.List.TakeWhile
import Mathlib.Data.Nat.Notation

/-!
Scanners that take the longest match.

* A `Pattern` is a sequence of parts, each one character of a class or any number of them.
  `Pattern.Fits p s n` says that the pattern accepts the first `n` characters of a text; the
  `fits` lemmas read it part by part, a run of characters at once where the parts are apart.
* A `Rule` is a pattern with a trailing context, an action and the start conditions it is active
  in. `scan` is the choice among the rules: the longest match, the trailing context included, and
  the first rule of those with a match that long. `scan_eq` is the lemma to find it.
-/

namespace Ocoms

variable {α β κ : Type*}

/-! ### Patterns -/

/-- A part of a pattern: one character of a class, or any number of them. -/
inductive PatternPart (α : Type*)
  | one (c : α → Bool)
  | many (c : α → Bool)

/-- A sequence of parts. -/
abbrev Pattern (α : Type*) := List (PatternPart α)

namespace Pattern

/-- Characters of a class, and what `accepts` takes behind them. -/
def manyThen (c : α → Bool) (accepts : List α → Bool) : List α → Bool
  | [] => accepts []
  | x :: w => accepts (x :: w) || (c x && manyThen c accepts w)

/-- The pattern accepts the word. -/
def accepts : Pattern α → List α → Bool
  | [], w => w.isEmpty
  | .one _ :: _, [] => false
  | .one c :: p, x :: w => c x && accepts p w
  | .many c :: p, w => manyThen c (accepts p) w

/-- The pattern accepts the empty word. -/
def nullable : Pattern α → Bool
  | [] => true
  | .one _ :: _ => false
  | .many _ :: p => nullable p

/-- The pattern may accept a word that starts with `x`. -/
def canStart : Pattern α → α → Bool
  | [], _ => false
  | .one c :: _, x => c x
  | .many c :: p, x => c x || canStart p x

/-- The pattern accepts the first `n` characters of the text. -/
def Fits (p : Pattern α) (s : List α) (n : ℕ) : Prop := n ≤ s.length ∧ p.accepts (s.take n) = true

section Fits

variable {p : Pattern α} {c : α → Bool} {x : α} {s u v : List α} {n : ℕ}

@[simp] lemma fits_nil : Fits [] s n ↔ n = 0 := by
  rw [Fits, accepts, List.isEmpty_iff, List.take_eq_nil_iff]
  constructor
  · rintro ⟨hle, rfl | rfl⟩
    · rfl
    · exact Nat.le_zero.mp hle
  · rintro rfl
    exact ⟨Nat.zero_le _, Or.inl rfl⟩

@[simp] lemma not_fits_one_nil : ¬ Fits (.one c :: p) [] n := by
  rintro ⟨-, h⟩
  rw [List.take_nil] at h
  cases h

lemma fits_one_cons : Fits (.one c :: p) (x :: s) n ↔ c x = true ∧ ∃ m, n = m + 1 ∧ Fits p s m := by
  cases n with
  | zero =>
      refine iff_of_false ?_ ?_
      · rintro ⟨-, h⟩
        cases h
      · rintro ⟨-, m, h, -⟩
        cases h
  | succ n =>
      rw [Fits, List.take_succ_cons, accepts, Bool.and_eq_true, List.length_cons,
        Nat.add_le_add_iff_right]
      constructor
      · rintro ⟨hle, hc, h⟩
        exact ⟨hc, n, rfl, hle, h⟩
      · rintro ⟨hc, m, hm, hle, h⟩
        obtain rfl := Nat.succ.inj hm
        exact ⟨hle, hc, h⟩

@[simp] lemma fits_many_nil : Fits (.many c :: p) [] n ↔ Fits p [] n := by
  rw [Fits, Fits, List.take_nil]
  rfl

lemma fits_many_cons : Fits (.many c :: p) (x :: s) n ↔
    Fits p (x :: s) n ∨ c x = true ∧ ∃ m, n = m + 1 ∧ Fits (.many c :: p) s m := by
  cases n with
  | zero =>
      rw [or_iff_left]
      · rfl
      · rintro ⟨-, m, h, -⟩
        cases h
  | succ n =>
      rw [Fits, Fits, List.take_succ_cons, accepts, manyThen, Bool.or_eq_true, Bool.and_eq_true,
        List.length_cons, and_or_left, Nat.add_le_add_iff_right]
      refine or_congr_right ?_
      constructor
      · rintro ⟨hle, hc, h⟩
        exact ⟨hc, n, rfl, hle, h⟩
      · rintro ⟨hc, m, hm, hle, h⟩
        obtain rfl := Nat.succ.inj hm
        exact ⟨hle, hc, h⟩

lemma fits_zero : Fits p s 0 ↔ p.nullable = true := by
  rw [Fits, List.take_zero, and_iff_right (Nat.zero_le _)]
  induction p with
  | nil => exact iff_of_true rfl rfl
  | cons part p ih =>
      cases part with
      | one c => exact iff_of_false (by simp [accepts]) (by simp [nullable])
      | many c => exact ih

/-- What fits a text is empty, or may start like it. -/
lemma Fits.canStart (h : Fits p (x :: s) n) : n = 0 ∨ p.canStart x = true := by
  induction p with
  | nil => exact Or.inl (fits_nil.mp h)
  | cons part p ih =>
      cases part with
      | one c => exact Or.inr (fits_one_cons.mp h).1
      | many c =>
          rcases fits_many_cons.mp h with h | ⟨hc, -⟩
          · exact (ih h).imp_right fun h => by rw [Pattern.canStart, h, Bool.or_true]
          · exact Or.inr (by rw [Pattern.canStart, hc, Bool.true_or])

/-- Nothing fits a text that starts in another way. -/
lemma not_fits_cons (hnull : p.nullable = false) (hx : p.canStart x = false) :
    ¬ Fits p (x :: s) n := by
  intro h
  rcases h.canStart with rfl | h
  · rw [fits_zero, hnull] at h
    cases h
  · rw [hx] at h
    cases h

/-- The characters of a class go on no further. -/
def Stops (c : α → Bool) (v : List α) : Prop := ∀ x ∈ v.head?, c x = false

@[simp] lemma stops_nil : Stops c [] := fun _ h => by cases h

@[simp] lemma stops_cons : Stops c (x :: s) ↔ c x = false := by simp [Stops]

lemma Stops.append (hu : Stops c u) (hv : u = [] → Stops c v) : Stops c (u ++ v) := by
  cases u with
  | nil => exact hv rfl
  | cons x u => exact stops_cons.mpr (stops_cons.mp hu)

/-- A text as a run of characters of a class, and a rest that it does not go on in. -/
lemma exists_run (c : α → Bool) (s : List α) :
    ∃ u v, s = u ++ v ∧ (∀ x ∈ u, c x = true) ∧ Stops c v := by
  refine ⟨s.takeWhile c, s.dropWhile c, List.takeWhile_append_dropWhile.symm,
    fun x hx => List.mem_takeWhile_imp hx, ?_⟩
  intro x hx
  have hnot := List.head?_dropWhile_not c s
  rwa [Option.mem_def.mp hx] at hnot

/-- A run from a character of the class on. -/
lemma exists_run_cons (hx : c x = true) (s : List α) :
    ∃ u v, x :: s = u ++ v ∧ u ≠ [] ∧ (∀ y ∈ u, c y = true) ∧ Stops c v := by
  obtain ⟨u, v, hs, hu, hv⟩ := exists_run c (x :: s)
  refine ⟨u, v, hs, ?_, hu, hv⟩
  rintro rfl
  rw [List.nil_append] at hs
  rw [← hs, stops_cons, hx] at hv
  cases hv

lemma dropWhile_run (hu : ∀ x ∈ u, c x = true) (hv : Stops c v) : (u ++ v).dropWhile c = v := by
  rw [List.dropWhile_append_of_pos hu]
  cases v with
  | nil => rfl
  | cons x v => exact List.dropWhile_cons_of_neg (by simpa using hv)

lemma takeWhile_run (hu : ∀ x ∈ u, c x = true) (hv : Stops c v) : (u ++ v).takeWhile c = u := by
  rw [List.takeWhile_append_of_pos hu]
  cases v with
  | nil => exact List.append_nil u
  | cons x v => rw [List.takeWhile_cons_of_neg (by simpa using hv), List.append_nil]

/-- Characters of the class in front of what fits. -/
lemma Fits.many (hu : ∀ x ∈ u, c x = true) (h : Fits p v n) :
    Fits (.many c :: p) (u ++ v) (u.length + n) := by
  induction u with
  | nil =>
      rw [List.nil_append, List.length_nil, Nat.zero_add]
      cases v with
      | nil => exact fits_many_nil.mpr h
      | cons x v => exact fits_many_cons.mpr (Or.inl h)
  | cons x u ih =>
      obtain ⟨hx, hu⟩ := List.forall_mem_cons.mp hu
      exact fits_many_cons.mpr (Or.inr ⟨hx, _, by rw [List.length_cons]; omega, ih hu⟩)

/-- A pattern that cannot go on within a run of characters goes on behind it, or ends in it. -/
lemma Fits.of_many (hu : ∀ x ∈ u, c x = true) (hv : Stops c v)
    (hp : ∀ x, c x = true → p.canStart x = false) (h : Fits (.many c :: p) (u ++ v) n) :
    p.nullable = true ∧ n ≤ u.length ∨ ∃ m, n = u.length + m ∧ Fits p v m := by
  induction u generalizing n with
  | nil =>
      refine Or.inr ⟨n, by rw [List.length_nil, Nat.zero_add], ?_⟩
      rw [List.nil_append] at h
      cases v with
      | nil => exact fits_many_nil.mp h
      | cons x v =>
          refine (fits_many_cons.mp h).resolve_right ?_
          rintro ⟨hx, -⟩
          rw [stops_cons.mp hv] at hx
          cases hx
  | cons x u ih =>
      obtain ⟨hx, hu⟩ := List.forall_mem_cons.mp hu
      rcases fits_many_cons.mp h with h | ⟨-, k, rfl, hk⟩
      · rcases h.canStart with rfl | h'
        · exact Or.inl ⟨fits_zero.mp h, Nat.zero_le _⟩
        · rw [hp x hx] at h'
          cases h'
      · rcases ih hu hk with ⟨hnull, hle⟩ | ⟨m, rfl, hm⟩
        · exact Or.inl ⟨hnull, by rw [List.length_cons]; omega⟩
        · exact Or.inr ⟨m, by rw [List.length_cons]; omega, hm⟩

/-- **A run of characters** is taken as a whole by a pattern that cannot end or go on within it. -/
lemma fits_many_run (hu : ∀ x ∈ u, c x = true) (hv : Stops c v) (hnull : p.nullable = false)
    (hp : ∀ x, c x = true → p.canStart x = false) :
    Fits (.many c :: p) (u ++ v) n ↔ ∃ m, n = u.length + m ∧ Fits p v m := by
  constructor
  · intro h
    refine (h.of_many hu hv hp).resolve_left ?_
    rw [hnull]
    rintro ⟨h, -⟩
    cases h
  · rintro ⟨m, rfl, hm⟩
    exact hm.many hu

/-- At the end of a pattern any part of the run fits. -/
lemma fits_many_end (hu : ∀ x ∈ u, c x = true) (hv : Stops c v) :
    Fits [.many c] (u ++ v) n ↔ n ≤ u.length := by
  constructor
  · intro h
    rcases h.of_many hu hv fun _ _ => rfl with ⟨-, hle⟩ | ⟨m, rfl, hm⟩
    · exact hle
    · exact Nat.le_of_eq (congrArg (u.length + ·) (fits_nil.mp hm))
  · intro hle
    have hfit : Fits [.many c] (u.take n ++ (u.drop n ++ v)) ((u.take n).length + 0) :=
      Fits.many (fun x hx => hu x (List.mem_of_mem_take hx)) (fits_nil.mpr rfl)
    rwa [← List.append_assoc, List.take_append_drop, List.length_take_of_le hle, Nat.add_zero]
      at hfit

/-- The character is in no class of the pattern. -/
def rejects (p : Pattern α) (y : α) : Bool :=
  p.all fun
    | .one c => !c y
    | .many c => !c y

lemma not_mem_of_accepts {y : α} {w : List α} (hp : p.rejects y = true)
    (h : p.accepts w = true) : y ∉ w := by
  induction p generalizing w with
  | nil =>
      rw [accepts, List.isEmpty_iff] at h
      exact h ▸ List.not_mem_nil
  | cons part p ih =>
      rw [rejects, List.all_cons, Bool.and_eq_true] at hp
      obtain ⟨hpart, hp⟩ := hp
      cases part with
      | one c =>
          cases w with
          | nil => exact List.not_mem_nil
          | cons x w =>
              rw [accepts, Bool.and_eq_true] at h
              rw [List.mem_cons, not_or]
              refine ⟨?_, ih hp h.2⟩
              rintro rfl
              simp [h.1] at hpart
      | many c =>
          rw [accepts] at h
          induction w with
          | nil => exact List.not_mem_nil
          | cons x w ihw =>
              rw [manyThen, Bool.or_eq_true, Bool.and_eq_true] at h
              rcases h with h | ⟨hx, h⟩
              · exact ih hp h
              · rw [List.mem_cons, not_or]
                refine ⟨?_, ihw h⟩
                rintro rfl
                simp [hx] at hpart

/-- A match goes no further than up to a character that no class has. -/
lemma Fits.le_of_rejects {y : α} (hp : p.rejects y = true) (h : Fits p (u ++ y :: v) n) :
    n ≤ u.length := by
  by_contra hlt
  refine not_mem_of_accepts hp h.2 ?_
  rw [List.take_append, List.mem_append]
  obtain ⟨k, hk⟩ : ∃ k, n - u.length = k + 1 := ⟨n - u.length - 1, by omega⟩
  rw [hk, List.take_succ_cons]
  exact Or.inr List.mem_cons_self

/-- What a pattern accepts has a character for each of its single ones. -/
lemma exists_mem_of_accepts {w : List α} (hc : .one c ∈ p) (h : p.accepts w = true) :
    ∃ y ∈ w, c y = true := by
  induction p generalizing w with
  | nil => cases hc
  | cons part p ih =>
      cases part with
      | one d =>
          cases w with
          | nil => cases h
          | cons x w =>
              rw [accepts, Bool.and_eq_true] at h
              rcases List.mem_cons.mp hc with heq | hc
              · exact ⟨x, List.mem_cons_self, PatternPart.one.inj heq ▸ h.1⟩
              · obtain ⟨y, hy, hcy⟩ := ih hc h.2
                exact ⟨y, List.mem_cons_of_mem _ hy, hcy⟩
      | many d =>
          have hc' : .one c ∈ p := (List.mem_cons.mp hc).resolve_left fun h => by cases h
          rw [accepts] at h
          induction w with
          | nil => exact ih hc' h
          | cons x w ihw =>
              rw [manyThen, Bool.or_eq_true, Bool.and_eq_true] at h
              rcases h with h | ⟨-, h⟩
              · exact ih hc' h
              · obtain ⟨y, hy, hcy⟩ := ihw h
                exact ⟨y, List.mem_cons_of_mem _ hy, hcy⟩

/-- Nothing fits a text without a character that the pattern needs. -/
lemma not_fits_of_forall (hc : .one c ∈ p) (hs : ∀ y ∈ s, c y = false) : ¬ Fits p s n := by
  intro h
  obtain ⟨y, hy, hcy⟩ := exists_mem_of_accepts hc h.2
  rw [hs y (List.mem_of_mem_take hy)] at hcy
  cases hcy

/-- The last character of what a pattern accepts that ends with a single one. -/
lemma getLast?_of_accepts {w : List α} (h : accepts (p ++ [.one c]) w = true) :
    ∃ y ∈ w.getLast?, c y = true := by
  induction p generalizing w with
  | nil =>
      rcases w with _ | ⟨x, _ | ⟨x', w⟩⟩
      · cases h
      · exact ⟨x, rfl, by simpa [accepts] using h⟩
      · simp [accepts] at h
  | cons part p ih =>
      have hcons : ∀ {x : α} {w : List α}, (∃ y ∈ w.getLast?, c y = true) →
          ∃ y ∈ (x :: w).getLast?, c y = true := by
        rintro x w ⟨y, hy, hcy⟩
        refine ⟨y, ?_, hcy⟩
        rw [List.getLast?_cons, Option.mem_def.mp hy]
        rfl
      cases part with
      | one d =>
          cases w with
          | nil => cases h
          | cons x w =>
              rw [List.cons_append, accepts, Bool.and_eq_true] at h
              exact hcons (ih h.2)
      | many d =>
          rw [List.cons_append, accepts] at h
          induction w with
          | nil => exact ih h
          | cons x w ihw =>
              rw [manyThen, Bool.or_eq_true, Bool.and_eq_true] at h
              rcases h with h | ⟨-, h⟩
              · exact ih h
              · exact hcons (ihw h)

end Fits

end Pattern

/-! ### Rules -/

/-- A rule of a scanner: `head/trail` with an action, active in some start conditions. -/
structure Rule (κ α β : Type*) where
  conditions : List κ
  head : Pattern α
  trail : Pattern α := []
  action : β

/-- The greatest number up to `b` with a property. -/
def greatestUpTo (b : ℕ) (P : ℕ → Bool) : Option ℕ := (List.range (b + 1)).reverse.find? P

lemma greatestUpTo_eq_some {b n : ℕ} {P : ℕ → Bool} (hle : n ≤ b) (hn : P n = true)
    (hmax : ∀ m ≤ b, P m = true → m ≤ n) : greatestUpTo b P = some n := by
  induction b with
  | zero =>
      obtain rfl := Nat.le_zero.mp hle
      simp [greatestUpTo, hn]
  | succ b ih =>
      have hsplit : greatestUpTo (b + 1) P
          = if P (b + 1) = true then some (b + 1) else greatestUpTo b P := by
        rw [greatestUpTo, greatestUpTo, List.range_succ, List.reverse_append,
          List.reverse_singleton, List.singleton_append, List.find?_cons]
        cases P (b + 1) <;> rfl
      rw [hsplit]
      split_ifs with hb
      · rw [Nat.le_antisymm hle (hmax _ (Nat.le_refl _) hb)]
      · refine ih ?_ fun m hm => hmax m (by omega)
        rcases Nat.lt_or_eq_of_le hle with hlt | rfl
        · omega
        · exact absurd hn hb

namespace Rule

/-- The whole pattern of a rule fits. -/
def Fits (r : Rule κ α β) (s : List α) (n : ℕ) : Prop := (r.head ++ r.trail).Fits s n

/-- The length of the longest match of a rule, with the trailing context. -/
def longest (r : Rule κ α β) (s : List α) : Option ℕ :=
  greatestUpTo s.length fun n => (r.head ++ r.trail).accepts (s.take n)

/-- The length of the text of a match of `n` characters: the head goes as far as it can. -/
def headLength (r : Rule κ α β) (s : List α) (n : ℕ) : ℕ :=
  (greatestUpTo n fun m => r.head.accepts (s.take m) && r.trail.accepts ((s.take n).drop m)).getD n

/-- The rule with the longest match, the first one of several. -/
def best : List (Rule κ α β) → List α → Option (ℕ × Rule κ α β)
  | [], _ => none
  | r :: rules, s =>
      match r.longest s, best rules s with
      | none, b => b
      | some n, none => some (n, r)
      | some n, some (m, r') => if m ≤ n then some (n, r) else some (m, r')

/-- The next match in a start condition: its length, and the action. -/
def scan [DecidableEq κ] (rules : List (Rule κ α β)) (k : κ) (s : List α) : Option (ℕ × β) :=
  (best (rules.filter fun r => k ∈ r.conditions) s).map fun (n, r) => (r.headLength s n, r.action)

section Scan

variable {r : Rule κ α β} {pre post : List (Rule κ α β)} {s : List α} {n m : ℕ}

lemma longest_eq_some (h : r.Fits s n) (hmax : ∀ m, r.Fits s m → m ≤ n) : r.longest s = some n :=
  greatestUpTo_eq_some h.1 h.2 fun m hle hm => hmax m ⟨hle, hm⟩

lemma fits_of_longest (h : r.longest s = some n) : r.Fits s n := by
  have hfind : (List.range (s.length + 1)).reverse.find?
      (fun n => (r.head ++ r.trail).accepts (s.take n)) = some n := h
  have hmem := List.mem_of_find?_eq_some hfind
  have haccepts := List.find?_some hfind
  rw [List.mem_reverse, List.mem_range] at hmem
  exact ⟨Nat.lt_succ_iff.mp hmem, haccepts⟩

/-- What is best fits. -/
lemma fits_of_best {rules : List (Rule κ α β)} (h : best rules s = some (n, r)) :
    r ∈ rules ∧ r.Fits s n := by
  induction rules with
  | nil => cases h
  | cons r' rules ih =>
      rw [best] at h
      cases hl : r'.longest s with
      | none =>
          rw [hl] at h
          obtain ⟨hmem, hfit⟩ := ih h
          exact ⟨List.mem_cons_of_mem _ hmem, hfit⟩
      | some k =>
          cases hb : best rules s with
          | none =>
              rw [hl, hb] at h
              cases h
              exact ⟨List.mem_cons_self, fits_of_longest hl⟩
          | some b =>
              obtain ⟨m, r''⟩ := b
              rw [hl, hb] at h
              dsimp only at h
              split_ifs at h
              · cases h
                exact ⟨List.mem_cons_self, fits_of_longest hl⟩
              · cases h
                obtain ⟨hmem, hfit⟩ := ih hb
                exact ⟨List.mem_cons_of_mem _ hmem, hfit⟩

/-- A rule is the best if the ones in front of it are shorter, and the ones behind it not longer. -/
lemma best_eq (h : r.Fits s n) (hmax : ∀ m, r.Fits s m → m ≤ n)
    (hpre : ∀ r' ∈ pre, ∀ m, r'.Fits s m → m < n) (hpost : ∀ r' ∈ post, ∀ m, r'.Fits s m → m ≤ n) :
    best (pre ++ r :: post) s = some (n, r) := by
  induction pre with
  | nil =>
      rw [List.nil_append, best, longest_eq_some h hmax]
      cases hb : best post s with
      | none => rfl
      | some b =>
          obtain ⟨hmem, hfit⟩ := fits_of_best (r := b.2) (n := b.1) hb
          exact if_pos (hpost _ hmem _ hfit)
  | cons r' pre ih =>
      obtain ⟨hr', hpre⟩ := List.forall_mem_cons.mp hpre
      rw [List.cons_append, best, ih hpre]
      cases hl : r'.longest s with
      | none => rfl
      | some k => exact if_neg (Nat.not_le.mpr (hr' k (fits_of_longest hl)))

/-- **The choice of the scanner.** -/
lemma scan_eq [DecidableEq κ] {rules : List (Rule κ α β)} {k : κ}
    (hrules : (rules.filter fun r => k ∈ r.conditions) = pre ++ r :: post)
    (h : r.Fits s n) (hmax : ∀ m, r.Fits s m → m ≤ n)
    (hpre : ∀ r' ∈ pre, ∀ m, r'.Fits s m → m < n) (hpost : ∀ r' ∈ post, ∀ m, r'.Fits s m → m ≤ n) :
    scan rules k s = some (r.headLength s n, r.action) := by
  rw [scan, hrules, best_eq h hmax hpre hpost]
  rfl

/-- Without a trailing context the text is the match. -/
lemma headLength_of_trail_nil (ht : r.trail = []) (h : r.Fits s n) : r.headLength s n = n := by
  have hfit := h
  rw [Fits, ht, List.append_nil] at hfit
  rw [headLength, greatestUpTo_eq_some (Nat.le_refl n)]
  · rfl
  · rw [hfit.2, ht, List.drop_of_length_le (List.length_take_le _ _)]
    rfl
  · exact fun m hm _ => hm

/-- A head that goes as far as it can. -/
lemma headLength_eq (hle : m ≤ n) (hhead : r.head.accepts (s.take m) = true)
    (htrail : r.trail.accepts ((s.take n).drop m) = true)
    (hmax : ∀ k ≤ n, r.head.accepts (s.take k) = true → k ≤ m) : r.headLength s n = m := by
  rw [headLength, greatestUpTo_eq_some hle]
  · rfl
  · rw [hhead, htrail]
    rfl
  · intro k hk h
    rw [Bool.and_eq_true] at h
    exact hmax k hk h.1

end Scan

end Rule

end Ocoms
