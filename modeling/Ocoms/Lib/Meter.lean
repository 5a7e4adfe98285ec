import Mathlib.Algebra.BigOperators.Group.List.Basic
import Mathlib.Tactic.Abel

/-!
Meters: what a counter has counted while they were running.

* A `Meter` has the value that was set last, the intervals in which it was running since then, and
  the beginning of the one that is still open. `Meter.value` is what it shows.
* `Tracks` is how a running sum keeps up with a meter: of the intervals only the sum is kept, and of
  the counter the value at which it was looked at last. Every operation on the meter has its
  operation on the sum, and looking at the counter changes nothing.
-/

namespace Ocoms

/-- The value that was set last, the intervals since then, from and to which value the counter went,
and the value of the counter at the beginning of the open interval. -/
structure Meter (G : Type*) where
  base : G
  intervals : List (G × G)
  opened : Option G

namespace Meter

variable {G : Type*} [AddCommGroup G]

/-- What a meter shows while the counter is at `now`. -/
def value (m : Meter G) (now : G) : G :=
  m.base + (m.intervals.map fun interval => interval.2 - interval.1).sum +
    m.opened.elim 0 (now - ·)

/-- An interval begins. -/
def start (m : Meter G) (now : G) : Meter G := { m with opened := some now }

/-- The open interval ends. -/
def stop (m : Meter G) (now : G) : Meter G :=
  { m with
    intervals := m.intervals ++ (m.opened.map fun begin => (begin, now)).toList
    opened := none }

/-- Another value is set. An interval that is open begins once more. -/
def set (m : Meter G) (base now : G) : Meter G :=
  { base, intervals := [], opened := m.opened.map fun _ => now }

/-- **A sum keeps up with a meter**: `current` is what was counted when the counter was at `last`. -/
structure Tracks (m : Meter G) (running : Bool) (current last : G) : Prop where
  isOpen : m.opened.isSome = running
  value : ∀ now, m.value now = current + if running then now - last else 0

variable {m : Meter G} {running : Bool} {current last : G}

/-- Looking at the counter. -/
lemma Tracks.look (h : m.Tracks true current last) (now : G) :
    m.Tracks true (current + (now - last)) now := by
  refine ⟨h.isOpen, fun later => ?_⟩
  rw [h.value later, if_pos rfl, if_pos rfl]
  abel

/-- A meter that is not running does not look at the counter. -/
lemma Tracks.idle (h : m.Tracks false current last) (last' : G) :
    m.Tracks false current last' :=
  ⟨h.isOpen, h.value⟩

lemma Tracks.start (h : m.Tracks false current last) (now : G) :
    (m.start now).Tracks true current now := by
  refine ⟨rfl, fun later => ?_⟩
  have hclosed : m.opened = none := by simpa using h.isOpen
  have hvalue := h.value later
  rw [Meter.value, hclosed] at hvalue
  rw [if_neg Bool.false_ne_true, Option.elim_none, add_zero, add_zero] at hvalue
  rw [Meter.value, if_pos rfl, Meter.start, Option.elim_some, hvalue]

lemma Tracks.stop (h : m.Tracks true current last) (now last' : G) :
    (m.stop now).Tracks false (current + (now - last)) last' := by
  refine ⟨rfl, fun later => ?_⟩
  obtain ⟨begin, hopened⟩ := Option.isSome_iff_exists.mp h.isOpen
  have hvalue := h.value now
  rw [Meter.value, hopened, if_pos rfl, Option.elim_some] at hvalue
  rw [if_neg Bool.false_ne_true, add_zero, ← hvalue, Meter.value, Meter.stop, hopened]
  simp [add_assoc]

lemma Tracks.set (h : m.Tracks running current last) (base now : G) :
    (m.set base now).Tracks running base now := by
  refine ⟨?_, fun later => ?_⟩
  · rw [← h.isOpen, Meter.set, Option.isSome_map]
  · rw [← h.isOpen, Meter.value, Meter.set]
    cases m.opened <;> simp

end Meter
end Ocoms
