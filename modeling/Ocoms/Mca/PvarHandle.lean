import Ocoms.Lib.Meter
import Ocoms.Mca.Pvar
import Mathlib.Algebra.Group.Pi.Basic
import Mathlib.Data.BitVec

/-!
Handles of performance variables: `mca_base_pvar_handle_*` in `mca_base_pvar.c`.

* The values of a handle are `n` words of `w` bits, for a variable of an unsigned type of that width.
  A call comes with its `Moment`: what the counter is then, and what the functions of the variable
  return. `none` is an access through a null pointer.
* `HandleRun` follows a handle together with a `Meter`, on which only the calls that have succeeded
  count. `ReadsMeter` says that every successful read returns what the meter shows.
* `reads_meter` proves it for the runs in which no start and no reset fails to look at the counter
  (`SafeCalls`). Where one does, the next read counts from a value of long ago.
-/

namespace Ocoms

/-- The return codes of the handle functions. `user` is what a function of the variable returns. -/
inductive HandleRc
  | error
  | perm
  | notBound
  | notSupported
  | valueOutOfBounds
  | user (ret : ℤ)
  deriving DecidableEq

/-- The values of a handle. -/
abbrev PvarValues (w n : ℕ) := Fin n → BitVec w

/-- `ocoms_mca_base_pvar_handle_t`: the three buffers, and whether the handle has been started. -/
structure PvarHandle (w n : ℕ) where
  lastValue : PvarValues w n
  currentValue : PvarValues w n
  tmpValue : PvarValues w n
  started : Bool

/-- What is outside during a call: whether the variable is invalid, the underlying counter, what
`get_value` returns where it does not return `0`, with what it leaves in the buffer then, and what
`notify` returns. -/
structure Moment (w n : ℕ) where
  invalid : Bool
  counter : PvarValues w n
  failed : Option (ℤ × PvarValues w n)
  notify : ℤ

/-- The calls. -/
inductive HandleCall (w n : ℕ)
  | start
  | stop
  | update
  | read
  | write (value : PvarValues w n)
  | reset

/-! ### The functions -/

/-- `mca_base_pvar_is_sum`. -/
def PvarClass.isSum (varClass : PvarClass) : Bool :=
  varClass = .counter || varClass = .timer || varClass = .aggregate

/-- `mca_base_pvar_is_watermark`. -/
def PvarClass.isWatermark (varClass : PvarClass) : Bool :=
  varClass = .highwatermark || varClass = .lowwatermark

section Functions

variable {w n : ℕ} (varClass : PvarClass) (flags : PvarFlags) (m : Moment w n)

/-- `get_value`: what is in the buffer behind the call. -/
def getValue : Except HandleRc Unit × PvarValues w n :=
  match m.failed with
  | none => (.ok (), m.counter)
  | some (ret, values) => (.error (.user ret), values)

/-- `mca_base_pvar_notify`. -/
def notify : Except HandleRc Unit :=
  if m.invalid then .error .notBound
  else if m.notify ≠ 0 then .error (.user m.notify)
  else .ok ()

/-- `mca_base_pvar_handle_is_running`. -/
def isRunning (handle : PvarHandle w n) : Bool := handle.started || flags.continuous

/-- There is a buffer for the current value. -/
def hasCurrentValue : Bool := !flags.continuous || varClass.isSum || varClass.isWatermark

/-- `mca_base_pvar_handle_alloc`, for a handle whose number of values is `n`. `bound` says that an
object is given, or none is needed. -/
def handleAlloc (bound : Bool) : Except HandleRc (PvarHandle w n) :=
  if m.invalid then .error .valueOutOfBounds
  else if !bound then .error .error
  else if m.notify < 0 then .error .error
  else
    let handle : PvarHandle w n :=
      { lastValue := 0, currentValue := 0, tmpValue := 0, started := flags.continuous }
    if (varClass.isSum || varClass.isWatermark) && flags.continuous then
      let (ret, values) := getValue m
      match ret with
      | .error rc => .error rc
      | .ok () =>
          if varClass.isSum then .ok { handle with lastValue := values }
          else .ok { handle with currentValue := values }
    else .ok handle

/-- `mca_base_pvar_handle_update`. The buffers for the last and the temporary value are swapped. -/
def handleUpdate (handle : PvarHandle w n) : Except HandleRc Unit × PvarHandle w n :=
  if m.invalid then (.error .notBound, handle)
  else if !isRunning flags handle then (.ok (), handle)
  else if varClass.isSum || varClass.isWatermark then
    let (ret, values) := getValue m
    let handle := { handle with tmpValue := values }
    match ret with
    | .error _ => (.error .error, handle)
    | .ok () =>
        if varClass.isSum then
          (.ok (), { handle with
            currentValue := handle.currentValue + (handle.tmpValue - handle.lastValue)
            tmpValue := handle.lastValue
            lastValue := handle.tmpValue })
        else if varClass = .lowwatermark then
          (.ok (), { handle with
            currentValue := fun i =>
              if handle.tmpValue i < handle.currentValue i then handle.tmpValue i
              else handle.currentValue i })
        else
          (.ok (), { handle with
            currentValue := fun i =>
              if handle.currentValue i < handle.tmpValue i then handle.tmpValue i
              else handle.currentValue i })
  else if !flags.continuous then
    let (ret, values) := getValue m
    (ret, { handle with currentValue := values })
  else (.ok (), handle)

/-- `mca_base_pvar_handle_read_value`: what it returns, with the values. -/
def handleReadValue (handle : PvarHandle w n) :
    Except HandleRc (PvarValues w n) × PvarHandle w n :=
  if m.invalid then (.error .notBound, handle)
  else
    match handleUpdate varClass flags m handle with
    | (.error rc, handle) => (.error rc, handle)
    | (.ok (), handle) =>
        if varClass.isSum || varClass.isWatermark || !isRunning flags handle then
          (.ok handle.currentValue, handle)
        else
          let (ret, values) := getValue m
          (ret.map fun _ => values, handle)

/-- `mca_base_pvar_handle_write_value`. -/
def handleWriteValue (value : PvarValues w n) (handle : PvarHandle w n) :
    Option (Except HandleRc Unit × PvarHandle w n) :=
  if m.invalid then some (.error .notBound, handle)
  else if flags.readonly then some (.error .perm, handle)
  else
    match handleUpdate varClass flags m handle with
    | (.error rc, handle) => some (.error rc, handle)
    | (.ok (), handle) =>
        if hasCurrentValue varClass flags then
          some (.ok (), { handle with currentValue := value })
        else none

/-- `mca_base_pvar_handle_start`. The handle is marked as started in front of the look at the
counter. -/
def handleStart (handle : PvarHandle w n) : Except HandleRc Unit × PvarHandle w n :=
  if flags.continuous || handle.started then (.error .notSupported, handle)
  else
    match notify m with
    | .error rc => (.error rc, handle)
    | .ok () =>
        let handle := { handle with started := true }
        if varClass.isSum then
          let (ret, values) := getValue m
          (ret, { handle with lastValue := values })
        else if varClass.isWatermark then
          let (ret, values) := getValue m
          (ret, { handle with currentValue := values })
        else (.ok (), handle)

/-- `mca_base_pvar_handle_stop`. What `notify` returns is ignored. -/
def handleStop (handle : PvarHandle w n) : Except HandleRc Unit × PvarHandle w n :=
  if m.invalid then (.error .notBound, handle)
  else if !isRunning flags handle || flags.continuous then (.error .notSupported, handle)
  else
    match handleUpdate varClass flags m handle with
    | (.error rc, handle) => (.error rc, handle)
    | (.ok (), handle) => (.ok (), { handle with started := false })

/-- `mca_base_pvar_handle_reset`. -/
def handleReset (handle : PvarHandle w n) : Except HandleRc Unit × PvarHandle w n :=
  if m.invalid then (.error .notBound, handle)
  else if varClass.isSum then
    let handle := { handle with currentValue := 0 }
    if isRunning flags handle then
      let (ret, values) := getValue m
      (ret, { handle with lastValue := values })
    else (.ok (), handle)
  else if isRunning flags handle && varClass.isWatermark then
    let (ret, values) := getValue m
    (ret, { handle with currentValue := values })
  else if flags.readonly then (.error .perm, handle)
  else (.ok (), handle)

/-- A call. Only a read has values in its result. -/
def handleStep (handle : PvarHandle w n) :
    HandleCall w n → Option (Except HandleRc (Option (PvarValues w n)) × PvarHandle w n)
  | .start =>
      let (ret, handle) := handleStart varClass flags m handle
      some (ret.map fun _ => none, handle)
  | .stop =>
      let (ret, handle) := handleStop varClass flags m handle
      some (ret.map fun _ => none, handle)
  | .update =>
      let (ret, handle) := handleUpdate varClass flags m handle
      some (ret.map fun _ => none, handle)
  | .read =>
      let (ret, handle) := handleReadValue varClass flags m handle
      some (ret.map some, handle)
  | .write value =>
      (handleWriteValue varClass flags m value handle).map fun r => (r.1.map fun _ => none, r.2)
  | .reset =>
      let (ret, handle) := handleReset varClass flags m handle
      some (ret.map fun _ => none, handle)

end Functions

/-! ### What the reads have to return -/

section Run

variable {w n : ℕ} (varClass : PvarClass) (flags : PvarFlags)

/-- The meter of a new handle. -/
def Meter.begin (m : Moment w n) : Meter (PvarValues w n) :=
  { base := 0, intervals := [], opened := if flags.continuous then some m.counter else none }

/-- What a call does to the meter, if it has succeeded. -/
def Meter.call {α : Type*} (meter : Meter (PvarValues w n)) (m : Moment w n)
    (call : HandleCall w n) : Except HandleRc α → Meter (PvarValues w n)
  | .error _ => meter
  | .ok _ =>
      match call with
      | .start => meter.start m.counter
      | .stop => meter.stop m.counter
      | .update | .read => meter
      | .write value => meter.set value m.counter
      | .reset => meter.set 0 m.counter

/-- A handle and its meter behind some calls. -/
def followHandle (handle : PvarHandle w n) (meter : Meter (PvarValues w n)) :
    List (HandleCall w n × Moment w n) → Option (PvarHandle w n × Meter (PvarValues w n))
  | [] => some (handle, meter)
  | (call, m) :: calls =>
      (handleStep varClass flags m handle call).bind fun r =>
        followHandle r.2 (meter.call m call r.1) calls

/-- **Every successful read returns what the meter shows**, for a handle that is allocated in `m₀`. -/
def ReadsMeter (m₀ : Moment w n) (bound : Bool) (calls : List (HandleCall w n × Moment w n)) :
    Prop :=
  ∀ handle, handleAlloc varClass flags m₀ bound = .ok handle →
    ∀ before m after, calls = before ++ (.read, m) :: after →
      ∃ handle' meter,
        followHandle varClass flags handle (Meter.begin flags m₀) before = some (handle', meter) ∧
          ∀ values handle'', handleStep varClass flags m handle' .read =
            some (.ok (some values), handle'') → values = meter.value m.counter

/-- A start that is accepted, and a reset of a handle that is running, can look at the counter. -/
def SafeHandleCall (handle : PvarHandle w n) (m : Moment w n) : HandleCall w n → Prop
  | .start => flags.continuous = false → handle.started = false → m.invalid = false →
      m.notify = 0 → m.failed = none
  | .reset => isRunning flags handle = true → m.invalid = false → m.failed = none
  | _ => True

/-- The calls are safe, one after the other. -/
def SafeCalls (handle : PvarHandle w n) : List (HandleCall w n × Moment w n) → Prop
  | [] => True
  | (call, m) :: calls => SafeHandleCall flags handle m call ∧
      ∀ ret handle', handleStep varClass flags m handle call = some (ret, handle') →
        SafeCalls handle' calls

end Run

/-! ### The calls, on a sum -/

section Sum

variable {w n : ℕ} {varClass : PvarClass} {flags : PvarFlags} {m : Moment w n}
  {handle : PvarHandle w n} {meter : Meter (PvarValues w n)}

/-- The buffers of a handle keep up with its meter. -/
def TracksHandle (flags : PvarFlags) (meter : Meter (PvarValues w n)) (handle : PvarHandle w n) :
    Prop :=
  meter.Tracks (isRunning flags handle) handle.currentValue handle.lastValue

/-- An update keeps up with the meter, and where it succeeds the current value is the one of now. -/
lemma handleUpdate_spec (hsum : varClass.isSum = true) (h : TracksHandle flags meter handle) :
    ∃ ret handle', handleUpdate varClass flags m handle = (ret, handle') ∧
      TracksHandle flags meter handle' ∧ handle'.started = handle.started ∧
        (ret = .ok () → meter.value m.counter = handle'.currentValue ∧
          (isRunning flags handle = true → handle'.lastValue = m.counter)) := by
  rw [handleUpdate]
  by_cases hinvalid : m.invalid = true
  · rw [if_pos hinvalid]
    exact ⟨_, _, rfl, h, rfl, nofun⟩
  · rw [if_neg hinvalid]
    cases hrunning : isRunning flags handle with
    | false =>
        rw [if_pos (by rfl)]
        refine ⟨_, _, rfl, h, rfl, fun _ => ⟨?_, nofun⟩⟩
        rw [h.value, hrunning, if_neg Bool.false_ne_true, add_zero]
    | true =>
        rw [if_neg (by decide), if_pos (by rw [hsum, Bool.true_or])]
        cases hfailed : m.failed with
        | some failed =>
            simp only [getValue, hfailed]
            exact ⟨_, _, rfl, h, rfl, nofun⟩
        | none =>
            have htracks : meter.Tracks true handle.currentValue handle.lastValue := hrunning ▸ h
            simp only [getValue, hfailed, hsum]
            refine ⟨_, _, rfl, ?_, rfl, fun _ => ⟨?_, fun _ => rfl⟩⟩
            · have hrunning' : handle.started || flags.continuous := hrunning
              rw [TracksHandle, isRunning, hrunning']
              exact htracks.look m.counter
            · rw [htracks.value, if_pos rfl]

/-- A new handle keeps up with its meter. -/
lemma handleAlloc_tracks (hsum : varClass.isSum = true) {bound : Bool}
    (h : handleAlloc varClass flags m bound = .ok handle) :
    TracksHandle flags (Meter.begin flags m) handle := by
  rw [handleAlloc] at h
  split at h
  · cases h
  split at h
  · cases h
  split at h
  · cases h
  rw [hsum, Bool.true_or, Bool.true_and] at h
  cases hcontinuous : flags.continuous with
  | false =>
      rw [hcontinuous, if_neg Bool.false_ne_true] at h
      rw [← Except.ok.inj h, TracksHandle, isRunning, hcontinuous]
      refine ⟨by simp [Meter.begin, hcontinuous], fun now => ?_⟩
      simp [Meter.value, Meter.begin, hcontinuous]
  | true =>
      rw [hcontinuous, if_pos rfl] at h
      cases hfailed : m.failed with
      | some failed =>
          rw [getValue, hfailed] at h
          cases h
      | none =>
          rw [getValue, hfailed] at h
          dsimp only at h
          rw [← Except.ok.inj h, TracksHandle, isRunning, hcontinuous]
          refine ⟨by simp [Meter.begin, hcontinuous], fun now => ?_⟩
          simp [Meter.value, Meter.begin, hcontinuous]

/-- A start that is safe. -/
lemma handleStart_tracks (hsum : varClass.isSum = true) (h : TracksHandle flags meter handle)
    (hsafe : SafeHandleCall flags handle m .start) :
    ∃ ret handle', handleStep varClass flags m handle .start = some (ret, handle') ∧
      TracksHandle flags (meter.call m .start ret) handle' := by
  rw [handleStep, handleStart]
  cases hcontinuous : flags.continuous with
  | true => exact ⟨_, _, rfl, h⟩
  | false =>
      cases hstarted : handle.started with
      | true => exact ⟨_, _, rfl, h⟩
      | false =>
          rw [if_neg (by decide)]
          by_cases hinvalid : m.invalid = true
          · rw [notify, if_pos hinvalid]
            exact ⟨_, _, rfl, h⟩
          rw [notify, if_neg hinvalid]
          by_cases hnotify : m.notify = 0
          · rw [if_neg (not_not.mpr hnotify)]
            have hfailed := hsafe hcontinuous hstarted (Bool.eq_false_iff.mpr hinvalid) hnotify
            have hclosed : isRunning flags handle = false := by
              rw [isRunning, hcontinuous, hstarted]
              rfl
            rw [TracksHandle, hclosed] at h
            simp only [hsum, getValue, hfailed, if_true]
            refine ⟨_, _, rfl, ?_⟩
            rw [TracksHandle, isRunning, Bool.true_or]
            exact h.start m.counter
          · rw [if_pos hnotify]
            exact ⟨_, _, rfl, h⟩

/-- A stop. -/
lemma handleStop_tracks (hsum : varClass.isSum = true) (h : TracksHandle flags meter handle) :
    ∃ ret handle', handleStep varClass flags m handle .stop = some (ret, handle') ∧
      TracksHandle flags (meter.call m .stop ret) handle' := by
  rw [handleStep, handleStop]
  by_cases hinvalid : m.invalid = true
  · rw [if_pos hinvalid]
    exact ⟨_, _, rfl, h⟩
  rw [if_neg hinvalid]
  cases hcontinuous : flags.continuous with
  | true =>
      rw [Bool.or_true, if_pos rfl]
      exact ⟨_, _, rfl, h⟩
  | false =>
      cases hrunning : isRunning flags handle with
      | false => exact ⟨_, _, rfl, h⟩
      | true =>
          rw [if_neg (by decide)]
          obtain ⟨ret, handle', hupdate, htracks, hstarted, hok⟩ :=
            handleUpdate_spec (m := m) hsum h
          rw [hupdate]
          cases ret with
          | error rc => exact ⟨_, _, rfl, htracks⟩
          | ok =>
              obtain ⟨-, hlast⟩ := hok rfl
              have hrunning' : isRunning flags handle' = true := by
                rw [isRunning, hstarted]
                exact hrunning
              rw [TracksHandle, hrunning'] at htracks
              refine ⟨_, _, rfl, ?_⟩
              have hstop := htracks.stop m.counter handle'.lastValue
              rw [hlast hrunning, sub_self, add_zero] at hstop
              rw [TracksHandle, isRunning, Bool.false_or, hcontinuous, hlast hrunning]
              exact hstop

/-- A read, with the value of now. -/
lemma handleRead_tracks (hsum : varClass.isSum = true) (h : TracksHandle flags meter handle) :
    ∃ ret handle', handleStep varClass flags m handle .read = some (ret, handle') ∧
      TracksHandle flags (meter.call m .read ret) handle' ∧
        ∀ values, ret = .ok (some values) → values = meter.value m.counter := by
  rw [handleStep, handleReadValue]
  by_cases hinvalid : m.invalid = true
  · rw [if_pos hinvalid]
    exact ⟨_, _, rfl, h, nofun⟩
  rw [if_neg hinvalid]
  obtain ⟨ret, handle', hupdate, htracks, -, hok⟩ := handleUpdate_spec (m := m) hsum h
  rw [hupdate]
  cases ret with
  | error rc => exact ⟨_, _, rfl, htracks, nofun⟩
  | ok =>
      simp only [hsum, Bool.true_or, if_pos]
      refine ⟨_, _, rfl, htracks, fun values hvalues => ?_⟩
      rw [(hok rfl).1]
      exact (Option.some.inj (Except.ok.inj hvalues)).symm

/-- A write. -/
lemma handleWrite_tracks (hsum : varClass.isSum = true) (h : TracksHandle flags meter handle)
    (value : PvarValues w n) :
    ∃ ret handle', handleStep varClass flags m handle (.write value) = some (ret, handle') ∧
      TracksHandle flags (meter.call m (.write value) ret) handle' := by
  rw [handleStep, handleWriteValue]
  by_cases hinvalid : m.invalid = true
  · rw [if_pos hinvalid]
    exact ⟨_, _, rfl, h⟩
  rw [if_neg hinvalid]
  by_cases hreadonly : flags.readonly = true
  · rw [if_pos hreadonly]
    exact ⟨_, _, rfl, h⟩
  rw [if_neg hreadonly]
  obtain ⟨ret, handle', hupdate, htracks, hstarted, hok⟩ := handleUpdate_spec (m := m) hsum h
  rw [hupdate]
  cases ret with
  | error rc => exact ⟨_, _, rfl, htracks⟩
  | ok =>
      obtain ⟨-, hlast⟩ := hok rfl
      simp only [hasCurrentValue, hsum, Bool.or_true, Bool.true_or, if_pos]
      refine ⟨_, _, rfl, ?_⟩
      have hset := htracks.set value m.counter
      have hsame : isRunning flags handle' = isRunning flags handle := by
        rw [isRunning, hstarted, isRunning]
      cases hrunning : isRunning flags handle with
      | true =>
          show (meter.set value m.counter).Tracks (isRunning flags handle') value handle'.lastValue
          rw [hlast hrunning]
          exact hset
      | false =>
          rw [hsame, hrunning] at hset
          rw [TracksHandle, isRunning, hstarted, ← isRunning, hrunning]
          exact hset.idle _

/-- A reset that is safe. -/
lemma handleReset_tracks (hsum : varClass.isSum = true) (h : TracksHandle flags meter handle)
    (hsafe : SafeHandleCall flags handle m .reset) :
    ∃ ret handle', handleStep varClass flags m handle .reset = some (ret, handle') ∧
      TracksHandle flags (meter.call m .reset ret) handle' := by
  rw [handleStep, handleReset]
  by_cases hinvalid : m.invalid = true
  · rw [if_pos hinvalid]
    exact ⟨_, _, rfl, h⟩
  rw [if_neg hinvalid, if_pos hsum]
  have hset := h.set 0 m.counter
  cases hrunning : isRunning flags handle with
  | true =>
      have hfailed := hsafe hrunning (Bool.eq_false_iff.mpr hinvalid)
      have hrunning' : isRunning flags { handle with currentValue := 0 } = true := hrunning
      rw [if_pos hrunning']
      simp only [getValue, hfailed]
      exact ⟨_, _, rfl, hset⟩
  | false =>
      have hrunning' : ¬ isRunning flags { handle with currentValue := 0 } = true := by
        rw [Bool.not_eq_true]
        exact hrunning
      rw [if_neg hrunning']
      refine ⟨_, _, rfl, ?_⟩
      rw [hrunning] at hset
      rw [TracksHandle, Bool.eq_false_iff.mpr hrunning']
      exact hset.idle _

/-- Every call that is safe keeps up with the meter. -/
lemma handleStep_tracks (hsum : varClass.isSum = true) (h : TracksHandle flags meter handle)
    {call : HandleCall w n} (hsafe : SafeHandleCall flags handle m call) :
    ∃ ret handle', handleStep varClass flags m handle call = some (ret, handle') ∧
      TracksHandle flags (meter.call m call ret) handle' := by
  cases call with
  | start => exact handleStart_tracks hsum h hsafe
  | stop => exact handleStop_tracks hsum h
  | update =>
      obtain ⟨ret, handle', hupdate, htracks, -⟩ := handleUpdate_spec (m := m) hsum h
      rw [handleStep, hupdate]
      refine ⟨_, _, rfl, ?_⟩
      cases ret with
      | error rc => exact htracks
      | ok => exact htracks
  | read =>
      obtain ⟨ret, handle', hstep, htracks, -⟩ := handleRead_tracks (m := m) hsum h
      exact ⟨ret, handle', hstep, htracks⟩
  | write value => exact handleWrite_tracks hsum h value
  | reset => exact handleReset_tracks hsum h hsafe

/-- What safe calls come to. -/
lemma followHandle_tracks (hsum : varClass.isSum = true) (h : TracksHandle flags meter handle)
    {before calls : List (HandleCall w n × Moment w n)}
    (hsafe : SafeCalls varClass flags handle (before ++ calls)) :
    ∃ handle' meter', followHandle varClass flags handle meter before = some (handle', meter') ∧
      TracksHandle flags meter' handle' := by
  induction before generalizing handle meter with
  | nil => exact ⟨handle, meter, rfl, h⟩
  | cons call before ih =>
      obtain ⟨hcall, hrest⟩ := hsafe
      obtain ⟨ret, handle₁, hstep, htracks⟩ := handleStep_tracks hsum h hcall
      obtain ⟨handle', meter', hrun, h'⟩ := ih htracks (hrest ret handle₁ hstep)
      refine ⟨handle', meter', ?_, h'⟩
      rw [followHandle, hstep, Option.bind_some]
      exact hrun

end Sum

/-- **In which runs a handle measures the running intervals**: where no start that is accepted, and
no reset of a running handle, fails to look at the counter. -/
theorem reads_meter {w n : ℕ} {varClass : PvarClass} {flags : PvarFlags} {m₀ : Moment w n}
    {bound : Bool} {calls : List (HandleCall w n × Moment w n)} (hsum : varClass.isSum = true)
    (hsafe : ∀ handle, handleAlloc varClass flags m₀ bound = .ok handle →
      SafeCalls varClass flags handle calls) :
    ReadsMeter varClass flags m₀ bound calls := by
  rintro handle halloc before m after rfl
  obtain ⟨handle', meter, hrun, htracks⟩ :=
    followHandle_tracks hsum (handleAlloc_tracks hsum halloc) (hsafe handle halloc)
  refine ⟨handle', meter, hrun, fun values handle'' hread => ?_⟩
  obtain ⟨ret, _, hstep, -, hvalues⟩ := handleRead_tracks (m := m) hsum htracks
  rw [hread] at hstep
  cases hstep
  exact hvalues values rfl

/-- A moment at which the counter is at `5`, and `get_value` fails or does not. -/
def counterFive (failed : Option (ℤ × PvarValues 32 1)) : Moment 32 1 :=
  { invalid := false, counter := fun _ => 5, failed, notify := 0 }

theorem reads_meter_started :
    ReadsMeter .counter {} (counterFive none) true
      [(.start, counterFive none), (.read, counterFive none)] := by
  refine reads_meter rfl fun handle halloc => ?_
  obtain rfl := Except.ok.inj halloc
  exact ⟨fun _ _ _ _ => rfl, fun ret handle' _ => ⟨trivial, fun _ _ _ => trivial⟩⟩

/-- **A start that fails.** The counter does not move; the handle has not been started, but is read
as running since the counter was at `0`. -/
theorem reads_meter_failed_start_fails :
    ¬ ReadsMeter .counter {} (counterFive none) true
      [(.start, counterFive (some (1, 0))), (.read, counterFive none)] := by
  intro h
  obtain ⟨handle', meter, hrun, hread⟩ := h _ rfl [(.start, counterFive (some (1, 0)))] _ [] rfl
  cases hrun
  have hfive := hread _ _ rfl
  exact absurd (congrFun hfive 0) (by decide)

end Ocoms
