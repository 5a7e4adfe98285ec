import Ocoms.Lib.CInt
import Ocoms.Mca.VarGroup

/-!
Frameworks: `mca_base_framework.c`, with `mca_base_components_open.c`.

* A call comes with what everything outside answers in it: the variable system, the search for
  components, the functions of the framework and of its components. `none` is undefined behaviour.
* `FrameworkState.opened` says whether the components in the list are open. It is what the functions
  are about, and not in the source.
* `runFramework` counts the opens that have succeeded and were not closed. `CallRight` is what a call
  has to do with the count, and `framework_calls_right` says in which runs every call does it:
  `SafeRun`.
-/

namespace Ocoms

/-- `mca_base_framework_t`, the part that does not change: whether the framework registers no
variables, and which of its functions are not `NULL`. -/
structure Framework where
  noregister : Bool
  hasRegister : Bool
  hasOpen : Bool
  hasClose : Bool

/-- `mca_base_framework_t`, the part that changes. `group` says whether the variable group of the
framework is valid, `output` whether its output is open. -/
structure FrameworkState (C : Type*) where
  refcnt : ℤ
  registered : Bool
  group : Bool
  output : Bool
  verbose : ℤ
  components : List C
  opened : Bool

/-- What is answered in `mca_base_framework_register`: whether the group and the two variables are
registered, the verbosity behind that, what the register function returns, and the components that
are found and registered. -/
structure RegisterAnswers (C : Type*) where
  group : Except Rc Unit
  selection : Except Rc Unit
  verbose : Except Rc ℤ
  register : Except Rc Unit
  components : Except Rc (List C)

/-- What is answered in `mca_base_framework_open`. `findComponents` is a flag of the caller; `find` is
the search for components, `filter` what `mca_base_components_filter` returns and leaves, `opens` says
which components open. `openFunction` is the function of the framework, with the components it has
opened: where it fails, it has opened none. -/
structure OpenAnswers (C : Type*) where
  registration : RegisterAnswers C
  findComponents : Bool
  find : Except Rc (List C)
  filter : List C → Except Rc Unit × List C
  opens : C → Bool
  openFunction : Except Rc (List C)

/-- A call, with the answers. In a close there is only what the function of the framework returns. -/
inductive FrameworkCall (C : Type*)
  | open (answers : OpenAnswers C)
  | close (answer : Except Rc Unit)

/-! ### The functions -/

section Functions

variable {C : Type*} (framework : Framework)

/-- `framework_open_output`. -/
def frameworkOpenOutput (s : FrameworkState C) : FrameworkState C :=
  { s with output := 0 < s.verbose }

/-- `framework_close_output`. -/
def frameworkCloseOutput (s : FrameworkState C) : FrameworkState C := { s with output := false }

/-- `mca_base_framework_register`. -/
def frameworkRegister (answers : RegisterAnswers C) (s : FrameworkState C) :
    Except Rc Unit × FrameworkState C :=
  if s.registered then (.ok (), s)
  else if framework.noregister then (.ok (), { s with registered := true })
  else
    match answers.group with
    | .error rc => (.error rc, s)
    | .ok () =>
        let s := { s with group := true }
        match answers.selection with
        | .error rc => (.error rc, s)
        | .ok () =>
            match answers.verbose with
            | .error rc => (.error rc, s)
            | .ok verbose =>
                let s := frameworkOpenOutput { s with verbose }
                match if framework.hasRegister then answers.register else .ok () with
                | .error rc => (.error rc, s)
                | .ok () =>
                    match answers.components with
                    | .error rc => (.error rc, s)
                    | .ok components => (.ok (), { s with components, registered := true })

/-- `open_components`: components that do not open are closed and removed. -/
def openComponents (answers : OpenAnswers C) (s : FrameworkState C) :
    Except Rc Unit × FrameworkState C :=
  match answers.filter s.components with
  | (.error rc, components) => (.error rc, { s with components })
  | (.ok (), components) =>
      (.ok (), { s with components := components.filter answers.opens, opened := true })

/-- `mca_base_framework_components_open`. -/
def componentsOpen (answers : OpenAnswers C) (findComponents : Bool) (s : FrameworkState C) :
    Except Rc Unit × FrameworkState C :=
  if findComponents then
    match answers.find with
    | .error rc => (.error rc, s)
    | .ok components => openComponents answers { s with components }
  else openComponents answers s

/-- `mca_base_framework_open`. -/
def frameworkOpen (answers : OpenAnswers C) (s : FrameworkState C) :
    Option (Except Rc Unit × FrameworkState C) :=
  -- The count is an `int`.
  if s.refcnt = CInt.max then none
  else
    let refcnt := s.refcnt
    let s := { s with refcnt := s.refcnt + 1 }
    if refcnt ≠ 0 then some (.ok (), s)
    else
      match frameworkRegister framework answers.registration s with
      | (.error rc, s) => some (.error rc, s)
      | (.ok (), s) =>
          let findComponents := answers.findComponents || framework.noregister
          let s := frameworkOpenOutput s
          let (ret, s) :=
            if framework.hasOpen then
              match answers.openFunction with
              | .error rc => (.error rc, s)
              | .ok components => (.ok (), { s with components, opened := true })
            else componentsOpen answers findComponents s
          if ret ≠ .ok () then some (ret, { s with refcnt := 0 }) else some (ret, s)

/-- `mca_base_framework_close`. -/
def frameworkClose (answer : Except Rc Unit) (s : FrameworkState C) :
    Option (Except Rc Unit × FrameworkState C) :=
  let isOpen := s.refcnt ≠ 0
  if !s.registered ∧ s.refcnt = 0 then some (.ok (), s)
  else
    let s := if s.refcnt ≠ 0 then { s with refcnt := s.refcnt - 1 } else s
    if isOpen ∧ s.refcnt ≠ 0 then some (.ok (), s)
    else
      let s := if s.group then { s with group := false, registered := false } else s
      if isOpen then
        let s := { s with components := [], opened := false }
        match if framework.hasClose then answer else .ok () with
        | .error rc => some (.error rc, s)
        | .ok () => some (.ok (), frameworkCloseOutput { s with registered := false })
      -- A list item that is left is taken for a component.
      else if s.components ≠ [] then none
      else some (.ok (), frameworkCloseOutput { s with registered := false })

/-- A call. -/
def frameworkStep (s : FrameworkState C) :
    FrameworkCall C → Option (Except Rc Unit × FrameworkState C)
  | .open answers => frameworkOpen framework answers s
  | .close answer => frameworkClose framework answer s

/-- The framework that `MCA_BASE_FRAMEWORK_DECLARE` declares. -/
def FrameworkState.init : FrameworkState C :=
  { refcnt := 0, registered := false, group := false, output := false, verbose := 0,
    components := [], opened := false }

/-! ### Runs -/

/-- The opens that have succeeded and were not closed, behind one more call. -/
def tally (n : ℕ) : FrameworkCall C → Except Rc Unit → ℕ
  | .open _, .ok () => n + 1
  | .open _, .error _ => n
  | .close _, _ => n - 1

/-- Some calls, with their tally. -/
def runFramework (s : FrameworkState C) (n : ℕ) :
    List (FrameworkCall C) → Option (FrameworkState C × ℕ)
  | [] => some (s, n)
  | call :: calls =>
      (frameworkStep framework s call).bind fun r => runFramework r.2 (tally n call r.1) calls

/-- **What a call has to do**, behind opens that exceed the closes by `n`. -/
structure CallRight (s : FrameworkState C) (n : ℕ) (call : FrameworkCall C) (ret : Except Rc Unit)
    (s' : FrameworkState C) : Prop where
  opened : s'.opened = true ↔ 0 < tally n call ret
  refcnt : s'.refcnt = tally n call ret
  failed : ∀ answers rc, call = .open answers → ret = .error rc → s'.refcnt = s.refcnt
  nested : ∀ answer, call = .close answer → 1 < s.refcnt →
    ret = .ok () ∧ s' = { s with refcnt := s.refcnt - 1 }

/-- Every call of a run does what it has to do. -/
def CallsRight (calls : List (FrameworkCall C)) : Prop :=
  ∀ before call after, calls = before ++ call :: after →
    ∃ s n ret s', runFramework framework .init 0 before = some (s, n) ∧
      frameworkStep framework s call = some (ret, s') ∧ CallRight s n call ret s'

/-- Everything that has to be registered is. -/
def RegisterAnswers.Succeed (answers : RegisterAnswers C) : Prop :=
  answers.group = .ok () ∧ answers.selection = .ok () ∧ (∃ verbose, answers.verbose = .ok verbose) ∧
    (framework.hasRegister = true → answers.register = .ok ()) ∧
    ∃ components, answers.components = .ok components

/-- A call that is safe in a state: an open that has to register succeeds in it, and a close without
an open finds no components that are registered. -/
def Safe (s : FrameworkState C) : FrameworkCall C → Prop
  | .open answers => s.refcnt ≠ CInt.max ∧
      (s.refcnt = 0 → s.registered = false → framework.noregister = false →
        answers.registration.Succeed framework)
  | .close _ => s.refcnt = 0 → s.registered = true → s.components = []

/-- The calls are safe, one after the other. -/
def SafeRun (s : FrameworkState C) : List (FrameworkCall C) → Prop
  | [] => True
  | call :: calls => Safe framework s call ∧
      ∀ ret s', frameworkStep framework s call = some (ret, s') → SafeRun s' calls

end Functions

/-! ### The steps -/

section Steps

variable {C : Type*} {framework : Framework} {s s' : FrameworkState C} {n : ℕ}

/-- A registration changes neither the count nor whether the components are open. -/
lemma frameworkRegister_frame (framework : Framework) (answers : RegisterAnswers C)
    (s : FrameworkState C) :
    (frameworkRegister framework answers s).2.refcnt = s.refcnt ∧
      (frameworkRegister framework answers s).2.opened = s.opened := by
  rw [frameworkRegister]
  repeat' split
  all_goals exact ⟨rfl, rfl⟩

/-- A registration that has nothing to do, or whose answers are right, succeeds. -/
lemma frameworkRegister_ok {answers : RegisterAnswers C}
    (h : s.registered = false → framework.noregister = false → answers.Succeed framework) :
    (frameworkRegister framework answers s).1 = .ok () := by
  rw [frameworkRegister]
  by_cases hregistered : s.registered = true
  · rw [if_pos hregistered]
  · rw [if_neg hregistered]
    by_cases hno : framework.noregister = true
    · rw [if_pos hno]
    · rw [if_neg hno]
      obtain ⟨hgroup, hselection, ⟨verbose, hverbose⟩, hregister, ⟨components, hcomponents⟩⟩ :=
        h (Bool.eq_false_iff.mpr hregistered) (Bool.eq_false_iff.mpr hno)
      have hfunction : (if framework.hasRegister then answers.register else .ok ()) = .ok () := by
        split
        case isTrue hhas => exact hregister hhas
        case isFalse => rfl
      simp only [hgroup, hselection, hverbose, hfunction, hcomponents]

/-- Opening components leaves the count, and the components are open exactly if it succeeds. -/
lemma openComponents_spec (answers : OpenAnswers C) (s : FrameworkState C) :
    (openComponents answers s).2.refcnt = s.refcnt ∧
      ((openComponents answers s).1 = .ok () → (openComponents answers s).2.opened = true) ∧
      ((openComponents answers s).1 ≠ .ok () →
        (openComponents answers s).2.opened = s.opened) := by
  rw [openComponents]
  split
  · exact ⟨rfl, nofun, fun _ => rfl⟩
  · exact ⟨rfl, fun _ => rfl, fun h => absurd rfl h⟩

lemma componentsOpen_spec (answers : OpenAnswers C) (findComponents : Bool)
    (s : FrameworkState C) :
    (componentsOpen answers findComponents s).2.refcnt = s.refcnt ∧
      ((componentsOpen answers findComponents s).1 = .ok () →
        (componentsOpen answers findComponents s).2.opened = true) ∧
      ((componentsOpen answers findComponents s).1 ≠ .ok () →
        (componentsOpen answers findComponents s).2.opened = s.opened) := by
  rw [componentsOpen]
  split
  · split
    · exact ⟨rfl, nofun, fun _ => rfl⟩
    · exact openComponents_spec answers _
  · exact openComponents_spec answers s

/-- What holds between the calls. -/
structure FrameworkInv (s : FrameworkState C) (n : ℕ) : Prop where
  refcnt : s.refcnt = n
  opened : s.opened = true ↔ 0 < n

/-- What is done to open a framework, the components being closed. -/
lemma frameworkOpen_of_zero {answers : OpenAnswers C} (hrefcnt : s.refcnt = 0)
    (hopened : s.opened = false)
    (hregister : s.registered = false → framework.noregister = false →
      answers.registration.Succeed framework) :
    ∃ ret s', frameworkOpen framework answers s = some (ret, s') ∧
      ((ret = .ok () ∧ s'.refcnt = 1 ∧ s'.opened = true) ∨
        (ret ≠ .ok () ∧ s'.refcnt = 0 ∧ s'.opened = false)) := by
  have hmax : s.refcnt ≠ CInt.max := by
    rw [hrefcnt, CInt.max]
    decide
  rw [frameworkOpen, if_neg hmax]
  dsimp only
  rw [if_neg (not_not.mpr hrefcnt)]
  obtain ⟨hcount, hclosed⟩ := frameworkRegister_frame framework
    answers.registration { s with refcnt := s.refcnt + 1 }
  have hok := frameworkRegister_ok (s := { s with refcnt := s.refcnt + 1 }) hregister
  cases hreg : frameworkRegister framework answers.registration
    { s with refcnt := s.refcnt + 1 } with
  | mk ret s₁ =>
      rw [hreg] at hcount hclosed hok
      dsimp only at hcount hclosed hok
      rw [hrefcnt] at hcount
      rw [hopened] at hclosed
      subst hok
      dsimp only
      by_cases hfunction : framework.hasOpen = true
      · rw [if_pos hfunction]
        cases hopen : answers.openFunction with
        | error rc => exact ⟨_, _, rfl, .inr ⟨fun h => (by cases h), rfl, hclosed⟩⟩
        | ok components => exact ⟨_, _, rfl, .inl ⟨rfl, hcount, rfl⟩⟩
      · rw [if_neg hfunction]
        obtain ⟨hrefcnt', hsuccess, hfailure⟩ := componentsOpen_spec answers
          (answers.findComponents || framework.noregister) (frameworkOpenOutput s₁)
        by_cases hret : (componentsOpen answers (answers.findComponents || framework.noregister)
            (frameworkOpenOutput s₁)).1 = .ok ()
        · rw [if_neg (not_not.mpr hret)]
          exact ⟨_, _, rfl, .inl ⟨hret, hrefcnt'.trans hcount, hsuccess hret⟩⟩
        · rw [if_pos hret]
          exact ⟨_, _, rfl, .inr ⟨hret, rfl, (hfailure hret).trans hclosed⟩⟩

lemma callRight_open_ok (answers : OpenAnswers C) (hopened : s'.opened = true)
    (hrefcnt : s'.refcnt = n + 1) : CallRight s n (.open answers) (.ok ()) s' where
  opened := iff_of_true hopened (Nat.succ_pos n)
  refcnt := hrefcnt.trans (Nat.cast_succ n).symm
  failed _ _ _ h := by cases h
  nested _ h := by cases h

lemma callRight_close {answer ret : Except Rc Unit}
    (hopened : s'.opened = true ↔ 0 < n - 1) (hrefcnt : s'.refcnt = (n - 1 : ℕ))
    (hnested : 1 < s.refcnt → ret = .ok () ∧ s' = { s with refcnt := s.refcnt - 1 }) :
    CallRight s n (.close answer) ret s' where
  opened := hopened
  refcnt := hrefcnt
  failed _ _ h := by cases h
  nested _ _ := hnested

/-- An open call. -/
lemma FrameworkInv.open {answers : OpenAnswers C} (h : FrameworkInv s n)
    (hsafe : Safe framework s (.open answers)) :
    ∃ ret s', frameworkStep framework s (.open answers) = some (ret, s') ∧
      CallRight s n (.open answers) ret s' := by
  obtain ⟨hmax, hregister⟩ := hsafe
  rcases Nat.eq_zero_or_pos n with rfl | hpos
  · have hrefcnt : s.refcnt = 0 := h.refcnt
    have hopened : s.opened = false := by
      rw [← Bool.not_eq_true, h.opened]
      exact lt_irrefl 0
    obtain ⟨ret, s', hstep, hcases⟩ := frameworkOpen_of_zero hrefcnt hopened (hregister hrefcnt)
    refine ⟨ret, s', hstep, ?_⟩
    rcases hcases with ⟨rfl, hrefcnt', hopened'⟩ | ⟨hret, hrefcnt', hopened'⟩
    · exact callRight_open_ok answers hopened' (hrefcnt'.trans (zero_add 1).symm)
    · cases ret with
      | ok => exact absurd rfl hret
      | error rc =>
          constructor
          case opened => exact iff_of_false (by rw [hopened']; decide) (lt_irrefl 0)
          case refcnt => exact hrefcnt'
          case failed => exact fun _ _ _ _ => hrefcnt'.trans hrefcnt.symm
          case nested =>
            intro _ hcall
            cases hcall
  · have hne : s.refcnt ≠ 0 := by
      rw [h.refcnt]
      omega
    refine ⟨.ok (), { s with refcnt := s.refcnt + 1 }, ?_, ?_⟩
    · rw [frameworkStep, frameworkOpen, if_neg hmax]
      exact if_pos hne
    · exact callRight_open_ok answers (h.opened.mpr hpos) (congrArg (· + 1) h.refcnt)

/-- A close call. -/
lemma FrameworkInv.close {answer : Except Rc Unit} (h : FrameworkInv s n)
    (hsafe : Safe framework s (.close answer)) :
    ∃ ret s', frameworkStep framework s (.close answer) = some (ret, s') ∧
      CallRight s n (.close answer) ret s' := by
  have hrefcnt := h.refcnt
  rw [frameworkStep, frameworkClose]
  dsimp only
  rcases Nat.lt_trichotomy n 1 with hzero | rfl | hmany
  · obtain rfl : n = 0 := by omega
    have hzero : s.refcnt = 0 := hrefcnt
    have hclosed : ¬ s.opened = true := fun hopened => lt_irrefl 0 (h.opened.mp hopened)
    have hright {s' : FrameworkState C} (hopened' : s'.opened = s.opened)
        (hrefcnt' : s'.refcnt = s.refcnt) : CallRight s 0 (.close answer) (.ok ()) s' :=
      callRight_close (iff_of_false (hopened' ▸ hclosed) (lt_irrefl 0)) (hrefcnt'.trans hzero)
        fun hlt => absurd hlt (by rw [hzero]; decide)
    cases hregistered : s.registered with
    | false =>
        rw [if_pos ⟨rfl, hzero⟩]
        exact ⟨_, _, rfl, hright rfl rfl⟩
    | true =>
        have hnil := hsafe hzero hregistered
        have hisOpen : ¬ s.refcnt ≠ 0 := not_not.mpr hzero
        rw [if_neg fun hnot => Bool.noConfusion hnot.1, if_neg fun hand => hisOpen hand.1,
          if_neg hisOpen, if_neg hisOpen]
        by_cases hgroup : s.group = true
        · rw [if_pos hgroup, if_neg (not_not.mpr hnil)]
          exact ⟨_, _, rfl, hright rfl rfl⟩
        · rw [if_neg hgroup, if_neg (not_not.mpr hnil)]
          exact ⟨_, _, rfl, hright rfl rfl⟩
  · have hone : s.refcnt = 1 := hrefcnt
    have hne : s.refcnt ≠ 0 := by omega
    have hright {ret : Except Rc Unit} {s' : FrameworkState C} (hopened' : s'.opened = false)
        (hrefcnt' : s'.refcnt = s.refcnt - 1) : CallRight s 1 (.close answer) ret s' :=
      callRight_close (iff_of_false (by rw [hopened']; decide) (lt_irrefl 0))
        (by rw [hrefcnt', hone]; rfl) fun hlt => by omega
    rw [if_neg fun hand => hne hand.2, if_pos hne, if_neg fun hand => hand.2 (by rw [hone]; rfl),
      if_pos hne]
    cases hret : if framework.hasClose then answer else .ok () with
    | error rc =>
        refine ⟨_, _, rfl, hright rfl ?_⟩
        split <;> rfl
    | ok =>
        refine ⟨_, _, rfl, hright rfl ?_⟩
        rw [frameworkCloseOutput]
        split <;> rfl
  · have hne : s.refcnt ≠ 0 := by omega
    have hrest : s.refcnt - 1 ≠ 0 := by omega
    rw [if_neg fun hand => hne hand.2, if_pos hne, if_pos ⟨hne, hrest⟩]
    refine ⟨_, _, rfl, callRight_close ?_ ?_ fun _ => ⟨rfl, rfl⟩⟩
    · rw [h.opened]
      omega
    · rw [Nat.cast_sub hmany.le]
      exact congrArg (· - 1) hrefcnt

/-- A safe call does what it has to do, and keeps what holds between the calls. -/
lemma FrameworkInv.step {call : FrameworkCall C} (h : FrameworkInv s n)
    (hsafe : Safe framework s call) :
    ∃ ret s', frameworkStep framework s call = some (ret, s') ∧ CallRight s n call ret s' := by
  cases call with
  | «open» answers => exact h.open hsafe
  | close answer => exact h.close hsafe

lemma CallRight.inv {call : FrameworkCall C} {ret : Except Rc Unit}
    (h : CallRight s n call ret s') : FrameworkInv s' (tally n call ret) :=
  ⟨h.refcnt, h.opened⟩

lemma frameworkInv_init : FrameworkInv (FrameworkState.init : FrameworkState C) 0 :=
  ⟨rfl, iff_of_false Bool.false_ne_true (lt_irrefl 0)⟩

/-- What a safe run has come to after its first calls. -/
lemma runFramework_of_safe {before calls : List (FrameworkCall C)} (h : FrameworkInv s n)
    (hsafe : SafeRun framework s (before ++ calls)) :
    ∃ s' n', runFramework framework s n before = some (s', n') ∧ FrameworkInv s' n' ∧
      SafeRun framework s' calls := by
  induction before generalizing s n with
  | nil => exact ⟨s, n, rfl, h, hsafe⟩
  | cons call before ih =>
      obtain ⟨hcall, hrest⟩ := hsafe
      obtain ⟨ret, s₁, hstep, hright⟩ := h.step hcall
      obtain ⟨s', n', hrun, h', hsafe'⟩ := ih hright.inv (hrest ret s₁ hstep)
      refine ⟨s', n', ?_, h', hsafe'⟩
      rw [runFramework, hstep, Option.bind_some]
      exact hrun

end Steps

/-- **In which runs the calls are counted.** Where no open fails to register, the count stays below
`INT_MAX`, and no close finds components that are registered and not open, every call does what it
has to do. -/
theorem framework_calls_right {C : Type*} (framework : Framework)
    (calls : List (FrameworkCall C)) (h : SafeRun framework .init calls) :
    CallsRight framework calls := by
  rintro before call after rfl
  obtain ⟨s, n, hrun, hinv, hsafe, -⟩ := runFramework_of_safe frameworkInv_init h
  obtain ⟨ret, s', hstep, hright⟩ := hinv.step hsafe
  exact ⟨s, n, ret, s', hrun, hstep, hright⟩

/-- A framework with variables and without functions. -/
def plainFramework : Framework :=
  { noregister := false, hasRegister := false, hasOpen := false, hasClose := false }

/-- The answers where the selection variable is registered or not, and one component opens. -/
def plainAnswers (selection : Except Rc Unit) : OpenAnswers Unit where
  registration :=
    { group := .ok (), selection, verbose := .ok 0, register := .ok (), components := .ok [()] }
  findComponents := false
  find := .ok []
  filter components := (.ok (), components)
  opens _ := true
  openFunction := .ok []

theorem framework_calls_right_nested :
    CallsRight plainFramework
      [.open (plainAnswers (.ok ())), .open (plainAnswers (.ok ())), .close (.ok ()),
        .close (.ok ())] := by
  refine framework_calls_right plainFramework _ ?_
  simp [SafeRun, Safe, frameworkStep, frameworkOpen, frameworkClose, frameworkRegister,
    componentsOpen, openComponents, RegisterAnswers.Succeed, plainFramework, plainAnswers,
    FrameworkState.init, frameworkOpenOutput, frameworkCloseOutput, CInt.max]

/-- **A registration that fails is counted.** The second open then succeeds with nothing open. -/
theorem framework_calls_right_unregistered_fails :
    (∃ s s', frameworkStep plainFramework .init (.open (plainAnswers (.error .error))) =
        some (.error .error, s) ∧
      frameworkStep plainFramework s (.open (plainAnswers (.ok ()))) = some (.ok (), s') ∧
        s'.opened = false) ∧
      ¬ CallsRight plainFramework [.open (plainAnswers (.error .error))] := by
  constructor
  · exact ⟨_, _, rfl, rfl, rfl⟩
  · intro h
    obtain ⟨s, n, ret, s', hrun, hstep, hright⟩ := h [] _ [] rfl
    cases hrun
    cases hstep
    exact absurd hright.refcnt (by decide)

end Ocoms
