import Ocoms.Util.CmdLine

/-!
What the command line parser does with all tokens: termination, and where each token goes.

* `tokensWeight` bounds the rounds of the loop: letters that are split come one by one, and are not
  split again.
* `Spelled`, `Expands` and `Ending` say what becomes of the tokens: those of the options that were
  used, with bundles expanded, and what the parser stopped at. `Lawful` puts them together.
* `Lacks` says that the tokens lead to an option without enough parameters. `ReadTo` is what the
  loop makes of the tokens from an index on.
* `cmd_line_parse_iff` and `bundle_parses_like_expansion` are the theorems.
-/

namespace Ocoms

/-! ### The specification -/

/-- `set_dest` takes the value: a number is one where the option has a variable for it. -/
def CmdLineOption.Accepts (option : CmdLineOption) (sval : CString) : Prop :=
  option.variableDest = none ∨ (option.type ≠ .int ∧ option.type ≠ .sizeT) ∨
    ∀ c ∈ sval, c.isDigit ∨ c = '-'

instance (option : CmdLineOption) (sval : CString) : Decidable (option.Accepts sval) :=
  inferInstanceAs (Decidable (_ ∨ _ ∨ _))

/-- The parameters of the option follow. -/
def HasParams (option : CmdLineOption) (rest : List CString) : Prop :=
  option.numParams ≤ rest.length ∧ specialEmptyToken ∉ rest.take option.numParams

instance (option : CmdLineOption) (rest : List CString) : Decidable (HasParams option rest) :=
  inferInstanceAs (Decidable (_ ∧ _))

/-- The first parameter of the option is there, and `set_dest` refuses it. -/
def Refuses (option : CmdLineOption) (rest : List CString) : Prop :=
  0 < option.numParams ∧
    ∃ param ∈ rest.head?, param ≠ specialEmptyToken ∧ ¬ option.Accepts param

instance (option : CmdLineOption) (rest : List CString) : Decidable (Refuses option rest) :=
  inferInstanceAs (Decidable (_ ∧ _))

/-- **Letters that are split**: they are not the name of an option, but the first of them is. -/
structure Splits (options : List CmdLineOption) (ignoreUnknown : Bool) (letter : Char)
    (letters : CString) (rest shortsv : List CString) (used : ℕ) : Prop where
  letter_ne : letter ≠ '-'
  name : findOption options (letter :: letters) = none
  first : findOption options [letter] ≠ none
  split : splitShorts options (letter :: letters) rest ignoreUnknown = .ok (shortsv, used)

/-- **A token that no option is named by.** -/
inductive Unknown (options : List CmdLineOption) (ignoreUnknown : Bool) : CString → Prop
  | long {name : CString} (hname : name ≠ []) (hfind : findOption options name = none) :
      Unknown options ignoreUnknown ('-' :: '-' :: name)
  | dash (hfind : findOption options [] = none) : Unknown options ignoreUnknown ['-']
  | letters {letter : Char} {letters : CString} (hletter : letter ≠ '-')
      (hfind : findOption options (letter :: letters) = none)
      (hunknown : findOption options [letter] = none ∨
        ignoreUnknown = false ∧ ∃ l ∈ letters, findOption options [l] = none) :
      Unknown options ignoreUnknown ('-' :: letter :: letters)

/-- **The tokens are those of the options**: each one named, and followed by all its parameters. -/
inductive Spelled (options : List CmdLineOption) : List CString → List CmdLineParam → Prop
  | nil : Spelled options [] []
  | cons {token : CString} (param : CmdLineParam) {tokens : List CString}
      {params : List CmdLineParam} (hnames : Names options token param.option)
      (hparams : param.argv.length = param.option.numParams)
      (hrest : Spelled options tokens params) :
      Spelled options (token :: (param.argv ++ tokens)) (param :: params)

/-- **The bundles among the tokens are expanded**, from the first on, and parameters left as they
are. -/
inductive Expands (options : List CmdLineOption) (ignoreUnknown : Bool) :
    List CString → List CString → Prop
  | refl (tokens : List CString) : Expands options ignoreUnknown tokens tokens
  | option {token : CString} {option : CmdLineOption} {params tokens tokens' : List CString}
      (hnames : Names options token option) (hparams : params.length = option.numParams)
      (hrest : Expands options ignoreUnknown tokens tokens') :
      Expands options ignoreUnknown (token :: (params ++ tokens)) (token :: (params ++ tokens'))
  | bundle {letter : Char} {letters : CString} {rest shortsv tokens : List CString} {used : ℕ}
      (hsplits : Splits options ignoreUnknown letter letters rest shortsv used)
      (hrest : Expands options ignoreUnknown (shortsv ++ rest.drop used) tokens) :
      Expands options ignoreUnknown (('-' :: letter :: letters) :: rest) tokens

/-- **What the parser stops at**, with its return value and the tail. Nothing is said about the tail
behind a value that `set_dest` refuses. -/
inductive Ending (options : List CmdLineOption) (ignoreUnknown : Bool) :
    List CString → CmdLineRc → List CString → Prop
  | finished : Ending options ignoreUnknown [] .success []
  | dashes (tail : List CString) :
      Ending options ignoreUnknown (['-', '-'] :: tail) .success tail
  | unknownToken {token : CString} (tokens : List CString) (htoken : token.head? ≠ some '-') :
      Ending options ignoreUnknown (token :: tokens) (if ignoreUnknown then .success else .silent)
        (token :: tokens)
  | unknownOption {token : CString} (tokens : List CString)
      (htoken : Unknown options ignoreUnknown token) :
      Ending options ignoreUnknown (token :: tokens) .silent (token :: tokens)
  | missing {token : CString} {option : CmdLineOption} {params : List CString}
      (hnames : Names options token option) (hparams : params.length < option.numParams) :
      Ending options ignoreUnknown (token :: params) .silent (token :: params)
  | refused {token : CString} {option : CmdLineOption} {rest : List CString}
      (hnames : Names options token option) (hrefuses : Refuses option rest)
      (tail : List CString) : Ending options ignoreUnknown (token :: rest) .silent tail

/-- **A lawful outcome**: the call returns, the tokens behind the first one are those of the options
that were used and then those that the parser stops at. -/
def Lawful (options : List CmdLineOption) (ignoreUnknown : Bool) (argv0 : CString)
    (tokens : List CString) (outcome : Outcome) : Prop :=
  ∃ rc cmd used rest, outcome = .returns rc cmd ∧ cmd.argv = argv0 :: (used ++ rest) ∧
    Expands options ignoreUnknown tokens (used ++ rest) ∧ Spelled options used cmd.params ∧
    Ending options ignoreUnknown rest rc cmd.tail

/-- **The tokens lead to an option without enough parameters**, or with a placeholder among them. -/
inductive Lacks (options : List CmdLineOption) (ignoreUnknown : Bool) : List CString → Prop
  | option {token : CString} {option : CmdLineOption} {rest : List CString}
      (hnames : Names options token option) (hparams : ¬ HasParams option rest)
      (hrefuses : ¬ Refuses option rest) : Lacks options ignoreUnknown (token :: rest)
  | later {token : CString} {option : CmdLineOption} {rest : List CString}
      (hnames : Names options token option) (hparams : HasParams option rest)
      (hrefuses : ¬ Refuses option rest)
      (hrest : Lacks options ignoreUnknown (rest.drop option.numParams)) :
      Lacks options ignoreUnknown (token :: rest)
  | bundle {letter : Char} {letters : CString} {rest shortsv : List CString} {used : ℕ}
      (hsplits : Splits options ignoreUnknown letter letters rest shortsv used)
      (hrest : Lacks options ignoreUnknown (shortsv ++ rest.drop used)) :
      Lacks options ignoreUnknown (('-' :: letter :: letters) :: rest)

section Parse

variable {options : List CmdLineOption} {ignoreUnknown : Bool} {option : CmdLineOption}
  {token letters : CString} {args front rest shortsv : List CString} {cmd : CmdLine}
  {world : CmdLineWorld}

/-! ### `set_dest` -/

/-- The return value depends on the value only. -/
lemma setDest_fst (option : CmdLineOption) (sval : CString) (world : CmdLineWorld) :
    (setDest option sval world).1 = if option.Accepts sval then .success else .silent := by
  have hall : (sval.all fun c => c.isDigit || c = '-') = true ↔
      ∀ c ∈ sval, c.isDigit ∨ c = '-' := by
    simp
  rw [setDest]
  cases hdest : option.variableDest with
  | none => rw [if_pos (.inl hdest)]
  | some address =>
      have hnumber : option.type = .int ∨ option.type = .sizeT →
          (option.Accepts sval ↔ ∀ c ∈ sval, c.isDigit ∨ c = '-') := by
        intro htype
        rw [CmdLineOption.Accepts, hdest]
        constructor
        · rintro (hcontra | ⟨hint, hsize⟩ | hsval)
          · cases hcontra
          · exact (htype.elim hint hsize).elim
          · exact hsval
        · exact fun hsval => .inr (.inr hsval)
      cases htype : option.type with
      | int =>
          dsimp only
          simp only [hnumber (.inl htype), ← hall]
          split <;> rfl
      | sizeT =>
          dsimp only
          simp only [hnumber (.inr htype), ← hall]
          split <;> rfl
      | null => rw [if_pos (.inr (.inl (by rw [htype]; exact ⟨nofun, nofun⟩)))]
      | string => rw [if_pos (.inr (.inl (by rw [htype]; exact ⟨nofun, nofun⟩)))]
      | bool => rw [if_pos (.inr (.inl (by rw [htype]; exact ⟨nofun, nofun⟩)))]

/-- The value of an option without parameters is a number. -/
lemma accepts_one (option : CmdLineOption) : option.Accepts ['1'] := by
  refine .inr (.inr fun c hc => .inl ?_)
  rw [List.mem_singleton.mp hc]
  rfl

/-! ### The parameters of an option -/

/-- A parameter is missing behind the first one. -/
lemma readParams_lacking (option : CmdLineOption) (n : ℕ) (params rest : List CString)
    (hparams : params ≠ [])
    (hlacking : ¬ (n ≤ rest.length ∧ specialEmptyToken ∉ rest.take n)) (front : List CString)
    (world : CmdLineWorld) :
    readParams option (front ++ rest) n params front.length world = .undefined ∨
      readParams option (front ++ rest) n params front.length world
        = .missing (front ++ rest).length world := by
  induction n generalizing params rest front with
  | zero => exact absurd ⟨Nat.zero_le _, by simp⟩ hlacking
  | succ n ih =>
      cases rest with
      | nil =>
          refine .inr ?_
          have hnone : (front ++ [])[front.length]? = none := by simp
          rw [readParams, hnone, List.append_nil]
      | cons param rest =>
          rw [readParams, Cells.getElem?_append_cons]
          dsimp only
          by_cases hparam : param = specialEmptyToken
          · exact .inl (by rw [if_pos hparam, if_neg hparams])
          · have hnext := ih (params ++ [param]) rest
              (List.append_ne_nil_of_left_ne_nil hparams [param])
              (fun hcomplete => hlacking ⟨Nat.succ_le_succ hcomplete.1, by
                rw [List.take_succ_cons]
                exact fun hmem => (List.mem_cons.mp hmem).elim (fun heq => hparam heq.symm)
                  hcomplete.2⟩) (front ++ [param])
            rw [List.length_append, List.append_assoc] at hnext
            rw [if_neg hparam, if_neg fun hcontra => hparams hcontra.1]
            exact hnext

/-- **An option with all its parameters.** -/
lemma takeOption_read (hparams : HasParams option rest) (hrefuses : ¬ Refuses option rest)
    (hargv : cmd.argv = front ++ token :: rest) :
    ∃ world, takeOption option front.length cmd
      = .next (front.length + 1 + option.numParams)
        { cmd with
          params := cmd.params ++ [⟨option, rest.take option.numParams⟩], world := world } := by
  have hlength : (rest.take option.numParams).length = option.numParams :=
    List.length_take_of_le hparams.1
  have haccepts : (setFirst option (rest.take option.numParams) cmd.world).1 = .success := by
    cases hcount : option.numParams with
    | zero => rw [List.take_zero, setFirst, setDest_fst, if_pos (accepts_one option)]
    | succ n =>
        cases rest with
        | nil =>
            have hle := hparams.1
            rw [hcount] at hle
            cases hle
        | cons param rest =>
            have hspecial := hparams.2
            rw [hcount, List.take_succ_cons] at hspecial
            rw [List.take_succ_cons, setFirst]
            split
            · rw [setDest_fst, if_pos]
              by_contra hno
              refine hrefuses ⟨hcount ▸ Nat.succ_pos n, param, rfl, fun heq => hspecial ?_, hno⟩
              exact heq ▸ List.mem_cons_self
            · rfl
  rw [← List.take_append_drop option.numParams rest] at hargv
  rw [takeOption_complete hlength hparams.2 hargv, if_pos haccepts, hlength]
  exact ⟨_, rfl⟩

/-- **An option whose first parameter is refused.** -/
lemma takeOption_refused (hrefuses : Refuses option rest)
    (hargv : cmd.argv = front ++ token :: rest) :
    ∃ world, takeOption option front.length cmd
      = .stop (.returns .silent { cmd with world := world }) := by
  obtain ⟨hpos, param, hhead, hspecial, hno⟩ := hrefuses
  obtain ⟨more, rfl⟩ := List.head?_eq_some_iff.mp hhead
  obtain ⟨n, hcount⟩ := Nat.exists_eq_succ_of_ne_zero hpos.ne'
  have hdest : option.variableDest ≠ none := fun hnone => hno (.inl hnone)
  have hrc : (setFirst option [param] cmd.world).1 = .silent := by
    rw [setFirst, if_pos (.inr hdest), setDest_fst, if_neg hno]
  have hfirst := readParams_first hspecial option n token front more [] cmd.world
  rw [hrc, if_neg (fun h => by cases h)] at hfirst
  refine ⟨(setFirst option [param] cmd.world).2, ?_⟩
  rw [takeOption, hargv, hcount, hfirst]

/-- **An option without enough parameters.** -/
lemma takeOption_lacking (hparams : ¬ HasParams option rest) (hrefuses : ¬ Refuses option rest)
    (hargv : cmd.argv = front ++ token :: rest) :
    takeOption option front.length cmd = .stop .undefined ∨
      ∃ k world, takeOption option front.length cmd
        = .stop (.returns .silent
          { cmd with world := world, tail := cmd.tail ++ rest.drop k }) := by
  cases hcount : option.numParams with
  | zero => exact absurd ⟨hcount ▸ Nat.zero_le _, by rw [hcount]; simp⟩ hparams
  | succ n =>
      cases rest with
      | nil =>
          refine .inr ⟨0, cmd.world, ?_⟩
          have hnone : (front ++ [token])[front.length + 1]? = none := by simp
          have hdrop : (front ++ [token]).drop (front.length + 1) = [] := by simp
          rw [takeOption, hargv, hcount, readParams, hnone]
          dsimp only
          rw [hdrop]
          rfl
      | cons param more =>
          by_cases hspecial : param = specialEmptyToken
          · refine .inr ⟨0, cmd.world, ?_⟩
            rw [takeOption, hargv, hcount, readParams, getElem?_behind]
            dsimp only
            rw [if_pos hspecial, if_pos rfl]
            dsimp only
            rw [drop_behind]
            rfl
          · have haccepts : (setFirst option [param] cmd.world).1 = .success := by
              rw [setFirst]
              split
              · rw [setDest_fst, if_pos]
                by_contra hno
                exact hrefuses ⟨hcount ▸ Nat.succ_pos n, param, rfl, hspecial, hno⟩
              · rfl
            have hmore : ¬ (n ≤ more.length ∧ specialEmptyToken ∉ more.take n) := fun hcomplete =>
              hparams (by
                rw [HasParams, hcount, List.take_succ_cons]
                exact ⟨Nat.succ_le_succ hcomplete.1, fun hmem =>
                  (List.mem_cons.mp hmem).elim (fun heq => hspecial heq.symm) hcomplete.2⟩)
            have hlater : ∀ world,
                readParams option (front ++ token :: param :: more) n [param]
                    (front.length + 1 + 1) world = .undefined ∨
                  readParams option (front ++ token :: param :: more) n [param]
                    (front.length + 1 + 1) world
                    = .missing (front ++ token :: param :: more).length world := by
              intro world
              have h := readParams_lacking option n [param] more (List.cons_ne_nil _ _) hmore
                (front ++ [token, param]) world
              rwa [List.append_assoc, List.length_append] at h
            have hnil : (front ++ token :: param :: more).drop
                (front ++ token :: param :: more).length
                  = (param :: more).drop (more.length + 1) := by
              rw [List.drop_length, List.drop_succ_cons, List.drop_length]
            have hfirst := readParams_first hspecial option n token front more [] cmd.world
            rw [haccepts, if_pos rfl] at hfirst
            rw [takeOption, hargv, hcount, hfirst]
            rcases hlater (setFirst option [param] cmd.world).2 with hundefined | hmissing
            · rw [hundefined]
              exact .inl rfl
            · rw [hmissing]
              dsimp only
              rw [hnil]
              exact .inr ⟨more.length + 1, _, rfl⟩

/-! ### Splitting letters -/

/-- The rounds that a token may take: one for each of its letters, and none for a placeholder. -/
def tokenWeight (token : CString) : ℕ :=
  if token = specialEmptyToken then 0 else max 1 (token.length - 1)

/-- The rounds that tokens may take. -/
def tokensWeight (tokens : List CString) : ℕ := (tokens.map tokenWeight).sum

lemma tokensWeight_cons (token : CString) (tokens : List CString) :
    tokensWeight (token :: tokens) = tokenWeight token + tokensWeight tokens := by
  rw [tokensWeight, List.map_cons, List.sum_cons, tokensWeight]

lemma tokensWeight_append (tokens tokens' : List CString) :
    tokensWeight (tokens ++ tokens') = tokensWeight tokens + tokensWeight tokens' := by
  rw [tokensWeight, List.map_append, List.sum_append, tokensWeight, tokensWeight]

lemma tokensWeight_drop_le (n : ℕ) (tokens : List CString) :
    tokensWeight (tokens.drop n) ≤ tokensWeight tokens := by
  conv_rhs => rw [← List.take_append_drop n tokens, tokensWeight_append]
  exact Nat.le_add_left _ _

/-- A token with a dash takes a round for each letter. -/
lemma tokenWeight_letters (letters : CString) :
    tokenWeight ('-' :: letters) = max 1 letters.length := by
  have hspecial : ¬ ('-' :: letters) = specialEmptyToken := by
    intro hcontra
    have hhead : some '-' = specialEmptyToken.head? := congrArg List.head? hcontra
    exact absurd hhead (by decide)
  rw [tokenWeight, if_neg hspecial, List.length_cons, Nat.add_sub_cancel]

/-- The parameters of a letter are taken from the arguments. -/
lemma splitParams_bound {args params : List CString} {n used used' : ℕ}
    (hused : used ≤ args.length) (h : splitParams args n used = (params, used')) :
    used' ≤ args.length ∧
      tokensWeight params + tokensWeight (args.drop used') = tokensWeight (args.drop used) := by
  induction n generalizing used params with
  | zero =>
      cases h
      exact ⟨hused, Nat.zero_add _⟩
  | succ n ih =>
      rw [splitParams] at h
      cases harg : args[used]? with
      | none =>
          rw [harg] at h
          dsimp only at h
          rcases hrest : splitParams args n used with ⟨params₀, used₀⟩
          rw [hrest] at h
          cases h
          obtain ⟨hle, hweight⟩ := ih hused hrest
          refine ⟨hle, ?_⟩
          rw [tokensWeight_cons, tokenWeight, if_pos rfl, Nat.zero_add, hweight]
      | some arg =>
          obtain ⟨hlt, rfl⟩ := List.getElem?_eq_some_iff.mp harg
          rw [harg] at h
          dsimp only at h
          rcases hrest : splitParams args n (used + 1) with ⟨params₀, used₀⟩
          rw [hrest] at h
          cases h
          obtain ⟨hle, hweight⟩ := ih hlt hrest
          refine ⟨hle, ?_⟩
          rw [tokensWeight_cons, Nat.add_assoc, hweight, List.drop_eq_getElem_cons hlt,
            tokensWeight_cons]

/-- **Letters come one by one**, with their parameters. -/
lemma splitLetters_bound {used used' : ℕ} (hused : used ≤ args.length)
    (h : splitLetters options args ignoreUnknown letters used = .ok (shortsv, used')) :
    used' ≤ args.length ∧ tokensWeight shortsv + tokensWeight (args.drop used')
      = letters.length + tokensWeight (args.drop used) := by
  induction letters generalizing used shortsv with
  | nil =>
      cases h
      exact ⟨hused, rfl⟩
  | cons letter letters ih =>
      have hone : tokenWeight ['-', letter] = 1 := tokenWeight_letters [letter]
      rw [splitLetters] at h
      cases hfind : findOption options [letter] with
      | none =>
          rw [hfind] at h
          dsimp only at h
          split at h
          · cases h
          · cases hrest : splitLetters options args ignoreUnknown letters used with
            | error rc =>
                rw [hrest] at h
                cases h
            | ok r =>
                rw [hrest] at h
                cases h
                obtain ⟨hle, hweight⟩ := ih hused hrest
                refine ⟨hle, ?_⟩
                rw [tokensWeight_cons, hone, Nat.add_assoc, hweight, List.length_cons]
                omega
      | some option =>
          rw [hfind] at h
          dsimp only at h
          rcases hparams : splitParams args option.numParams used with ⟨params, used₀⟩
          obtain ⟨hle₀, hweight₀⟩ := splitParams_bound hused hparams
          rw [hparams] at h
          dsimp only at h
          cases hrest : splitLetters options args ignoreUnknown letters used₀ with
          | error rc =>
              rw [hrest] at h
              cases h
          | ok r =>
              rw [hrest] at h
              cases h
              obtain ⟨hle, hweight⟩ := ih hle₀ hrest
              refine ⟨hle, ?_⟩
              rw [tokensWeight_cons, tokensWeight_append, hone, List.length_cons]
              omega

/-- The letters are split if they are all known, or the unknown ones ignored. -/
lemma splitLetters_ok (h : ignoreUnknown = true ∨ ∀ l ∈ letters, findOption options [l] ≠ none)
    (args : List CString) (used : ℕ) :
    ∃ shortsv used',
      splitLetters options args ignoreUnknown letters used = .ok (shortsv, used') := by
  induction letters generalizing used with
  | nil => exact ⟨[], used, rfl⟩
  | cons letter letters ih =>
      have hrest := ih (h.imp_right fun hall l hl => hall l (List.mem_cons_of_mem letter hl))
      rw [splitLetters]
      cases hfind : findOption options [letter] with
      | none =>
          have hignore : ignoreUnknown = true :=
            h.resolve_right fun hall => hall letter List.mem_cons_self hfind
          obtain ⟨shortsv, used', heq⟩ := hrest used
          dsimp only
          rw [heq, hignore, Bool.not_true, if_neg Bool.false_ne_true]
          exact ⟨_, _, rfl⟩
      | some option =>
          dsimp only
          obtain ⟨shortsv, used', heq⟩ := hrest (splitParams args option.numParams used).2
          rw [heq]
          exact ⟨_, _, rfl⟩

/-- An unknown letter that is not ignored. -/
lemma splitLetters_error {l : Char} (hl : l ∈ letters) (hfind : findOption options [l] = none)
    (args : List CString) (used : ℕ) :
    ∃ rc, splitLetters options args false letters used = .error rc := by
  induction letters generalizing used with
  | nil => cases hl
  | cons letter letters ih =>
      rw [splitLetters]
      cases hletter : findOption options [letter] with
      | none => exact ⟨.badParam, rfl⟩
      | some option =>
          have hmem : l ∈ letters := by
            rcases List.mem_cons.mp hl with rfl | hmem
            · rw [hfind] at hletter
              cases hletter
            · exact hmem
          obtain ⟨rc, heq⟩ := ih hmem (splitParams args option.numParams used).2
          dsimp only
          rw [heq]
          exact ⟨rc, rfl⟩

/-! ### One round -/

/-- What a round makes of a token that stands for no option. -/
def stopAt (front : List CString) (tokens : List CString) (cmd : CmdLine) (rc : CmdLineRc)
    (tail : List CString) : Progress :=
  .stop (.returns rc { cmd with argv := front ++ tokens, tail := cmd.tail ++ tail })

/-- **What a token is, and what a round makes of it.** -/
inductive TokenCase (options : List CmdLineOption) (ignoreUnknown : Bool) (front : List CString)
    (cmd : CmdLine) (token : CString) (rest : List CString) : Progress → Prop
  | dashes (htoken : token = ['-', '-']) :
      TokenCase options ignoreUnknown front cmd token rest
        (stopAt front (token :: rest) cmd .success rest)
  | unknownToken (htoken : token.head? ≠ some '-') :
      TokenCase options ignoreUnknown front cmd token rest
        (stopAt front (token :: rest) cmd (if ignoreUnknown then .success else .silent)
          (token :: rest))
  | unknownOption (htoken : Unknown options ignoreUnknown token) :
      TokenCase options ignoreUnknown front cmd token rest
        (stopAt front (token :: rest) cmd .silent (token :: rest))
  | option {option : CmdLineOption} (hnames : Names options token option) :
      TokenCase options ignoreUnknown front cmd token rest
        (takeOption option front.length { cmd with argv := front ++ token :: rest })
  | bundle {letter : Char} {letters : CString} {shortsv : List CString} {used : ℕ}
      (htoken : token = '-' :: letter :: letters)
      (hsplits : Splits options ignoreUnknown letter letters rest shortsv used)
      (hused : used ≤ rest.length) :
      TokenCase options ignoreUnknown front cmd token rest
        (parseToken options ignoreUnknown front.length
          { cmd with argv := front ++ (shortsv ++ rest.drop used) })

/-- What a round makes of a token that is recognized. -/
def roundOf (ignoreUnknown : Bool) (front : List CString) (token : CString)
    (rest : List CString) (cmd : CmdLine) : Recognized → Progress
  | .dashes => stopAt front (token :: rest) cmd .success rest
  | .unknownToken => stopAt front (token :: rest) cmd
      (if ignoreUnknown then .success else .silent) (token :: rest)
  | .unknownOption => stopAt front (token :: rest) cmd .silent (token :: rest)
  | .option option argv => takeOption option front.length { cmd with argv := argv }

lemma parseToken_of_recognize {recognized : Recognized}
    (h : recognize options ignoreUnknown (front ++ token :: rest) front.length token = recognized)
    (cmd : CmdLine) :
    parseToken options ignoreUnknown front.length { cmd with argv := front ++ token :: rest }
      = roundOf ignoreUnknown front token rest cmd recognized := by
  have hdrop : (front ++ token :: rest).drop front.length = token :: rest := List.drop_left
  rw [parseToken]
  dsimp only
  rw [Cells.getElem?_append_cons]
  dsimp only
  rw [h, hdrop, drop_behind]
  cases recognized <;> rfl

/-- A token with one dash whose letters are no name. -/
lemma parseToken_letters {letter : Char} {letters : CString} (hletter : letter ≠ '-')
    (hname : findOption options (letter :: letters) = none) (ignoreUnknown : Bool)
    (front rest : List CString) (cmd : CmdLine) :
    TokenCase options ignoreUnknown front cmd ('-' :: letter :: letters) rest
      (parseToken options ignoreUnknown front.length
        { cmd with argv := front ++ ('-' :: letter :: letters) :: rest }) := by
  have hhead : (letter :: letters).head? ≠ some '-' := fun hcontra =>
    hletter (Option.some.inj hcontra)
  have hrecognize := recognize_short hhead options ignoreUnknown
    (front ++ ('-' :: letter :: letters) :: rest) front.length
  rw [hname, drop_behind, splitShorts, if_neg (List.cons_ne_nil letter letters)] at hrecognize
  have hstop : ∀ h : Unknown options ignoreUnknown ('-' :: letter :: letters),
      recognize options ignoreUnknown (front ++ ('-' :: letter :: letters) :: rest) front.length
          ('-' :: letter :: letters) = .unknownOption →
      TokenCase options ignoreUnknown front cmd ('-' :: letter :: letters) rest
        (parseToken options ignoreUnknown front.length
          { cmd with argv := front ++ ('-' :: letter :: letters) :: rest }) := by
    intro hunknown hr
    rw [parseToken_of_recognize hr]
    exact .unknownOption hunknown
  by_cases hall : ignoreUnknown = true ∨ ∀ l ∈ letter :: letters, findOption options [l] ≠ none
  · obtain ⟨shortsv, used, hsplit⟩ := splitLetters_ok hall rest 0
    obtain ⟨shorts, hshorts⟩ := head_splitLetters hsplit
    cases hfirst : findOption options [letter] with
    | none =>
        refine hstop (.letters hletter hname (.inl hfirst)) ?_
        rw [hrecognize, hsplit, hshorts]
        dsimp only
        have hletter' : ((['-', letter] :: shorts).headD []).drop 1 = [letter] := rfl
        rw [hletter', hfirst]
        rfl
    | some option =>
        have hused := (splitLetters_bound (Nat.zero_le _) hsplit).1
        have hargs : (rest.take used).length = used := List.length_take_of_le hused
        have hsplits : Splits options ignoreUnknown letter letters rest shortsv used :=
          ⟨hletter, hname, by rw [hfirst]; exact Option.some_ne_none option, by
            rw [splitShorts, if_neg (List.cons_ne_nil letter letters), hsplit]⟩
        have hround : parseToken options ignoreUnknown front.length
              { cmd with
                argv := front ++ ('-' :: letter :: letters) :: (rest.take used ++ rest.drop used) }
            = parseToken options ignoreUnknown front.length
              { cmd with argv := front ++ (shortsv ++ rest.drop used) } :=
          parseToken_split hletter hname hfirst (by
            rw [List.take_append_drop, hargs]
            exact hsplits.split)
        rw [List.take_append_drop] at hround
        rw [hround]
        exact .bundle rfl hsplits hused
  · obtain ⟨hignore, hsome⟩ := not_or.mp hall
    have hfalse : ignoreUnknown = false := Bool.eq_false_iff.mpr hignore
    obtain ⟨l, hl⟩ := not_forall.mp hsome
    obtain ⟨hmem, hnone⟩ := Classical.not_imp.mp hl
    rw [not_not] at hnone
    obtain ⟨rc, herror⟩ := splitLetters_error hmem hnone rest 0
    refine hstop (.letters hletter hname ?_) ?_
    · rcases List.mem_cons.mp hmem with rfl | hmem
      · exact .inl hnone
      · exact .inr ⟨hfalse, l, hmem, hnone⟩
    · rw [hrecognize, hfalse, herror]

/-- **Every token.** -/
lemma parseToken_cases (options : List CmdLineOption) (ignoreUnknown : Bool)
    (front : List CString) (token : CString) (rest : List CString) (cmd : CmdLine) :
    TokenCase options ignoreUnknown front cmd token rest
      (parseToken options ignoreUnknown front.length
        { cmd with argv := front ++ token :: rest }) := by
  have hnamed : ∀ option, Names options token option →
      TokenCase options ignoreUnknown front cmd token rest
        (parseToken options ignoreUnknown front.length
          { cmd with argv := front ++ token :: rest }) := by
    intro option hnames
    rw [parseToken_of_recognize (hnames.recognize ignoreUnknown _ _)]
    exact .option hnames
  have hstop : ∀ h : Unknown options ignoreUnknown token,
      recognize options ignoreUnknown (front ++ token :: rest) front.length token
        = .unknownOption →
      TokenCase options ignoreUnknown front cmd token rest
        (parseToken options ignoreUnknown front.length
          { cmd with argv := front ++ token :: rest }) := by
    intro hunknown hr
    rw [parseToken_of_recognize hr]
    exact .unknownOption hunknown
  by_cases hdash : token.head? = some '-'
  · obtain ⟨name, rfl⟩ := List.head?_eq_some_iff.mp hdash
    by_cases hlong : name.head? = some '-'
    · obtain ⟨name, rfl⟩ := List.head?_eq_some_iff.mp hlong
      by_cases hname : name = []
      · subst hname
        have hr : recognize options ignoreUnknown (front ++ ['-', '-'] :: rest) front.length
            ['-', '-'] = .dashes := by
          rw [recognize, if_pos rfl]
        rw [parseToken_of_recognize hr]
        exact .dashes rfl
      · cases hfind : findOption options name with
        | some option => exact hnamed option (.long hname hfind)
        | none =>
            refine hstop (.long hname hfind) ?_
            have hdashes : ¬ ('-' :: '-' :: name) = ['-', '-'] := by simpa using hname
            have htake : ('-' :: '-' :: name).take 2 = ['-', '-'] := rfl
            have hdrop : ('-' :: '-' :: name).drop 2 = name := rfl
            rw [recognize, if_neg hdashes, if_neg (by simp), if_pos htake, hdrop, hfind]
            rfl
    · cases hfind : findOption options name with
      | some option => exact hnamed option (.short hlong hfind)
      | none =>
          cases name with
          | nil =>
              refine hstop (.dash hfind) ?_
              rw [recognize_short hlong, hfind, splitShorts, if_pos rfl]
          | cons letter letters =>
              exact parseToken_letters (fun heq => hlong (congrArg some heq)) hfind ignoreUnknown
                front rest cmd
  · have hr : recognize options ignoreUnknown (front ++ token :: rest) front.length token
        = .unknownToken := by
      have hdashes : ¬ token = ['-', '-'] := by
        rintro rfl
        exact hdash rfl
      rw [recognize, if_neg hdashes, if_pos hdash]
    rw [parseToken_of_recognize hr]
    exact .unknownToken hdash

/-! ### Termination -/

/-- An option behind the loop: the call has ended, or goes on behind the parameters. -/
lemma takeOption_cases (option : CmdLineOption) (cmd : CmdLine)
    (hargv : cmd.argv = front ++ token :: rest) :
    (HasParams option rest ∧ ¬ Refuses option rest ∧ ∃ world, takeOption option front.length cmd
      = .next (front.length + 1 + option.numParams)
        { cmd with
          params := cmd.params ++ [⟨option, rest.take option.numParams⟩], world := world }) ∨
    (Refuses option rest ∧ ∃ world, takeOption option front.length cmd
      = .stop (.returns .silent { cmd with world := world })) ∨
    (¬ HasParams option rest ∧ ¬ Refuses option rest ∧
      (takeOption option front.length cmd = .stop .undefined ∨
        ∃ k world, takeOption option front.length cmd
          = .stop (.returns .silent
            { cmd with world := world, tail := cmd.tail ++ rest.drop k }))) := by
  by_cases hrefuses : Refuses option rest
  · exact .inr (.inl ⟨hrefuses, takeOption_refused hrefuses hargv⟩)
  · by_cases hparams : HasParams option rest
    · exact .inl ⟨hparams, hrefuses, takeOption_read hparams hrefuses hargv⟩
    · exact .inr (.inr ⟨hparams, hrefuses, takeOption_lacking hparams hrefuses hargv⟩)

/-- The option and its parameters are put in front. -/
lemma HasParams.front_eq (h : HasParams option rest) (front : List CString) (token : CString) :
    (front ++ token :: rest.take option.numParams).length = front.length + 1 + option.numParams ∧
      front ++ token :: rest.take option.numParams ++ rest.drop option.numParams
        = front ++ token :: rest := by
  constructor
  · rw [List.length_append, List.length_cons, List.length_take_of_le h.1]
    omega
  · rw [List.append_assoc, List.cons_append, List.take_append_drop]

/-- Letters that are split begin with an option, whose parameters and the other letters follow. -/
lemma Splits.exists_first {letter : Char} {letters : CString} {used : ℕ}
    (h : Splits options ignoreUnknown letter letters rest shortsv used) :
    ∃ option shorts, Names options ['-', letter] option ∧ shortsv = ['-', letter] :: shorts ∧
      used ≤ rest.length ∧
      tokensWeight (shorts ++ rest.drop used) + 1
        = tokensWeight (('-' :: letter :: letters) :: rest) := by
  obtain ⟨option, hfirst⟩ := Option.ne_none_iff_exists'.mp h.first
  have hsplit := h.split
  rw [splitShorts, if_neg (List.cons_ne_nil letter letters)] at hsplit
  obtain ⟨shorts, rfl⟩ := head_splitLetters hsplit
  obtain ⟨hused, hweight⟩ := splitLetters_bound (Nat.zero_le _) hsplit
  have hone : tokenWeight ['-', letter] = 1 := tokenWeight_letters [letter]
  refine ⟨option, shorts, .short (fun hcontra => h.letter_ne (Option.some.inj hcontra)) hfirst, rfl,
    hused, ?_⟩
  rw [tokensWeight_cons, hone, List.length_cons, List.drop_zero] at hweight
  rw [tokensWeight_append, tokensWeight_cons, tokenWeight_letters, List.length_cons]
  omega

/-- The weight of a token that names an option. -/
lemma Names.weight_pos (h : Names options token option) : 0 < tokenWeight token := by
  cases h with
  | long => rw [tokenWeight_letters]; omega
  | short => rw [tokenWeight_letters]; omega

/-- What the loop does behind a round. -/
def followProgress (options : List CmdLineOption) (ignoreUnknown : Bool) (fuel : ℕ) :
    Progress → Outcome
  | .next i cmd => parseLoop options ignoreUnknown fuel i cmd
  | .stop outcome => outcome

lemma parseLoop_succ (options : List CmdLineOption) (ignoreUnknown : Bool) (fuel i : ℕ)
    (cmd : CmdLine) : parseLoop options ignoreUnknown (fuel + 1) i cmd
      = followProgress options ignoreUnknown fuel (parseToken options ignoreUnknown i cmd) := by
  rw [parseLoop]
  cases parseToken options ignoreUnknown i cmd <;> rfl

/-- **The loop ends** before its rounds are used up. -/
lemma parseLoop_terminates (options : List CmdLineOption) (ignoreUnknown : Bool) {fuel : ℕ}
    {tokens : List CString} (hfuel : tokensWeight tokens < fuel) (front : List CString)
    (cmd : CmdLine) :
    parseLoop options ignoreUnknown fuel front.length { cmd with argv := front ++ tokens }
      ≠ .running := by
  induction fuel generalizing tokens front cmd with
  | zero => cases hfuel
  | succ fuel ih =>
      -- an option, after whose parameters the loop goes on
      have hoption : ∀ (option : CmdLineOption) (token : CString) (rest : List CString),
          tokensWeight rest < fuel →
          followProgress options ignoreUnknown fuel (takeOption option front.length
            { cmd with argv := front ++ token :: rest }) ≠ .running := by
        intro option token rest hrest
        rcases takeOption_cases option { cmd with argv := front ++ token :: rest } rfl with
          ⟨hparams, -, world, heq⟩ | ⟨-, world, heq⟩ | ⟨-, -, heq | ⟨k, world, heq⟩⟩
        · have hnext := ih
            (Nat.lt_of_le_of_lt (tokensWeight_drop_le option.numParams rest) hrest)
            (front ++ token :: rest.take option.numParams)
            { cmd with
              params := cmd.params ++ [⟨option, rest.take option.numParams⟩], world := world }
          rw [(hparams.front_eq front token).1, (hparams.front_eq front token).2] at hnext
          rw [heq]
          exact hnext
        · rw [heq]
          intro h
          cases h
        · rw [heq]
          intro h
          cases h
        · rw [heq]
          intro h
          cases h
      cases tokens with
      | nil =>
          have hnone : (front ++ [])[front.length]? = none := by simp
          rw [parseLoop_succ, parseToken, hnone]
          intro h
          cases h
      | cons token rest =>
          rw [tokensWeight_cons] at hfuel
          rw [parseLoop_succ]
          have hcase := parseToken_cases options ignoreUnknown front token rest cmd
          generalize hround : parseToken options ignoreUnknown front.length
            { cmd with argv := front ++ token :: rest } = round at hcase
          cases hcase with
          | dashes =>
              intro h
              cases h
          | unknownToken =>
              intro h
              cases h
          | unknownOption =>
              intro h
              cases h
          | @option option hnames =>
              have hpos := hnames.weight_pos
              exact hoption option token rest (by omega)
          | @bundle letter letters shortsv used htoken hsplits hused =>
              obtain ⟨option, shorts, hnames, rfl, -, hweight⟩ := hsplits.exists_first
              rw [tokensWeight_cons, ← htoken] at hweight
              rw [List.cons_append, parseToken_of_recognize (hnames.recognize ignoreUnknown _ _)]
              exact hoption option _ _ (by omega)

/-! ### Tokens that lack parameters -/

/-- A token names one option. -/
lemma Names.unique {option' : CmdLineOption} (h : Names options token option)
    (h' : Names options token option') : option = option' := by
  cases h with
  | long hname hfind =>
      cases h' with
      | long _ hfind' => exact Option.some.inj (hfind.symm.trans hfind')
      | short hname' _ => exact absurd rfl hname'
  | short hname hfind =>
      cases h' with
      | long _ _ => exact absurd rfl hname
      | short _ hfind' => exact Option.some.inj (hfind.symm.trans hfind')

/-- A token that names an option is not split. -/
lemma Names.not_splits {letter : Char} {letters : CString} {used : ℕ}
    (h : Names options ('-' :: letter :: letters) option) :
    ¬ Splits options ignoreUnknown letter letters rest shortsv used := by
  intro hsplits
  cases h with
  | long _ _ => exact hsplits.letter_ne rfl
  | short _ hfind =>
      have hname := hsplits.name
      rw [hfind] at hname
      cases hname

/-- A token names an option or is unknown. -/
lemma Unknown.not_names (h : Unknown options ignoreUnknown token) :
    ¬ Names options token option := by
  intro hnames
  cases h with
  | long hname hfind =>
      cases hnames with
      | long _ hfind' =>
          rw [hfind] at hfind'
          cases hfind'
      | short hname' _ => exact hname' rfl
  | dash hfind =>
      cases hnames with
      | short _ hfind' =>
          rw [hfind] at hfind'
          cases hfind'
  | letters hletter hfind _ =>
      cases hnames with
      | long _ _ => exact hletter rfl
      | short _ hfind' =>
          rw [hfind] at hfind'
          cases hfind'

/-- An unknown token is not split. -/
lemma Unknown.not_splits {letter : Char} {letters : CString} {used : ℕ}
    (h : Unknown options ignoreUnknown ('-' :: letter :: letters)) :
    ¬ Splits options ignoreUnknown letter letters rest shortsv used := by
  intro hsplits
  cases h with
  | long _ _ => exact hsplits.letter_ne rfl
  | letters _ _ hunknown =>
      rcases hunknown with hfirst | ⟨rfl, l, hl, hnone⟩
      · exact hsplits.first hfirst
      · obtain ⟨rc, herror⟩ := splitLetters_error (List.mem_cons_of_mem letter hl) hnone rest 0
        have hsplit := hsplits.split
        rw [splitShorts, if_neg (List.cons_ne_nil letter letters), herror] at hsplit
        cases hsplit

lemma not_lacks_nil : ¬ Lacks options ignoreUnknown [] := nofun

/-- A token that stands for no option. -/
lemma not_lacks_cons (hnames : ∀ option, ¬ Names options token option)
    (hsplits : ∀ letter letters shortsv used, token = '-' :: letter :: letters →
      ¬ Splits options ignoreUnknown letter letters rest shortsv used) :
    ¬ Lacks options ignoreUnknown (token :: rest) := by
  intro h
  cases h with
  | option hname _ _ => exact hnames _ hname
  | later hname _ _ _ => exact hnames _ hname
  | bundle hsplit _ => exact hsplits _ _ _ _ rfl hsplit

lemma Unknown.not_lacks (h : Unknown options ignoreUnknown token) (rest : List CString) :
    ¬ Lacks options ignoreUnknown (token :: rest) :=
  not_lacks_cons (fun _ => h.not_names) fun letter letters shortsv used heq => by
    subst heq
    exact h.not_splits

lemma not_lacks_dashes (rest : List CString) :
    ¬ Lacks options ignoreUnknown (['-', '-'] :: rest) := by
  refine not_lacks_cons (fun option h => ?_) fun letter letters shortsv used heq h => ?_
  · cases h with
    | long hname _ => exact hname rfl
    | short hname _ => exact hname rfl
  · exact h.letter_ne (List.cons.inj (List.cons.inj heq).2).1.symm

lemma not_lacks_unknownToken (htoken : token.head? ≠ some '-') (rest : List CString) :
    ¬ Lacks options ignoreUnknown (token :: rest) := by
  refine not_lacks_cons (fun option h => ?_) fun letter letters shortsv used heq _ => ?_
  · cases h with
    | long _ _ => exact htoken rfl
    | short _ _ => exact htoken rfl
  · rw [heq] at htoken
    exact htoken rfl

/-- An option with all its parameters. -/
lemma Names.lacks_iff (h : Names options token option) (hparams : HasParams option rest)
    (hrefuses : ¬ Refuses option rest) :
    Lacks options ignoreUnknown (token :: rest) ↔
      Lacks options ignoreUnknown (rest.drop option.numParams) := by
  refine ⟨fun hlacks => ?_, .later h hparams hrefuses⟩
  cases hlacks with
  | option hnames hno _ =>
      obtain rfl := h.unique hnames
      exact absurd hparams hno
  | later hnames _ _ hrest =>
      obtain rfl := h.unique hnames
      exact hrest
  | bundle hsplits _ => exact absurd hsplits h.not_splits

/-- An option whose first parameter is refused. -/
lemma Names.not_lacks (h : Names options token option) (hrefuses : Refuses option rest) :
    ¬ Lacks options ignoreUnknown (token :: rest) := by
  intro hlacks
  cases hlacks with
  | option hnames _ hno =>
      obtain rfl := h.unique hnames
      exact hno hrefuses
  | later hnames _ hno _ =>
      obtain rfl := h.unique hnames
      exact hno hrefuses
  | bundle hsplits _ => exact h.not_splits hsplits

/-- Letters that are split. -/
lemma Splits.lacks_iff {letter : Char} {letters : CString} {used : ℕ}
    (h : Splits options ignoreUnknown letter letters rest shortsv used) :
    Lacks options ignoreUnknown (('-' :: letter :: letters) :: rest) ↔
      Lacks options ignoreUnknown (shortsv ++ rest.drop used) := by
  refine ⟨fun hlacks => ?_, .bundle h⟩
  cases hlacks with
  | option hnames _ _ => exact absurd h hnames.not_splits
  | later hnames _ _ _ => exact absurd h hnames.not_splits
  | bundle hsplits hrest =>
      have heq := Except.ok.inj (h.split.symm.trans hsplits.split)
      rw [(Prod.mk.inj heq).1, (Prod.mk.inj heq).2]
      exact hrest

/-! ### The whole loop -/

/-- **What the loop makes of the tokens** behind those in front: it stops lawfully, or, where an
option lacks parameters, it frees a vector twice, or returns less than that option and what follows
as its tail. -/
inductive ReadTo (options : List CmdLineOption) (ignoreUnknown : Bool) (front : List CString)
    (cmd : CmdLine) : List CString → Outcome → Prop
  | lawful {tokens used rest tail : List CString} {params : List CmdLineParam} {rc : CmdLineRc}
      (world : CmdLineWorld) (hlacks : ¬ Lacks options ignoreUnknown tokens)
      (hexpands : Expands options ignoreUnknown tokens (used ++ rest))
      (hspelled : Spelled options used params)
      (hending : Ending options ignoreUnknown rest rc tail) :
      ReadTo options ignoreUnknown front cmd tokens
        (.returns rc ⟨front ++ (used ++ rest), cmd.params ++ params, cmd.tail ++ tail, world⟩)
  | undefined {tokens : List CString} (hlacks : Lacks options ignoreUnknown tokens) :
      ReadTo options ignoreUnknown front cmd tokens .undefined
  | lacking {tokens used rest : List CString} {token : CString} {option : CmdLineOption}
      {params : List CmdLineParam} (k : ℕ) (world : CmdLineWorld)
      (hlacks : Lacks options ignoreUnknown tokens) (hspelled : Spelled options used params)
      (hnames : Names options token option) (hrefuses : ¬ Refuses option rest) :
      ReadTo options ignoreUnknown front cmd tokens
        (.returns .silent ⟨front ++ (used ++ token :: rest), cmd.params ++ params,
          cmd.tail ++ rest.drop k, world⟩)

/-- Nothing but the ending. -/
lemma ReadTo.ending {tokens tail : List CString} {rc : CmdLineRc}
    (hlacks : ¬ Lacks options ignoreUnknown tokens)
    (hending : Ending options ignoreUnknown tokens rc tail) (front : List CString) (cmd : CmdLine)
    (world : CmdLineWorld) :
    ReadTo options ignoreUnknown front cmd tokens
      (.returns rc ⟨front ++ tokens, cmd.params, cmd.tail ++ tail, world⟩) := by
  have h : ReadTo options ignoreUnknown front cmd tokens
      (.returns rc ⟨front ++ ([] ++ tokens), cmd.params ++ [], cmd.tail ++ tail, world⟩) :=
    .lawful world hlacks (.refl tokens) .nil hending
  rwa [List.nil_append, List.append_nil] at h

/-- One more option, with all its parameters. -/
lemma ReadTo.later {outcome : Outcome} (hnames : Names options token option)
    (hparams : HasParams option rest) (hrefuses : ¬ Refuses option rest)
    (h : ReadTo options ignoreUnknown (front ++ token :: rest.take option.numParams)
      { cmd with params := cmd.params ++ [⟨option, rest.take option.numParams⟩], world := world }
      (rest.drop option.numParams) outcome) :
    ReadTo options ignoreUnknown front cmd (token :: rest) outcome := by
  have hlength : (rest.take option.numParams).length = option.numParams :=
    List.length_take_of_le hparams.1
  have hlacks : Lacks options ignoreUnknown (token :: rest) ↔
      Lacks options ignoreUnknown (rest.drop option.numParams) := hnames.lacks_iff hparams hrefuses
  have hspell : ∀ {used params}, Spelled options used params →
      Spelled options (token :: (rest.take option.numParams ++ used))
        (⟨option, rest.take option.numParams⟩ :: params) := fun hused =>
    .cons ⟨option, rest.take option.numParams⟩ hnames hlength hused
  cases h with
  | @lawful used rest' tail params rc world' hnot hexpands hspelled hending =>
      have hexpand := Expands.option hnames hlength hexpands
      rw [List.take_append_drop, ← List.append_assoc, ← List.cons_append] at hexpand
      have hlawful : ReadTo options ignoreUnknown front cmd (token :: rest)
          (.returns rc ⟨front ++ (token :: (rest.take option.numParams ++ used) ++ rest'),
            cmd.params ++ ⟨option, rest.take option.numParams⟩ :: params, cmd.tail ++ tail,
            world'⟩) :=
        .lawful world' (mt hlacks.mp hnot) hexpand (hspell hspelled) hending
      simp only [List.append_assoc, List.cons_append, List.nil_append] at hlawful ⊢
      exact hlawful
  | undefined hlack => exact .undefined (hlacks.mpr hlack)
  | @lacking used rest' token' option' params k world' hlack hspelled hnames' hrefuses' =>
      have hlacking : ReadTo options ignoreUnknown front cmd (token :: rest)
          (.returns .silent
            ⟨front ++ (token :: (rest.take option.numParams ++ used) ++ token' :: rest'),
              cmd.params ++ ⟨option, rest.take option.numParams⟩ :: params,
              cmd.tail ++ rest'.drop k, world'⟩) :=
        .lacking k world' (hlacks.mpr hlack) (hspell hspelled) hnames' hrefuses'
      simp only [List.append_assoc, List.cons_append, List.nil_append] at hlacking ⊢
      exact hlacking

/-- Letters that are split. -/
lemma ReadTo.bundle {letter : Char} {letters : CString} {used : ℕ} {outcome : Outcome}
    (hsplits : Splits options ignoreUnknown letter letters rest shortsv used)
    (h : ReadTo options ignoreUnknown front cmd (shortsv ++ rest.drop used) outcome) :
    ReadTo options ignoreUnknown front cmd (('-' :: letter :: letters) :: rest) outcome := by
  cases h with
  | lawful world hlacks hexpands hspelled hending =>
      exact .lawful world (mt hsplits.lacks_iff.mp hlacks) (.bundle hsplits hexpands) hspelled
        hending
  | undefined hlacks => exact .undefined (hsplits.lacks_iff.mpr hlacks)
  | lacking k world hlacks hspelled hnames hrefuses =>
      exact .lacking k world (hsplits.lacks_iff.mpr hlacks) hspelled hnames hrefuses

/-- **The loop**, if it ends. -/
lemma parseLoop_readTo (options : List CmdLineOption) (ignoreUnknown : Bool) (fuel : ℕ)
    (tokens front : List CString) (cmd : CmdLine)
    (hends : parseLoop options ignoreUnknown fuel front.length
      { cmd with argv := front ++ tokens } ≠ .running) :
    ReadTo options ignoreUnknown front cmd tokens
      (parseLoop options ignoreUnknown fuel front.length { cmd with argv := front ++ tokens }) := by
  induction fuel generalizing tokens front cmd with
  | zero => exact absurd rfl hends
  | succ fuel ih =>
      -- an option, after whose parameters the loop goes on
      have hoption : ∀ (option : CmdLineOption) (token : CString) (rest : List CString),
          Names options token option →
          followProgress options ignoreUnknown fuel (takeOption option front.length
            { cmd with argv := front ++ token :: rest }) ≠ .running →
          ReadTo options ignoreUnknown front cmd (token :: rest)
            (followProgress options ignoreUnknown fuel (takeOption option front.length
              { cmd with argv := front ++ token :: rest })) := by
        intro option token rest hnames hends
        rcases takeOption_cases option { cmd with argv := front ++ token :: rest } rfl with
          ⟨hparams, hrefuses, world, heq⟩ | ⟨hrefuses, world, heq⟩ |
          ⟨hparams, hrefuses, heq | ⟨k, world, heq⟩⟩
        · have hnext := ih (rest.drop option.numParams)
            (front ++ token :: rest.take option.numParams)
            { cmd with
              params := cmd.params ++ [⟨option, rest.take option.numParams⟩], world := world }
          rw [(hparams.front_eq front token).1, (hparams.front_eq front token).2] at hnext
          rw [heq] at hends ⊢
          exact .later hnames hparams hrefuses (hnext hends)
        · rw [heq]
          have hend : ReadTo options ignoreUnknown front cmd (token :: rest)
              (.returns .silent ⟨front ++ token :: rest, cmd.params, cmd.tail ++ [], world⟩) :=
            .ending (hnames.not_lacks hrefuses) (.refused hnames hrefuses []) front cmd world
          rwa [List.append_nil] at hend
        · rw [heq]
          exact .undefined (.option hnames hparams hrefuses)
        · rw [heq]
          have hlack : ReadTo options ignoreUnknown front cmd (token :: rest)
              (.returns .silent ⟨front ++ ([] ++ token :: rest), cmd.params ++ [],
                cmd.tail ++ rest.drop k, world⟩) :=
            .lacking k world (.option hnames hparams hrefuses) .nil hnames hrefuses
          rwa [List.nil_append, List.append_nil] at hlack
      cases tokens with
      | nil =>
          have hnone : (front ++ [])[front.length]? = none := by simp
          have hend : ReadTo options ignoreUnknown front cmd []
              (.returns .success ⟨front ++ [], cmd.params, cmd.tail ++ [], cmd.world⟩) :=
            .ending not_lacks_nil .finished front cmd cmd.world
          rw [parseLoop_succ, parseToken, hnone]
          rwa [List.append_nil cmd.tail] at hend
      | cons token rest =>
          rw [parseLoop_succ] at hends ⊢
          have hcase := parseToken_cases options ignoreUnknown front token rest cmd
          generalize hround : parseToken options ignoreUnknown front.length
            { cmd with argv := front ++ token :: rest } = round at hcase hends ⊢
          cases hcase with
          | dashes htoken =>
              subst htoken
              exact .ending (not_lacks_dashes rest) (.dashes rest) front cmd cmd.world
          | unknownToken htoken =>
              exact .ending (not_lacks_unknownToken htoken rest) (.unknownToken rest htoken) front
                cmd cmd.world
          | unknownOption htoken =>
              exact .ending (htoken.not_lacks rest) (.unknownOption rest htoken) front cmd cmd.world
          | @option option hnames => exact hoption option token rest hnames hends
          | @bundle letter letters shortsv used htoken hsplits hused =>
              obtain ⟨option, shorts, hnames, rfl, -, -⟩ := hsplits.exists_first
              subst htoken
              rw [List.cons_append, parseToken_of_recognize (hnames.recognize ignoreUnknown _ _)]
                at hends ⊢
              exact .bundle hsplits (hoption option _ _ hnames hends)

/-- The options that were used tell how many tokens they took. -/
lemma Spelled.length_eq {used used' : List CString} {params : List CmdLineParam}
    (h : Spelled options used params) (h' : Spelled options used' params) :
    used.length = used'.length := by
  induction h generalizing used' with
  | nil =>
      cases h'
      rfl
  | cons param _ _ _ ih =>
      cases h' with
      | cons _ _ _ hrest =>
          rw [List.length_cons, List.length_cons, List.length_append, List.length_append, ih hrest]

/-- At an option whose first parameter is not refused, the tail would be all of the rest. -/
lemma Ending.tail_eq {rc : CmdLineRc} {tail : List CString}
    (h : Ending options ignoreUnknown (token :: rest) rc tail) (hnames : Names options token option)
    (hrefuses : ¬ Refuses option rest) : tail = token :: rest := by
  cases h with
  | dashes =>
      cases hnames with
      | long hname _ => exact absurd rfl hname
      | short hname _ => exact absurd rfl hname
  | unknownToken _ _ => rfl
  | unknownOption _ _ => rfl
  | missing _ _ => rfl
  | refused hnames' hrefuses' =>
      obtain rfl := hnames.unique hnames'
      exact absurd hrefuses' hrefuses

/-- **The outcome is lawful** unless the tokens lead to an option without enough parameters. -/
lemma ReadTo.lawful_iff {argv0 : CString} {tokens : List CString} {outcome : Outcome}
    {argv : List CString}
    (h : ReadTo options ignoreUnknown [argv0] ⟨argv, [], [], world⟩ tokens outcome) :
    Lawful options ignoreUnknown argv0 tokens outcome ↔ ¬ Lacks options ignoreUnknown tokens := by
  cases h with
  | @lawful used rest tail params rc world hlacks hexpands hspelled hending =>
      exact iff_of_true ⟨rc, _, used, rest, rfl, rfl, hexpands, hspelled, hending⟩ hlacks
  | undefined hlacks =>
      refine iff_of_false ?_ (not_not.mpr hlacks)
      rintro ⟨rc, cmd, used, rest, hcontra, -⟩
      cases hcontra
  | @lacking used rest token option params k world hlacks hspelled hnames hrefuses =>
      refine iff_of_false ?_ (not_not.mpr hlacks)
      rintro ⟨rc, cmd, used', rest', heq, hargv, -, hspelled', hending⟩
      cases heq
      have hargv : used ++ token :: rest = used' ++ rest' := (List.cons.inj hargv).2
      obtain ⟨rfl, rfl⟩ := List.append_inj hargv (hspelled.length_eq hspelled')
      have hlength := congrArg List.length (hending.tail_eq hnames hrefuses)
      rw [List.length_append, List.length_drop, List.length_nil, List.length_cons] at hlength
      omega

end Parse

/-! ### The parser -/

section Theorems

variable {options : List CmdLineOption} {letters : CString} {args expansion tokens : List CString}

/-- **The parser ends, and no token is lost**, if and only if the tokens do not lead to an option
without enough parameters: the tokens are those of the options that were used, with bundles
expanded, and those that the parser stops at. -/
theorem cmd_line_parse_iff (options : List CmdLineOption) (ignoreUnknown : Bool) (argv0 : CString)
    (tokens : List CString) (cmd : CmdLine) (fuel : ℕ) (hfuel : tokensWeight tokens < fuel) :
    parse options ignoreUnknown fuel (some (argv0 :: tokens)) cmd ≠ .running ∧
      (Lawful options ignoreUnknown argv0 tokens
          (parse options ignoreUnknown fuel (some (argv0 :: tokens)) cmd) ↔
        ¬ Lacks options ignoreUnknown tokens) := by
  have hends := parseLoop_terminates options ignoreUnknown hfuel [argv0]
    { cmd with params := [], tail := [] }
  exact ⟨hends, (parseLoop_readTo options ignoreUnknown fuel tokens [argv0] _ hends).lawful_iff⟩

/-- **A bundle is parsed like its expansion**, where the parser looks for an option: the call ends
for both vectors, with the same return value, options and parameters, tail, and effects outside of
the handle. -/
theorem bundle_parses_like_expansion (hbefore : ReadAsOptions options tokens)
    (hname : findOption options letters = none) (hdash : letters.head? ≠ some '-')
    (hletters : letters ≠ []) (hbundle : Bundle options letters args expansion)
    (ignoreUnknown : Bool) (argv0 : CString) (rest : List CString) (cmd : CmdLine) :
    ∃ bound, ∀ fuel, bound < fuel →
      parse options ignoreUnknown fuel
          (some (argv0 :: (tokens ++ ('-' :: letters) :: (args ++ rest)))) cmd ≠ .running ∧
      parse options ignoreUnknown fuel (some (argv0 :: (tokens ++ (expansion ++ rest)))) cmd
        ≠ .running ∧
      (parse options ignoreUnknown fuel
          (some (argv0 :: (tokens ++ ('-' :: letters) :: (args ++ rest)))) cmd).results
        = (parse options ignoreUnknown fuel
          (some (argv0 :: (tokens ++ (expansion ++ rest)))) cmd).results := by
  refine ⟨max (tokensWeight (tokens ++ ('-' :: letters) :: (args ++ rest)))
    (tokensWeight (tokens ++ (expansion ++ rest))), fun fuel hfuel => ⟨?_, ?_, ?_⟩⟩
  · exact parseLoop_terminates options ignoreUnknown (lt_of_le_of_lt (le_max_left _ _) hfuel)
      [argv0] { cmd with params := [], tail := [] }
  · exact parseLoop_terminates options ignoreUnknown (lt_of_le_of_lt (le_max_right _ _) hfuel)
      [argv0] { cmd with params := [], tail := [] }
  · exact hbefore.results_congr (fun fuel front cmd => congrArg Outcome.results
      (parseLoop_bundle hname hdash hletters hbundle ignoreUnknown fuel front rest cmd)) fuel
      [argv0] { cmd with params := [], tail := [] }

end Theorems

/-! ### Options with up to two parameters -/

/-- An option with one letter, and no variable. -/
def letterOption (letter : Char) (numParams : ℕ) : CmdLineOption where
  shortName := some letter
  singleDashName := none
  longName := none
  numParams := numParams
  type := .null
  mcaParamEnvVar := none
  variableDest := none

/-- The options `-a`, `-f` with one parameter, and `-b` with two. -/
def letterOptions : List CmdLineOption :=
  [letterOption 'a' 0, letterOption 'f' 1, letterOption 'b' 2]

/-- A handle without results. -/
def emptyCmdLine : CmdLine := ⟨[], [], [], ⟨[], fun _ => none⟩⟩

/-- The call on these tokens behind the first one. -/
def parseLetters (tokens : List String) : Outcome :=
  parse letterOptions false 9 (some ("prog".toList :: tokens.map String.toList)) emptyCmdLine

lemma bundle_aa : Bundle letterOptions "aa".toList [] ["-a".toList, "-a".toList] :=
  .cons [] rfl rfl (.cons [] rfl rfl .nil)

theorem bundle_parses_like_expansion_af :
    ∃ bound, ∀ fuel, bound < fuel →
      parse letterOptions false fuel
          (some ["prog".toList, "-a".toList, "-af".toList, "x".toList, "y".toList]) emptyCmdLine
        ≠ .running ∧
      parse letterOptions false fuel
          (some ["prog".toList, "-a".toList, "-a".toList, "-f".toList, "x".toList, "y".toList])
          emptyCmdLine ≠ .running ∧
      (parse letterOptions false fuel
          (some ["prog".toList, "-a".toList, "-af".toList, "x".toList, "y".toList])
          emptyCmdLine).results
        = (parse letterOptions false fuel
          (some ["prog".toList, "-a".toList, "-a".toList, "-f".toList, "x".toList, "y".toList])
          emptyCmdLine).results := by
  have hbefore : ReadAsOptions letterOptions ["-a".toList] :=
    .option [] (.short (by decide) rfl) rfl (by decide) .nil
  have hbundle : Bundle letterOptions "af".toList ["x".toList]
      ["-a".toList, "-f".toList, "x".toList] :=
    .cons [] rfl rfl (.cons ["x".toList] rfl rfl .nil)
  exact bundle_parses_like_expansion hbefore rfl (by decide) (by decide) hbundle false "prog".toList
    ["y".toList] emptyCmdLine

/-- **A token that is a parameter or in the tail is not expanded**, although its letters are options
without parameters. -/
theorem bundle_as_parameter_differs :
    Bundle letterOptions "aa".toList [] ["-a".toList, "-a".toList] ∧
      findOption letterOptions "aa".toList = none ∧
      (parseLetters ["-f", "-aa"]).results ≠ (parseLetters ["-f", "-a", "-a"]).results ∧
      (parseLetters ["--", "-aa"]).results ≠ (parseLetters ["--", "-a", "-a"]).results := by
  refine ⟨bundle_aa, rfl, fun h => ?_, fun h => ?_⟩
  · have hparams := congrArg (Option.map fun r => r.2.1) h
    revert hparams
    decide
  · have htail := congrArg (Option.map fun r => r.2.2.1) h
    revert htail
    decide

/-- `-f` names its option. -/
lemma names_f : Names letterOptions "-f".toList (letterOption 'f' 1) := .short (by decide) rfl

theorem cmd_line_parse_iff_af :
    parseLetters ["-af", "x"] ≠ .running ∧
      Lawful letterOptions false "prog".toList ["-af".toList, "x".toList]
        (parseLetters ["-af", "x"]) := by
  have hsplits : Splits letterOptions false 'a' ['f'] ["x".toList]
      ["-a".toList, "-f".toList, "x".toList] 1 := ⟨by decide, rfl, by decide, rfl⟩
  have hnames : Names letterOptions "-a".toList (letterOption 'a' 0) := .short (by decide) rfl
  have hlacks : ¬ Lacks letterOptions false ["-af".toList, "x".toList] := by
    intro h
    have hexpanded := hsplits.lacks_iff.mp h
    have hbehind := (hnames.lacks_iff (by decide) (by decide)).mp hexpanded
    exact not_lacks_nil ((names_f.lacks_iff (by decide) (by decide)).mp hbehind)
  have hboth := cmd_line_parse_iff letterOptions false "prog".toList ["-af".toList, "x".toList]
    emptyCmdLine 9 (by decide)
  exact ⟨hboth.1, hboth.2.mpr hlacks⟩

/-- **Missing parameters**: `-f` is in no option and not in the tail; and with `-ab x`, where `-b`
takes two parameters, a vector is freed twice. -/
theorem missing_parameters_lose_tokens :
    (parseLetters ["-f"]).results = some (.silent, [], [], emptyCmdLine.world) ∧
      ¬ Lawful letterOptions false "prog".toList ["-f".toList] (parseLetters ["-f"]) ∧
      parseLetters ["-ab", "x"] = .undefined := by
  refine ⟨rfl, ?_, rfl⟩
  have hlacks : Lacks letterOptions false ["-f".toList] :=
    .option names_f (by decide) (by decide)
  have hends : parseLetters ["-f"] ≠ .running := by
    have heq : parseLetters ["-f"]
        = .returns .silent { emptyCmdLine with argv := ["prog".toList, "-f".toList] } := rfl
    rw [heq]
    exact nofun
  have hread : ReadTo letterOptions false ["prog".toList] ⟨[], [], [], emptyCmdLine.world⟩
      ["-f".toList] (parseLetters ["-f"]) := parseLoop_readTo _ _ 9 _ _ _ hends
  exact fun hlawful => hread.lawful_iff.mp hlawful hlacks

end Ocoms
