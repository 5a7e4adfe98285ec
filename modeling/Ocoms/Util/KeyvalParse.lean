import Ocoms.Lib.LongestMatch
import Ocoms.Lib.Strings

/-!
Key/value files: `keyval_lex.l` and `keyval_parse.c`.

* `keyvalRules` are the rules of the scanner, in their order. `lexStep` is one match and its action,
  `keyvalScan` all of them up to the end of the file; the tokens are those of the matches whose
  action returns.
* `keyvalParse` is the parser. Its calls of the callback are a list of assignments.
-/

namespace Ocoms

open PatternPart

/-! ### The scanner -/

/-- What `yylex` returns, with `yytext`. The end of the file, `DONE`, is no token. -/
inductive KeyvalToken
  | newline
  | equal
  | singleWord (text : CString)
  | value (text : CString)
  | error
  deriving DecidableEq, Repr

/-- The start conditions. -/
inductive StartCondition
  | initial
  | value
  | comment
  deriving DecidableEq, Repr

/-- `WHITE`. -/
def isWhite (c : Char) : Bool := c = '\x0c' || c = '\t' || c = '\x0b' || c = ' '

/-- `CHAR`. -/
def isNameChar (c : Char) : Bool := c.isAlphanum || c = '_' || c = '-' || c = '.'

/-- `[\t ]`. -/
def isBlank (c : Char) : Bool := c = '\t' || c = ' '

/-- `[^\n]`, which is `.` too. -/
def onLine (c : Char) : Bool := c != '\n'

/-- The character `c`. -/
def only (c : Char) : Char → Bool := fun d => d = c

/-- What the action of a rule does: it counts a line, changes the start condition, and returns. -/
structure LexAction where
  newline : Bool := false
  begins : Option StartCondition := none
  returns : Option (CString → KeyvalToken) := none

/-- The rules for `keyval_lex.l`. -/
abbrev KeyvalRule := Rule StartCondition Char LexAction

/-- `{WHITE}*\n` -/
def newlineRule : KeyvalRule where
  conditions := [.initial]
  head := [many isWhite, one (only '\n')]
  action := { newline := true, returns := some fun _ => .newline }

/-- `#.*\n` -/
def hashRule : KeyvalRule where
  conditions := [.initial]
  head := [one (only '#'), many onLine, one (only '\n')]
  action := { newline := true, returns := some fun _ => .newline }

/-- `"//".*\n` -/
def slashesRule : KeyvalRule where
  conditions := [.initial]
  head := [one (only '/'), one (only '/'), many onLine, one (only '\n')]
  action := { newline := true, returns := some fun _ => .newline }

/-- `"/*"` -/
def openRule : KeyvalRule where
  conditions := [.initial]
  head := [one (only '/'), one (only '*')]
  action := { begins := some .comment, returns := some fun _ => .newline }

/-- `<comment>[^*\n]*` -/
def commentTextRule : KeyvalRule where
  conditions := [.comment]
  head := [many fun c => c != '*' && c != '\n']
  action := {}

/-- `<comment>"*"+[^*/\n]*` -/
def commentStarsRule : KeyvalRule where
  conditions := [.comment]
  head := [one (only '*'), many (only '*'), many fun c => c != '*' && c != '/' && c != '\n']
  action := {}

/-- `<comment>\n` -/
def commentNewlineRule : KeyvalRule where
  conditions := [.comment]
  head := [one (only '\n')]
  action := { newline := true, returns := some fun _ => .newline }

/-- `<comment>"*"+"/"` -/
def closeRule : KeyvalRule where
  conditions := [.comment]
  head := [one (only '*'), many (only '*'), one (only '/')]
  action := { begins := some .initial, returns := some fun _ => .newline }

/-- `{WHITE}*"="{WHITE}*` -/
def equalRule : KeyvalRule where
  conditions := [.initial]
  head := [many isWhite, one (only '='), many isWhite]
  action := { begins := some .value, returns := some fun _ => .equal }

/-- `{WHITE}+` -/
def whiteRule : KeyvalRule where
  conditions := [.initial]
  head := [one isWhite, many isWhite]
  action := {}

/-- `{CHAR}+` -/
def wordRule : KeyvalRule where
  conditions := [.initial]
  head := [one isNameChar, many isNameChar]
  action := { returns := some .singleWord }

/-- `<VALUE>{WHITE}*\n`; it does not count the line. -/
def valueNewlineRule : KeyvalRule where
  conditions := [.value]
  head := [many isWhite, one (only '\n')]
  action := { begins := some .initial, returns := some fun _ => .newline }

/-- `<VALUE>[^\n]*[^\t \n]/[\t ]*` -/
def valueRule : KeyvalRule where
  conditions := [.value]
  head := [many onLine, one fun c => !isBlank c && onLine c]
  trail := [many isBlank]
  action := { returns := some .value }

/-- `.` -/
def errorRule : KeyvalRule where
  conditions := [.initial]
  head := [one onLine]
  action := { returns := some fun _ => .error }

/-- The default rule: a character that nothing matches is written out. -/
def echoRule : KeyvalRule where
  conditions := [.initial, .value, .comment]
  head := [one fun _ => true]
  action := {}

/-- The rules, in their order. -/
def keyvalRules : List KeyvalRule :=
  [newlineRule, hashRule, slashesRule, openRule, commentTextRule, commentStarsRule,
    commentNewlineRule, closeRule, equalRule, whiteRule, wordRule, valueNewlineRule, valueRule,
    errorRule, echoRule]

/-- The state of the scanner: the start condition, the rest of the file, and `yynewlines`. -/
structure LexState where
  start : StartCondition
  rest : CString
  yynewlines : ℕ

/-- The state at the start of a file. -/
def LexState.ofText (text : CString) : LexState :=
  { start := .initial, rest := text, yynewlines := 1 }

/-- One match and its action: the token if it returns, and the state behind it. `none` is the end of
the file. -/
def lexStep (s : LexState) : Option (Option KeyvalToken × LexState) :=
  match s.rest with
  | [] => none
  | c :: rest =>
      (Rule.scan keyvalRules s.start (c :: rest)).map fun (n, action) =>
        -- `yytext` is a string
        let yytext := ((c :: rest).take n).takeWhile (· ≠ '\x00')
        (action.returns.map fun token => token yytext,
          { start := action.begins.getD s.start
            rest := (c :: rest).drop n
            yynewlines := if action.newline then s.yynewlines + 1 else s.yynewlines })

/-- The matches of `yylex` up to the end of the file. -/
def keyvalScan : ℕ → LexState → Option (List (Option KeyvalToken × LexState))
  | 0, _ => none
  | fuel + 1, s =>
      match lexStep s with
      | none => some []
      | some (token, s') => (keyvalScan fuel s').map ((token, s') :: ·)

/-- What the calls of `yylex` return in front of `DONE`. -/
def keyvalTokens (matched : List (Option KeyvalToken × LexState)) : List KeyvalToken :=
  matched.filterMap Prod.fst

/-! ### The parser -/

/-- An assignment: the arguments of the callback. -/
abbrev Assignment := CString × Option CString

/-- `parse_line`, behind the name: the tokens that it leaves, and the call of the callback. -/
def parseLine (name : CString) : List KeyvalToken → List KeyvalToken × Option Assignment
  -- the token behind the value is read whether it is the newline or not
  | .equal :: .singleWord text :: rest => (rest.tail, some (name, some text))
  | .equal :: .value text :: rest => (rest.tail, some (name, some text))
  | .equal :: .newline :: rest => (rest, some (name, none))
  | [.equal] => ([], some (name, none))
  | .equal :: _ :: rest => (rest, none)
  | rest => (rest.tail, none)

lemma length_parseLine_le (name : CString) (tokens : List KeyvalToken) :
    (parseLine name tokens).1.length ≤ tokens.length := by
  rw [parseLine.eq_def]
  split <;> simp <;> omega

/-- The loop of `ocoms_util_keyval_parse`. -/
def keyvalParse : List KeyvalToken → List Assignment
  | [] => []
  | .singleWord name :: rest =>
      have := length_parseLine_le name rest
      (parseLine name rest).2.toList ++ keyvalParse (parseLine name rest).1
  | _ :: rest => keyvalParse rest
  termination_by tokens => tokens.length

end Ocoms
