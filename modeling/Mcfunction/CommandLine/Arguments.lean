import Mcfunction.Parser.Document

/-!
# What the Command Line Asks For

A `Request` is what the arguments of the command line ask for: an action with its operand and its
flags, the format of the results as far as one is given, and the limit on nesting. Which arguments
ask for what is settled by whoever takes them apart; the program is given a reader of arguments
and works with any.

`Draft.readAll` is such a reader for the arguments as they are commonly written. An action is a
word with one operand; options start with two dashes and stand anywhere after the action, and the
two that concern every action also before it. An option's value is the argument after it or
follows an equals sign. After an argument `--` no more options are recognized. The arguments are
read one after the other, each by `Draft.step`; what has been read so far is a `Draft`, and
`Draft.finish` tells what it asks for. Help texts are not among the things it can be asked for.
-/

namespace Mcfunction.CommandLine

/-! ### Requests -/

/-- How results are written. -/
inductive Format where
  /-- For people: results as text, diagnostics in colour. -/
  | pretty
  /-- For tools: everything as JSON. -/
  | json
deriving DecidableEq

/-- The format that is asked for by name. Without a name a terminal is written to for people, and
everything else for tools. -/
def Format.resolve (isTerminal : Bool) (name : Option String) : Format :=
  match name with
  | some "json" => .json
  | some "pretty" => .pretty
  | _ => if isTerminal then .pretty else .json

/-- The form in which a tree is written. -/
inductive TreeForm where
  /-- JSON. -/
  | json
  /-- An S-expression. -/
  | sexp
  /-- An S-expression with the place of every node. -/
  | sexpWithRanges
deriving DecidableEq

/-- The form that the flags ask for. -/
def TreeForm.ofFlags (sexp ranges : Bool) : TreeForm :=
  match sexp, ranges with
  | true, true => .sexpWithRanges
  | true, false => .sexp
  | false, _ => .json

/-- Where a text comes from. -/
inductive Source where
  /-- Standard input. -/
  | standardInput
  /-- A file. -/
  | file (name : String)
deriving DecidableEq

/-- The source that an operand names: a dash alone is standard input. -/
def Source.ofOperand (operand : String) : Source :=
  if operand = "-" then .standardInput else .file operand

/-- What to do with a text. -/
inductive Task where
  /-- Write its tree: as an S-expression or not, with the places of the nodes or not, and only if
  the text has no error or with what can be read of it. -/
  | parse (sexp ranges strict : Bool)
  /-- Tell whether it is valid. -/
  | check
  /-- Write its tokens. -/
  | tokens
deriving DecidableEq

/-- What to do. -/
inductive Action where
  /-- Explain a diagnostic. -/
  | explain (id : String)
  /-- Do something with the text that an operand names. -/
  | process (task : Task) (operand : String)
deriving DecidableEq

/-- What the arguments ask for. -/
structure Request where
  /-- What to do. -/
  action : Action
  /-- The name of the format of the results. -/
  output : Option String
  /-- How deep containers and run clauses may nest. -/
  maxDepth : Nat
deriving DecidableEq

/-! ### A reader of arguments -/

/-- The words for actions. -/
inductive Verb where
  /-- `parse` -/
  | parse
  /-- `syntax-check` or `check` -/
  | check
  /-- `tokens` -/
  | tokens
  /-- `explain` -/
  | explain
deriving DecidableEq

/-- The action that a word stands for. -/
def Verb.ofWord? : String → Option Verb
  | "parse" => some .parse
  | "syntax-check" => some .check
  | "check" => some .check
  | "tokens" => some .tokens
  | "explain" => some .explain
  | _ => none

/-- The options that take no value. -/
inductive Flag where
  /-- `--sexp` -/
  | sexp
  /-- `--ranges` -/
  | ranges
  /-- `--strict` -/
  | strict
deriving DecidableEq

/-- The flag of an option's name after an action. -/
def Flag.ofName? : Verb → String → Option Flag
  | .parse, "sexp" => some .sexp
  | .parse, "ranges" => some .ranges
  | .parse, "strict" => some .strict
  | _, _ => none

/-- The options that take a value. -/
inductive Setting where
  /-- `--output` -/
  | output
  /-- `--max-depth` -/
  | maxDepth
deriving DecidableEq

/-- The setting of an option's name. -/
def Setting.ofName? : String → Option Setting
  | "output" => some .output
  | "max-depth" => some .maxDepth
  | _ => none

/-- The name of a setting as it is written. -/
def Setting.name : Setting → String
  | .output => "--output"
  | .maxDepth => "--max-depth"

/-- What is wrong with the arguments. -/
inductive UsageFault where
  /-- There is no action. -/
  | missingAction
  /-- There is no action of that name. -/
  | unknownAction (word : String)
  /-- There is no such option here. -/
  | unknownOption (argument : String)
  /-- An option is given twice. -/
  | repeatedOption (argument : String)
  /-- An option has no value. -/
  | missingValue (setting : Setting)
  /-- An option that takes no value has one. -/
  | unexpectedValue (argument : String)
  /-- A value is none that the option takes. -/
  | invalidValue (setting : Setting) (value : String)
  /-- The action has no operand. -/
  | missingOperand
  /-- The action has more than one operand. -/
  | unexpectedOperand (argument : String)
  /-- Ranges are asked for without an S-expression. -/
  | rangesWithoutSexp
deriving DecidableEq

/-- The fault in words. -/
def UsageFault.message : UsageFault → String
  | .missingAction => "an action is required: parse, syntax-check, tokens or explain"
  | .unknownAction word => s!"unrecognized action '{word}'"
  | .unknownOption argument => s!"unexpected argument '{argument}'"
  | .repeatedOption argument => s!"the argument '{argument}' cannot be used multiple times"
  | .missingValue setting => s!"a value is required for '{setting.name}'"
  | .unexpectedValue argument => s!"unexpected value in '{argument}'"
  | .invalidValue setting value => s!"invalid value '{value}' for '{setting.name}'"
  | .missingOperand => "the operand of the action is missing"
  | .unexpectedOperand argument => s!"unexpected argument '{argument}'"
  | .rangesWithoutSexp => "the argument '--ranges' requires '--sexp'"

/-- The settings given on one side of the action. -/
structure Choices where
  /-- The name of the format of the results. -/
  output : Option String
  /-- How deep containers and run clauses may nest. -/
  limit : Option Nat
deriving DecidableEq

/-- Reads a limit: digits, after a plus sign or not, of a number below `2 ^ 64`. -/
def limit? (text : String) : Option Nat :=
  let digits :=
    match text.toList with
    | '+' :: digits => digits
    | digits => digits
  let value := Decimal.readDigits 0 digits
  if digits.isEmpty || !digits.all Char.isDigit || Nat.pow 2 64 ≤ value then none else some value

/-- Sets what a setting's value says, unless it is set already. -/
def Choices.set (choices : Choices) (setting : Setting) (value : String) :
    Except UsageFault Choices :=
  match setting with
  | .output =>
    if value ≠ "pretty" ∧ value ≠ "json" then .error (.invalidValue setting value)
    else if choices.output.isSome then .error (.repeatedOption setting.name)
    else .ok { choices with output := some value }
  | .maxDepth =>
    match choices.limit, limit? value with
    | _, none => .error (.invalidValue setting value)
    | some _, some _ => .error (.repeatedOption setting.name)
    | none, some limit => .ok { choices with limit := some limit }

/-- What has been read of the arguments. -/
structure Draft where
  /-- Whether the version is asked for; then nothing else counts. -/
  version : Bool
  /-- The action, once it has been read. -/
  verb : Option Verb
  /-- The settings before the action. -/
  before : Choices
  /-- The settings after the action. -/
  after : Choices
  /-- The flags. -/
  flags : List Flag
  /-- The operand. -/
  operand : Option String
  /-- The setting whose value comes next. -/
  pending : Option Setting
  /-- Whether no more options are recognized. -/
  operandsOnly : Bool
deriving DecidableEq

namespace Draft

/-- Nothing has been read. -/
def empty : Draft :=
  ⟨false, none, ⟨none, none⟩, ⟨none, none⟩, [], none, none, false⟩

/-- Reads the value of a setting. -/
def set (draft : Draft) (setting : Setting) (value : String) : Except UsageFault Draft :=
  match draft.verb with
  | none => (draft.before.set setting value).map fun choices =>
    { draft with before := choices, pending := none }
  | some _ => (draft.after.set setting value).map fun choices =>
    { draft with after := choices, pending := none }

/-- Reads a flag. -/
def raise (draft : Draft) (flag : Flag) (argument : String) : Except UsageFault Draft :=
  if draft.flags.contains flag then .error (.repeatedOption argument)
  else .ok { draft with flags := flag :: draft.flags }

/-- Reads a word that is no option: the action first, then its operand. -/
def word (draft : Draft) (argument : String) : Except UsageFault Draft :=
  match draft.verb, draft.operand with
  | none, _ =>
    match Verb.ofWord? argument with
    | some verb =>
      if draft.operandsOnly then .error (.unexpectedOperand argument)
      else .ok { draft with verb := some verb }
    | none => .error (.unknownAction argument)
  | some _, none => .ok { draft with operand := some argument }
  | some _, some _ => .error (.unexpectedOperand argument)

/-- Reads an option by its name, and by its value if one follows an equals sign. -/
def option (draft : Draft) (argument name : String) (value : Option String) :
    Except UsageFault Draft :=
  match Setting.ofName? name, draft.verb.bind (Flag.ofName? · name), value with
  | some setting, _, some value => draft.set setting value
  | some setting, _, none => .ok { draft with pending := some setting }
  | none, some _, some _ => .error (.unexpectedValue argument)
  | none, some flag, none => draft.raise flag argument
  | none, none, value =>
    if draft.verb.isNone && name = "version" then
      if value.isSome then .error (.unexpectedValue argument)
      else .ok { draft with version := true }
    else .error (.unknownOption argument)

/-- The name of an option, and what follows its equals sign. -/
def splitOption (chars : List Char) : String × Option String :=
  let name := String.ofList (chars.takeWhile (· != '='))
  match chars.dropWhile (· != '=') with
  | [] => (name, none)
  | _ :: value => (name, some (String.ofList value))

/-- Reads an argument where an option may stand. -/
def optionOrWord (draft : Draft) (argument : String) : Except UsageFault Draft :=
  match argument.toList with
  | ['-', '-'] => .ok { draft with operandsOnly := true }
  | '-' :: '-' :: chars =>
    let (name, value) := splitOption chars
    draft.option argument name value
  | ['-'] => draft.word argument
  | '-' :: letter :: _ =>
    if draft.verb.isNone && letter = 'V' then .ok { draft with version := true }
    else .error (.unknownOption argument)
  | _ => draft.word argument

/-- Whether an argument looks like an option, so that it is no value. -/
def looksLikeOption (argument : String) : Bool :=
  match argument.toList with
  | '-' :: _ :: _ => true
  | _ => false

/-- Reads one more argument. -/
def step (draft : Draft) (argument : String) : Except UsageFault Draft :=
  if draft.version then .ok draft
  else if draft.operandsOnly then draft.word argument
  else
    match draft.pending with
    | some setting =>
      if looksLikeOption argument then .error (.missingValue setting)
      else draft.set setting argument
    | none => draft.optionOrWord argument

/-- The action that a word, its flags and its operand stand for. -/
def action (verb : Verb) (flags : List Flag) (operand : String) : Except UsageFault Action :=
  match verb with
  | .parse =>
    if flags.contains .ranges && !flags.contains .sexp then .error .rangesWithoutSexp
    else
      let task :=
        Task.parse (flags.contains .sexp) (flags.contains .ranges) (flags.contains .strict)
      .ok (.process task operand)
  | .check => .ok (.process .check operand)
  | .tokens => .ok (.process .tokens operand)
  | .explain => .ok (.explain operand)

/-- What the arguments ask for, once all have been read; nothing if it is the version. A setting
after the action counts more than the same one before it. -/
def finish (draft : Draft) : Except UsageFault (Option Request) :=
  if draft.version then .ok none
  else
    match draft.pending, draft.verb, draft.operand with
    | some setting, _, _ => .error (.missingValue setting)
    | none, none, _ => .error .missingAction
    | none, some _, none => .error .missingOperand
    | none, some verb, some operand =>
      let output := draft.after.output <|> draft.before.output
      let limit := draft.after.limit <|> draft.before.limit
      (action verb draft.flags operand).map fun action =>
        some ⟨action, output, limit.getD (ParseOptions.maxDepth {})⟩

/-- What the arguments ask for; nothing if it is the version. -/
def readAll (arguments : List String) : Except UsageFault (Option Request) :=
  (arguments.foldlM step empty).bind finish

end Draft

end Mcfunction.CommandLine
