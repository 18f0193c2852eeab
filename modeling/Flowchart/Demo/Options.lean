import Flowchart.Demo.Scenario

/-!
# Options of the demonstration

The command line has one optional word, the scenario, and three options with a value each. A value
follows its option as the next word, which then must not look like an option itself, or after an
equals sign. No option may be given twice. After a word that consists of two dashes only, all words
are scenarios.
-/

namespace Flowchart.Demo

/-- What the demonstration is asked to do. -/
structure Options where
  /-- The problem to demonstrate. -/
  scenario : Scenario
  /-- The depth for coverage. -/
  k : Nat
  /-- The time after which the exploration is stopped, in milliseconds. -/
  timeout : Nat
  /-- The name of the level at which the journal is kept. -/
  journal : String
  deriving DecidableEq

/-- The names of the options. -/
inductive Setting where
  /-- The depth for coverage. -/
  | depth
  /-- The time after which the exploration is stopped. -/
  | timeout
  /-- The level of the journal. -/
  | journal
  deriving DecidableEq

/-- The option with a given name. -/
def Setting.ofFlag? : String → Option Setting
  | "--k" => some depth
  | "--timeout-ms" => some timeout
  | "--log-level" => some journal
  | _ => none

/-- The words of a command line sorted by what they set. -/
structure Given where
  /-- The scenario. -/
  scenario : Option String := none
  /-- The value of the depth. -/
  depth : Option String := none
  /-- The value of the timeout. -/
  timeout : Option String := none
  /-- The value of the level. -/
  journal : Option String := none

namespace Given

/-- Fill a place that is still free. -/
def fill (place : Option String) (value : String) : Option (Option String) :=
  if place.isSome then none else some (some value)

/-- Give an option its value, once. -/
def set (g : Given) (setting : Setting) (value : String) : Option Given :=
  match setting with
  | .depth => (fill g.depth value).map fun depth => { g with depth }
  | .timeout => (fill g.timeout value).map fun timeout => { g with timeout }
  | .journal => (fill g.journal value).map fun journal => { g with journal }

/-- Choose the scenario, once. -/
def choose (g : Given) (word : String) : Option Given :=
  (fill g.scenario word).map fun scenario => { g with scenario }

end Given

/-- Whether a word looks like an option. A single dash does not. -/
def looksLikeOption (word : String) : Bool :=
  match word.toList with
  | '-' :: _ :: _ => true
  | _ => false

/-- Cut a word at its first equals sign. -/
def cutAtEquals (word : String) : String × Option String :=
  let name := word.toList.takeWhile (· ≠ '=')
  match word.toList.drop name.length with
  | [] => (word, none)
  | _ :: value => (String.ofList name, some (String.ofList value))

/-- Sort the words of a command line; `none` if they do not make sense. -/
def Given.scan (g : Given) : List String → Option Given
  | [] => some g
  | word :: rest =>
    if word = "--" then rest.foldlM choose g
    else if looksLikeOption word then
      match cutAtEquals word, rest with
      | (name, some value), rest => do
        let g ← g.set (← Setting.ofFlag? name) value
        g.scan rest
      | (_, none), [] => none
      | (name, none), value :: rest =>
        if looksLikeOption value then none
        else do
          let g ← g.set (← Setting.ofFlag? name) value
          g.scan rest
    else do
      let g ← g.choose word
      g.scan rest

/-- Read a number below `2 ^ 64`: decimal digits, perhaps after a plus sign. -/
def readNumber? (word : String) : Option Nat :=
  let digits := match word.toList with
    | '+' :: digits => digits
    | digits => digits
  if digits.isEmpty || !digits.all Char.isDigit then none
  else
    let n := digits.foldl (fun n c => 10 * n + (c.toNat - '0'.toNat)) 0
    if n < UInt64.size then some n else none

/-- Read an optional word, with a value for the case that it is missing. -/
def readOr {α : Type} (missing : α) (read : String → Option α) : Option String → Option α
  | none => some missing
  | some word => read word

namespace Options

/-- The options that a command line asks for; `none` if it does not make sense. The name of the
level is not looked at here. -/
def ofWords? (words : List String) : Option Options := do
  let given ← ({} : Given).scan words
  let scenario ← readOr .race Scenario.ofKeyword? given.scenario
  let k ← readOr 10 readNumber? given.depth
  let timeout ← readOr 1000 readNumber? given.timeout
  return { scenario, k, timeout, journal := given.journal.getD "info" }

/-- The options as text. -/
def text (o : Options) : String :=
  "Cli \x7b scenario: " ++ o.scenario.title ++ ", k: " ++ o.k.repr ++ ", timeout_ms: " ++
  o.timeout.repr ++ ", log_level: \"" ++ o.journal ++ "\" \x7d"

end Options

/-- At what level the journal is kept, if at all. -/
abbrev Threshold := Option Level

/-- The threshold with a given name, in capitals or small letters; `none` if there is none. -/
def threshold? (name : String) : Option Threshold :=
  let name := name.map Char.toUpper
  if name = "OFF" then some none
  else (Level.all.find? (·.name = name)).map some

end Flowchart.Demo
