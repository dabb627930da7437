/-!
Command lines. Options may stand anywhere before `--`; a short option may be clustered with others
and take its value in the same word. Words are taken from left to right, so that the first help or
version option and the first mistake decide.
-/

namespace Typestate.Command

inductive OutputFormat where
  | text
  | json
  | github
  deriving DecidableEq

def OutputFormat.ofName? : String → Option OutputFormat
  | "text" => some text
  | "json" => some json
  | "github" => some github
  | _ => none

/-- What a user asks to be checked. -/
structure Options where
  graphs : List String
  config : Option String
  format : OutputFormat
  verbosity : Nat
  deriving DecidableEq

/-- What a command line asks for. -/
inductive Request where
  | check (options : Options)
  | help
  | version
  /-- The command line has a mistake. -/
  | usage
  deriving DecidableEq

/-- What has been taken from a command line so far; graphs last one first. -/
structure Taken where
  graphs : List String := []
  config : Option String := none
  format : Option OutputFormat := none
  verbosity : Nat := 0

inductive Valued where
  | config
  | format
  deriving DecidableEq

/-- What a word asks for by itself. -/
inductive Effect where
  | taken (t : Taken)
  /-- The next word is the value of an option. -/
  | awaits (option : Valued) (t : Taken)
  | answer (r : Request)

namespace Taken

/-- A graph; its name is not empty. -/
def addGraph (t : Taken) (name : String) : Effect :=
  if name = "" then .answer .usage else .taken { t with graphs := name :: t.graphs }

/-- The value of an option, which is given at most once. -/
def setValue (t : Taken) (option : Valued) (value : String) : Effect :=
  match option with
  | .config =>
    if t.config.isSome ∨ value = "" then .answer .usage
    else .taken { t with config := some value }
  | .format =>
    match t.format, OutputFormat.ofName? value with
    | none, some f => .taken { t with format := some f }
    | _, _ => .answer .usage

def raiseVerbosity (t : Taken) : Taken :=
  { t with verbosity := t.verbosity + 1 }

/-- A row of short options after a dash. -/
def short (t : Taken) : List Char → Effect
  | [] => .taken t
  | 'h' :: _ => .answer .help
  | 'V' :: _ => .answer .version
  | 'v' :: rest => t.raiseVerbosity.short rest
  | c :: rest =>
    let option? : Option Valued :=
      if c = 'c' then some .config else if c = 'f' then some .format else none
    match option?, rest with
    | none, _ => .answer .usage
    | some option, [] => .awaits option t
    | some option, '=' :: value => t.setValue option (String.ofList value)
    | some option, value => t.setValue option (String.ofList value)

/-- A long option after its dashes, with the value that follows an equals sign. -/
def long (t : Taken) (name : String) (value : Option String) : Effect :=
  match name, value with
  | "help", none => .answer .help
  | "version", none => .answer .version
  | "verbose", none => .taken t.raiseVerbosity
  | "config", none => .awaits .config t
  | "config", some v => t.setValue .config v
  | "format", none => .awaits .format t
  | "format", some v => t.setValue .format v
  | _, _ => .answer .usage

def splitValue (cs : List Char) : String × Option String :=
  let name := cs.takeWhile (· ≠ '=')
  match cs.dropWhile (· ≠ '=') with
  | [] => (String.ofList name, none)
  | _ :: value => (String.ofList name, some (String.ofList value))

def word (t : Taken) (w : String) : Effect :=
  match w.toList with
  | '-' :: '-' :: cs => let (name, value) := splitValue cs; t.long name value
  | '-' :: c :: cs => t.short (c :: cs)
  | _ => t.addGraph w

/-- The request at the end of a command line; there must be a graph. -/
def finish (t : Taken) : Request :=
  if t.graphs.isEmpty then .usage
  else .check ⟨t.graphs.reverse, t.config, t.format.getD .text, t.verbosity⟩

/-- The words after `--`, which all name graphs. -/
def graphsOnly (t : Taken) (words : List String) : Request :=
  if "" ∈ words then .usage else { t with graphs := words.reverse ++ t.graphs }.finish

end Taken

/-- Whether a word can be the value of an option that stands before it. -/
def isValue (w : String) : Bool :=
  w = "-" || w.toList.head? ≠ some '-'

/-- Takes the words of a command line; `awaiting` is the option whose value comes next. -/
def takeWords (t : Taken) (awaiting : Option Valued) : List String → Request
  | [] => if awaiting.isSome then .usage else t.finish
  | w :: rest =>
    let effect : Effect :=
      match awaiting with
      | some option => if isValue w then t.setValue option w else .answer .usage
      | none => t.word w
    if w = "--" ∧ awaiting.isNone then t.graphsOnly rest
    else
      match effect with
      | .taken t => takeWords t none rest
      | .awaits option t => takeWords t (some option) rest
      | .answer r => r

def Request.ofArgs (args : List String) : Request :=
  takeWords {} none args

end Typestate.Command
