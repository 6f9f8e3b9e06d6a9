import SceneSearch.Disk.Path
import SceneSearch.Number.Literal
import SceneSearch.Search.Log

/-!
# Command lines

The arguments of a command are options and positional arguments in any order; the arguments in
front of the command are options only. An option has a long name, or a letter, several of which may
share a dash. A value follows as the next argument whatever that is, after an equals sign, or
directly behind the letter. Two dashes end the options. An option that is given twice counts as it
was given last, except where all of its values are collected.
-/

namespace SceneSearch

namespace Command

/-! ## Options -/

/-- The options of all commands. -/
inductive OptionName where
  | verbose
  | quiet
  | help
  | select
  | page
  | json
  | dataDirectory
  | node
  | maxDepth
deriving DecidableEq, Repr

/-- How an option is written. -/
structure OptionSpec where
  /-- Which option it is. -/
  option : OptionName
  /-- The long name. -/
  long : String
  /-- The letter, if it has one. -/
  short : Option Char
  /-- Whether a value belongs to it. -/
  takesValue : Bool

/-- An option that was given, with its value. -/
structure Given where
  /-- Which option it is. -/
  option : OptionName
  /-- Its value; nothing for an option without one. -/
  value : String := ""
deriving DecidableEq, Repr

/-- A command line that cannot be understood. -/
structure UsageFault where
deriving DecidableEq, Repr

/-- What one argument gives: options, and perhaps one more that waits for its value. -/
structure Word where
  /-- The options that are complete. -/
  complete : List Given := []
  /-- An option whose value is the next argument. -/
  waiting : Option OptionName := none

def longWord (specs : List OptionSpec) (body : List Char) : Except UsageFault Word :=
  let name := String.ofList (body.takeWhile (· ≠ '='))
  match specs.find? (·.long == name), body.dropWhile (· ≠ '=') with
  | some spec, _ :: value =>
    if spec.takesValue then .ok { complete := [⟨spec.option, String.ofList value⟩] } else .error {}
  | some spec, [] =>
    if spec.takesValue then .ok { waiting := some spec.option }
    else .ok { complete := [⟨spec.option, ""⟩] }
  | none, _ => .error {}

def shortWord (specs : List OptionSpec) : List Char → Except UsageFault Word
  | [] => .ok {}
  | letter :: rest =>
    match specs.find? (·.short == some letter) with
    | none => .error {}
    | some spec =>
      if spec.takesValue then
        if rest.isEmpty then .ok { waiting := some spec.option }
        else .ok { complete := [⟨spec.option, String.ofList rest⟩] }
      else
        (shortWord specs rest).map fun w ↦ { w with complete := ⟨spec.option, ""⟩ :: w.complete }

structure Sorted where
  /-- The options, in order. -/
  given : List Given := []
  /-- The positional arguments, in order. -/
  positionals : List String := []

/-- The value of an option as it was given last. -/
def Sorted.last? (s : Sorted) (option : OptionName) : Option String :=
  (s.given.reverse.find? (·.option = option)).map Given.value

def Sorted.has (s : Sorted) (option : OptionName) : Bool := (s.last? option).isSome

def Sorted.all (s : Sorted) (option : OptionName) : List String :=
  (s.given.filter (·.option = option)).map Given.value

/-- Tells options and positional arguments apart; `mixed` tells whether options may follow
positional arguments. -/
def sortArguments (specs : List OptionSpec) (mixed : Bool) : List String → Except UsageFault Sorted
  | [] => .ok {}
  | arg :: rest =>
    match arg.toList with
    -- behind two dashes nothing is an option
    | ['-', '-'] => .ok { positionals := rest }
    | '-' :: c :: body =>
      match if c = '-' then longWord specs body else shortWord specs (c :: body) with
      | .error fault => .error fault
      | .ok ⟨complete, none⟩ =>
        (sortArguments specs mixed rest).map fun s ↦ { s with given := complete ++ s.given }
      | .ok ⟨complete, some option⟩ =>
        -- a value may start with a dash
        match rest with
        | [] => .error {}
        | value :: rest =>
          (sortArguments specs mixed rest).map fun s ↦
            { s with given := complete ++ ⟨option, value⟩ :: s.given }
    | _ =>
      if mixed then
        (sortArguments specs mixed rest).map fun s ↦ { s with positionals := arg :: s.positionals }
      else .ok { positionals := arg :: rest }

/-! ## Commands -/

def helpOption : OptionSpec := ⟨.help, "help", none, false⟩

/-- The options in front of the command. -/
def globalOptions : List OptionSpec :=
  [⟨.verbose, "verbose", some 'v', false⟩, ⟨.quiet, "quiet", some 'q', false⟩, helpOption]

def dataDirectoryOption : OptionSpec := ⟨.dataDirectory, "data-dir", some 'd', true⟩

def searchOptions : List OptionSpec :=
  [⟨.select, "select", some 's', true⟩, ⟨.page, "page", some 'p', true⟩,
    ⟨.json, "json", some 'j', false⟩, dataDirectoryOption, helpOption]

def treeOptions : List OptionSpec :=
  [⟨.node, "node", some 'n', true⟩, ⟨.maxDepth, "max-depth", some 'm', true⟩, helpOption]

def lastOptions : List OptionSpec := [dataDirectoryOption, helpOption]

inductive Action where
  /-- Runs a query on a document and prints what it selects. -/
  | search (document : PlainPath) (query : String) (select : List String) (page : Option String)
      (dataDirectory : Option PlainPath) (json : Bool)
  /-- Prints a document or a part of it as an outline. -/
  | tree (document : PlainPath) (node : Option String) (maxDepth : Option Int)
  /-- Prints the last query. -/
  | last (dataDirectory : Option PlainPath)
  /-- Prints how to use the command. -/
  | help
deriving DecidableEq, Repr

/-- A command line that was understood. -/
structure Invocation where
  /-- The least level of records that are shown. -/
  threshold : LogLevel
  /-- What is to be done. -/
  action : Action
deriving DecidableEq, Repr

def pathArgument (text : String) : Except UsageFault PlainPath :=
  match PlainPath.ofText? text with
  | some p => .ok p
  | none => .error {}

def wholeArgument (text : String) : Except UsageFault Int :=
  match wholeOfText? text with
  | some n => .ok n
  | none => .error {}

/-- The value of an option as it was given last, read. -/
def Sorted.read {α : Type} (s : Sorted) (option : OptionName)
    (argument : String → Except UsageFault α) : Except UsageFault (Option α) :=
  match s.last? option with
  | some text => (argument text).map some
  | none => .ok none

def parseSearch (args : List String) : Except UsageFault Action := do
  let s ← sortArguments searchOptions true args
  if s.has .help then return .help
  match s.positionals with
  | [document, query] =>
    pure (.search (← pathArgument document) query (s.all .select) (s.last? .page)
      (← s.read .dataDirectory pathArgument) (s.has .json))
  | _ => throw {}

def parseTree (args : List String) : Except UsageFault Action := do
  let s ← sortArguments treeOptions true args
  if s.has .help then return .help
  match s.positionals with
  | [document] =>
    pure (.tree (← pathArgument document) (s.last? .node) (← s.read .maxDepth wholeArgument))
  | _ => throw {}

def parseLast (args : List String) : Except UsageFault Action := do
  let s ← sortArguments lastOptions true args
  if s.has .help then return .help
  match s.positionals with
  | [] => pure (.last (← s.read .dataDirectory pathArgument))
  | _ => throw {}

/-- The records that are shown: all of them if more is asked for, even if less is as well. -/
def thresholdOf (verbose quiet : Bool) : LogLevel :=
  if verbose then .debug else if quiet then .warning else .info

def parse (args : List String) : Except UsageFault Invocation := do
  let s ← sortArguments globalOptions false args
  let threshold := thresholdOf (s.has .verbose) (s.has .quiet)
  if s.has .help then return ⟨threshold, .help⟩
  match s.positionals with
  | "search" :: rest => (parseSearch rest).map (⟨threshold, ·⟩)
  | "tree" :: rest => (parseTree rest).map (⟨threshold, ·⟩)
  | "last" :: rest => (parseLast rest).map (⟨threshold, ·⟩)
  | _ => throw {}

end Command

end SceneSearch
