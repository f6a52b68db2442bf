import TableScan.Projection.Request

/-!
# Command arguments

The command line: `schema`, `plan` and `scan` with a location, options that take a value
(`--name value` or `--name=value`) and the switch `--sorted`. Behind `--` everything is a
location. `--help` and `--version` stop the reading where they stand, as does everything that is
not understood; the `Refusal` says which it was.

A value that has been read is checked when the next known argument begins, or at the end; an
argument that is not known at all is refused first.
-/

namespace TableScan

/-- Why arguments are not run. -/
inductive Refusal where
  | missingRequired
  | missingEverything
  | unknownCommand
  | unknownArgument
  | help
  | version
  | missingValue
  | malformedValue
  | repeated
  | needlessValue
  deriving DecidableEq, Repr

inductive ValueOption where
  | projection
  | config
  | signature
  | fields
  | seek
  | limit
  deriving DecidableEq, Repr

def ValueOption.name : ValueOption → String
  | .projection => "projection"
  | .config => "config"
  | .signature => "signature"
  | .fields => "fields"
  | .seek => "seek"
  | .limit => "limit"

inductive CommandName where
  | schema
  | plan
  | scan
  deriving DecidableEq, Repr

namespace CommandName

def ofWord? (word : String) : Option CommandName :=
  if word = "schema" then some .schema
  else if word = "plan" then some .plan
  else if word = "scan" then some .scan
  else none

def options : CommandName → List ValueOption
  | .schema => [.projection, .config, .signature]
  | .plan => [.projection, .config, .signature, .fields]
  | .scan => [.projection, .config, .signature, .fields, .seek, .limit]

end CommandName

/-- What every command is told about the load. -/
structure CommandOptions where
  location : String
  projection : Option String
  sorted : Bool
  config : Option String
  signature : String
  deriving DecidableEq, Repr

/-- A command with its arguments. -/
inductive Command where
  | schema (load : CommandOptions)
  | plan (load : CommandOptions) (fields : String)
  | scan (load : CommandOptions) (fields seek : Option String) (limit : Option Nat)
  deriving DecidableEq, Repr

namespace Arguments

/-- What stands on the command line so far. The pending option waits for its value, or for the
value it has to be checked. -/
structure Given where
  location : Option String
  sorted : Bool
  values : List (ValueOption × String)
  pending : Option (ValueOption × Option String)
  deriving DecidableEq, Repr

def Given.none : Given := ⟨Option.none, false, [], Option.none⟩

def checkValue (o : ValueOption) (value : String) : Except Refusal Unit :=
  match o with
  | .config => if value.isEmpty then .error .missingValue else .ok ()
  | .limit => if (FieldRequest.parseIndex? value).isSome then .ok () else .error .malformedValue
  | _ => .ok ()

/-- Takes over the value of an option, which may be given once. -/
def Given.accept (g : Given) (o : ValueOption) (value : String) : Except Refusal Given :=
  if g.values.any (·.1 == o) then .error .repeated
  else (checkValue o value).map fun _ => { g with values := g.values ++ [(o, value)] }

/-- Settles the pending option. -/
def Given.settle (g : Given) : Except Refusal Given :=
  match g.pending with
  | Option.none => .ok g
  | some (_, Option.none) => .error .missingValue
  | some (o, some value) => { g with pending := Option.none }.accept o value

def Given.takeLocation (g : Given) (word : String) : Except Refusal Given :=
  if g.location.isSome then .error .unknownArgument
  else g.settle.map fun g => { g with location := some word }

/-- Takes a switch, or an option, that `--` stands before. -/
def Given.takeLong (g : Given) (command : CommandName) (name : String)
    (value : Option String) : Except Refusal Given :=
  if name = "help" then
    if value.isSome then .error .needlessValue
    else g.settle.bind fun _ => .error .help
  else if name = "sorted" then
    if value.isSome then .error .needlessValue
    else g.settle.bind fun g =>
      if g.sorted then .error .repeated else .ok { g with sorted := true }
  else match command.options.find? (·.name == name) with
    | Option.none => .error .unknownArgument
    | some o =>
      g.settle.bind fun g =>
        match value with
        | some value => g.accept o value
        | Option.none => .ok { g with pending := some (o, Option.none) }

/-- Takes one word before any `--`. -/
def Given.take (g : Given) (command : CommandName) (word : String) : Except Refusal Given :=
  match word.toList with
  | '-' :: '-' :: rest =>
    let (name, value) := Text.splitFirst '=' (String.ofList rest)
    g.takeLong command name value
  | '-' :: 'h' :: _ => g.settle.bind fun _ => .error .help
  | '-' :: _ :: _ => .error .unknownArgument
  | _ =>
    match g.pending with
    | some (o, Option.none) => .ok { g with pending := some (o, some word) }
    | _ => g.takeLocation word

/-- Takes all words. -/
def Given.takeAll (command : CommandName) : Given → List String → Except Refusal Given
  | g, [] => g.settle
  | g, word :: rest =>
    if word = "--" then (rest.foldlM Given.takeLocation g).bind Given.settle
    else (g.take command word).bind fun g => takeAll command g rest

def Given.value? (g : Given) (o : ValueOption) : Option String :=
  (g.values.find? (·.1 == o)).map (·.2)

/-- The identity of a load that names none. -/
def defaultSignature : String := "tableload-cli"

def Given.toCommand (g : Given) (command : CommandName) : Except Refusal Command :=
  match g.location with
  | Option.none => .error .missingRequired
  | some location =>
    let load : CommandOptions :=
      ⟨location, g.value? .projection, g.sorted, g.value? .config,
        (g.value? .signature).getD defaultSignature⟩
    match command with
    | .schema => .ok (.schema load)
    | .plan =>
      match g.value? .fields with
      | some fields => .ok (.plan load fields)
      | Option.none => .error .missingRequired
    | .scan =>
      .ok (.scan load (g.value? .fields) (g.value? .seek)
        ((g.value? .limit).bind FieldRequest.parseIndex?))

/-- What `help` answers: help for the program, for a command or for `help` itself. -/
def helpFor (words : List String) : Refusal :=
  match words with
  | [] => .help
  | [word] => if word = "help" || (CommandName.ofWord? word).isSome then .help else .unknownCommand
  | _ => .unknownCommand

/-- What words ask for before any command. -/
def beforeCommand (word : String) : Refusal :=
  match word.toList with
  | '-' :: '-' :: rest =>
    let (name, value) := Text.splitFirst '=' (String.ofList rest)
    if name = "help" || name = "version" then
      if value.isSome then .needlessValue else if name = "help" then .help else .version
    else .unknownArgument
  | '-' :: 'h' :: _ => .help
  | '-' :: 'V' :: _ => .version
  | '-' :: _ :: _ => .unknownArgument
  | _ => .unknownCommand

/-- What words behind a `--` ask for before any command. -/
def behindDashes (words : List String) : Refusal :=
  match words with
  | [] => .missingEverything
  | word :: _ =>
    if word = "help" || (CommandName.ofWord? word).isSome then .unknownArgument
    else .unknownCommand

def parse (words : List String) : Except Refusal Command :=
  match words with
  | [] => .error .missingEverything
  | word :: rest =>
    if word = "--" then .error (behindDashes rest)
    else if word = "help" then .error (helpFor rest)
    else match CommandName.ofWord? word with
      | some command => (Given.none.takeAll command rest).bind (·.toCommand command)
      | Option.none => .error (beforeCommand word)

end Arguments

end TableScan
