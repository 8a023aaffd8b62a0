import OrbitPlot.CommandLine.Opt

/-!
# Arguments

How a list of arguments is understood. An option is spelled with its name after two dashes or its
letter after one; its value is the next argument, or follows in the same argument, with or without
an equals sign. Letters of options without values may stand together. Reading goes from left to
right and stops at the first argument that makes no sense; only then the options are looked at
together: whether they agree with one another, whether one is missing, and whether their values are
taken.
-/

namespace OrbitPlot

/-! ## Reading from left to right -/

/-- Why reading ends without a picture. -/
inductive Stop where
  /-- The version is asked for. -/
  | version
  /-- A summary of the options is asked for. -/
  | help
  /-- An argument was not expected. -/
  | unexpected (argument : Text)
  /-- No file to write is named. -/
  | outputMissing
  /-- An option has no value. -/
  | noValue (o : Opt)
  /-- Two options exclude each other. -/
  | conflict (o other : Opt)
  /-- A value is not one of those that can be chosen. -/
  | notOffered (o : Opt) (value : Text)
  /-- A value is not taken. -/
  | invalid (o : Opt) (complaint : String)
  /-- An option is given more than once. -/
  | repeated (o : Opt)
  deriving DecidableEq, Repr

/-- What an argument says. -/
inductive Event where
  /-- An option is given. -/
  | option (o : Opt)
  /-- An option has a value. -/
  | value (o : Opt) (text : Text)
  deriving DecidableEq, Repr

namespace Event

/-- A value that follows in the same argument. Equals signs in front of it do not count. -/
def attached (o : Opt) (text : Text) : List Event :=
  [option o, value o (text.dropWhile (· = '='))]

/-- What an argument with letters says, and the option that still waits for a value. -/
def ofLetters : Text → Except Stop (List Event × Option Opt)
  | [] => .ok ([], none)
  | c :: rest =>
    match Opt.ofLetter? c with
    | some o =>
      if !o.takesValue then do
        let (events, waiting) ← ofLetters rest
        return (option o :: events, waiting)
      else if rest.isEmpty then .ok ([option o], some o)
      else .ok (attached o rest, none)
    | none =>
      if c = 'V' then .error .version
      else if c = 'h' then .error .help
      else .error (.unexpected ['-', c])

/-- What an argument with a name says, and the option that still waits for a value. -/
def ofName (argument : Text) : Except Stop (List Event × Option Opt) :=
  let text : Text := argument.dropWhile (· = '-')
  let (name, given?) : Text × Option Text :=
    match text.cut '=' with
    | some (name, given) => (name, some given)
    | none => (text, none)
  match Opt.named? name with
  | some o =>
    if !o.takesValue then .ok ([option o], none)
    else
      match given? with
      | some given => .ok (attached o given, none)
      | none => .ok ([option o], some o)
  | none =>
    if name = "version".toList then .error .version
    else if name = "help".toList then .error .help
    else .error (.unexpected ('-' :: '-' :: name))

/-- What all arguments say, and the option that still waits for a value at the end. After two
dashes alone no argument is expected any more. -/
def ofArguments (waiting : Option Opt) : List Text → Except Stop (List Event × Option Opt)
  | [] => .ok ([], waiting)
  | argument :: rest =>
    match waiting.filter fun o ↦ o.takesDashes || argument = ['-'] || argument.head? ≠ some '-' with
    | some o => do
      let (events, waiting) ← ofArguments none rest
      return (value o argument :: events, waiting)
    | none =>
      match argument with
      | ['-', '-'] =>
        match rest with
        | [] => .ok ([], waiting)
        | argument :: _ => .error (.unexpected argument)
      | '-' :: '-' :: _ => do
        let (events, waiting) ← ofName argument
        let (events', waiting) ← ofArguments waiting rest
        return (events ++ events', waiting)
      | '-' :: c :: letters => do
        let (events, waiting) ← ofLetters (c :: letters)
        let (events', waiting) ← ofArguments waiting rest
        return (events ++ events', waiting)
      | _ => .error (.unexpected argument)

end Event

/-! ## Looking at the options together -/

/-- Options with their values, as they were given. -/
structure Arguments where
  /-- What the arguments said. -/
  events : List Event

namespace Arguments

variable (a : Arguments)

/-- How often an option was given. -/
def occurrences (o : Opt) : Nat := a.events.countP (· = .option o)

/-- Whether an option was given. -/
def has (o : Opt) : Bool := 0 < a.occurrences o

/-- The values of an option: those given, or else the one it has by default. -/
def values (o : Opt) : List Text :=
  match a.events.filterMap fun e ↦ if let .value o' text := e then
      if o' = o then some text else none else none with
  | [] => (o.default?.map String.toList).toList
  | given => given

/-- The value of an option. -/
def value? (o : Opt) : Option Text := (a.values o).head?

/-- Looks whether the file to write is named. -/
def checkOutput : Except Stop Unit := if a.has .output then .ok () else .error .outputMissing

/-- Looks whether an option has a value. -/
def checkPresence (o : Opt) : Except Stop Unit :=
  if o.takesValue && (a.values o).isEmpty then .error (.noValue o) else .ok ()

/-- Looks whether a value is one that an option takes. -/
def checkValue (o : Opt) (text : Text) : Except Stop Unit :=
  if o = .trap ∧ String.ofList text ∉ Opt.trapNames then .error (.notOffered o text)
  else
    match o.complaint? text with
    | some complaint => .error (.invalid o complaint)
    | none => .ok ()

/-- Looks at all values of an option, and whether it was given only once. -/
def checkOption (o : Opt) : Except Stop Unit := do
  if a.has o then a.checkPresence o
  (a.values o).forM (checkValue o)
  if 1 < a.occurrences o then throw (.repeated o)

/-- Looks at all options. An option that still waits for a value is looked at first. -/
def check (waiting : Option Opt) : Except Stop Unit := do
  if let some o := waiting then
    a.checkOutput
    a.checkPresence o
  if a.has .formula && a.has .fractal then throw (.conflict .fractal .formula)
  a.checkOutput
  Opt.all.forM a.checkOption

/-- The options that a list of arguments gives. -/
def read (arguments : List Text) : Except Stop Arguments := do
  let (events, waiting) ← Event.ofArguments none arguments
  let a : Arguments := ⟨events⟩
  a.check waiting
  return a

end Arguments

end OrbitPlot
