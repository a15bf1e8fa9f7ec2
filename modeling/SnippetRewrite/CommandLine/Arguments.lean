/-!
Arguments of the program: options, in any order with a file, up to a double dash. An option is
given at most once; its value is the next argument or stands behind an equals sign, and it is not
empty.
-/

namespace SnippetRewrite

structure Options where
  config : Option String := none
  rules : Option String := none
  builtin : Bool := false
  trace : Bool := false
  file : Option String := none
deriving DecidableEq, Repr

inductive Request where
  | run (options : Options)
  | help
  | version
  | invalid (reason : String)
deriving DecidableEq, Repr

namespace Options

def paths (o : Options) : List String :=
  [o.config, o.rules, o.file].filterMap id

/-- A value in a place that was empty. -/
def fill (name : String) (place : Option String) (value : String) (set : String → Options) :
    Except String Options :=
  if place.isSome then .error ("the argument '" ++ name ++ "' cannot be used multiple times")
  else if value = "" then .error ("a value is required for '" ++ name ++ "' but none was supplied")
  else .ok (set value)

def withConfig (o : Options) (value : String) : Except String Options :=
  fill "--config <FILE>" o.config value fun v => { o with config := some v }

def withRules (o : Options) (value : String) : Except String Options :=
  fill "--rules <FILE>" o.rules value fun v => { o with rules := some v }

def withFile (o : Options) (value : String) : Except String Options :=
  if o.file.isSome then .error ("unexpected argument '" ++ value ++ "' found")
  else fill "[FILE]" o.file value fun v => { o with file := some v }

def withBuiltin (o : Options) : Except String Options :=
  if o.builtin then .error "the argument '--builtin' cannot be used multiple times"
  else .ok { o with builtin := true }

def withTrace (o : Options) : Except String Options :=
  if o.trace then .error "the argument '--trace' cannot be used multiple times"
  else .ok { o with trace := true }

end Options

namespace Request

def isOption (argument : String) : Bool :=
  match argument.toList with
  | '-' :: _ :: _ => true
  | _ => false

/-- The parts of a text around its first equals sign. -/
def cutEquals (text : List Char) : List Char × Option (List Char) :=
  let name := text.takeWhile (· ≠ '=')
  (name, (text.drop name.length).tail?)

/-- Reads the arguments behind a double dash, all of them files. -/
def readFiles : Options → List String → Request
  | o, [] => .run o
  | o, argument :: rest =>
    match o.withFile argument with
    | .ok o => readFiles o rest
    | .error reason => .invalid reason

/-- Reads arguments one after the other; the first that asks for help or the version, or is wrong,
decides. -/
def read : Options → List String → Request
  | o, [] => .run o
  | o, argument :: rest =>
    let unexpected : Request := .invalid ("unexpected argument '" ++ argument ++ "' found")
    let continueWith (next : Except String Options) : Request :=
      match next with
      | .ok o => read o rest
      | .error reason => .invalid reason
    match argument with
    | "--" => readFiles o rest
    | "--help" => .help
    | "--version" => .version
    | "--builtin" => continueWith o.withBuiltin
    | "--trace" => continueWith o.withTrace
    | "--config" =>
      match rest with
      | value :: rest =>
        if isOption value then .invalid "a value is required for '--config <FILE>'"
        else
          match o.withConfig value with
          | .ok o => read o rest
          | .error reason => .invalid reason
      | [] => .invalid "a value is required for '--config <FILE>'"
    | "--rules" =>
      match rest with
      | value :: rest =>
        if isOption value then .invalid "a value is required for '--rules <FILE>'"
        else
          match o.withRules value with
          | .ok o => read o rest
          | .error reason => .invalid reason
      | [] => .invalid "a value is required for '--rules <FILE>'"
    | _ =>
      match argument.toList with
      | '-' :: '-' :: text =>
        match cutEquals text with
        | (name, some value) =>
          if name = "config".toList then continueWith (o.withConfig (String.ofList value))
          else if name = "rules".toList then continueWith (o.withRules (String.ofList value))
          else unexpected
        | (_, none) => unexpected
      | '-' :: 'h' :: _ => .help
      | '-' :: 'V' :: _ => .version
      | '-' :: _ :: _ => unexpected
      | _ => continueWith (o.withFile argument)

def paths : Request → List String
  | run options => options.paths
  | _ => []

def ofArguments (arguments : List String) : Request :=
  read {} arguments

end Request

end SnippetRewrite
