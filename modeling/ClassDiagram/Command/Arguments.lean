import ClassDiagram.Files.Path

/-! The arguments of a call: a command with its options. Options have a long and a short form; a value
follows its option in the next argument, behind an equals sign, or directly behind the short form. Two
options belong to every command and may also come before it. -/

namespace ClassDiagram.Command

inductive Action where
  | uml (source output : Option Path) (watch : Bool)
  | java (diagram target : Option Path)
  | model (source : Option Path)
  deriving DecidableEq, Repr

structure Call where
  config : Path
  verbose : Bool
  action : Action
  deriving DecidableEq, Repr

/-- Why a call is not to be carried out. -/
inductive Ending where
  | misuse
  | help
  | version
  deriving DecidableEq, Repr

structure Choice where
  short : Char
  long : String
  takesValue : Bool
  deriving DecidableEq, Repr

def sharedChoices : List Choice :=
  [⟨'c', "config", true⟩, ⟨'v', "verbose", false⟩]

def choicesOf : String → Option (List Choice)
  | "uml" => some ([⟨'s', "source", true⟩, ⟨'o', "output", true⟩, ⟨'w', "watch", false⟩] ++ sharedChoices)
  | "java" => some ([⟨'d', "diagram", true⟩, ⟨'t', "target", true⟩] ++ sharedChoices)
  | "model" => some (⟨'s', "source", true⟩ :: sharedChoices)
  | _ => none

/-- Options read so far, by their long form. Those without a value have an empty one. -/
abbrev Found := List (String × String)

/-- Options may be given once, and values are not empty. -/
def add (found : Found) (choice : Choice) (value : String) : Except Ending Found :=
  if (found.lookup choice.long).isSome || (choice.takesValue && value == "") then .error .misuse
  else .ok (found ++ [(choice.long, value)])

/-- Reads short options written together. The last one may still wait for its value. -/
def cluster (choices : List Choice) (versioned : Bool) (found : Found) :
    List Char → Except Ending (Found × Option Choice)
  | [] => .ok (found, none)
  | c :: rest =>
    match choices.find? (·.short == c) with
    | some choice =>
      if choice.takesValue then
        match rest with
        | [] => .ok (found, some choice)
        | '=' :: value => (add found choice (String.ofList value)).map (·, none)
        | value => (add found choice (String.ofList value)).map (·, none)
      else
        match add found choice "" with
        | .ok found => cluster choices versioned found rest
        | .error ending => .error ending
    | none =>
      if c == 'h' then .error .help
      else if c == 'V' && versioned then .error .version
      else .error .misuse

def long (choices : List Choice) (versioned : Bool) (found : Found) (text : List Char) :
    Except Ending (Found × Option Choice) :=
  let name := String.ofList (text.takeWhile (· != '='))
  let value := text.dropWhile (· != '=')
  match choices.find? (·.long == name) with
  | some choice =>
    match choice.takesValue, value with
    | true, [] => .ok (found, some choice)
    | true, _ :: value => (add found choice (String.ofList value)).map (·, none)
    | false, [] => (add found choice "").map (·, none)
    | false, _ => .error .misuse
  | none =>
    if name == "help" && value.isEmpty then .error .help
    else if name == "version" && versioned && value.isEmpty then .error .version
    else .error .misuse

/-- Reads options up to the first argument that is none, which starts the rest. -/
def options (choices : List Choice) (versioned : Bool) : Found → Option Choice → List String →
    Except Ending (Found × List String)
  | found, none, [] => .ok (found, [])
  | _, some _, [] => .error .misuse
  | found, waiting, argument :: rest =>
    match waiting, argument.toList with
    | some _, '-' :: _ :: _ => .error .misuse
    | some choice, _ =>
      match add found choice argument with
      | .ok found => options choices versioned found none rest
      | .error ending => .error ending
    | none, ['-', '-'] => if rest.isEmpty then .ok (found, []) else .error .misuse
    | none, '-' :: '-' :: text =>
      match long choices versioned found text with
      | .ok (found, waiting) => options choices versioned found waiting rest
      | .error ending => .error ending
    | none, '-' :: c :: text =>
      match cluster choices versioned found (c :: text) with
      | .ok (found, waiting) => options choices versioned found waiting rest
      | .error ending => .error ending
    | none, _ => .ok (found, argument :: rest)

def path? (found : Found) (name : String) : Option Path :=
  (found.lookup name).map Path.mk

def defaultConfig : String := "javauml.toml"

def action (name : String) (found : Found) : Action :=
  match name with
  | "uml" => .uml (path? found "source") (path? found "output") (found.lookup "watch").isSome
  | "java" => .java (path? found "diagram") (path? found "target")
  | _ => .model (path? found "source")

/-- A value given with the command counts before one given ahead of it. -/
def call (arguments : List String) : Except Ending Call := do
  let (outer, rest) ← options sharedChoices true [] none arguments
  match rest with
  | [] => .error .misuse
  | name :: rest =>
    match choicesOf name with
    | none =>
      if name == "help" && (rest.isEmpty || rest.any fun topic => (choicesOf topic).isSome) then .error .help
      else .error .misuse
    | some choices =>
      let (inner, rest) ← options choices false [] none rest
      if rest.isEmpty then
        let found := inner ++ outer
        return {
          config := (path? found "config").getD ⟨defaultConfig⟩
          verbose := (found.lookup "verbose").isSome
          action := action name found }
      else .error .misuse

end ClassDiagram.Command
