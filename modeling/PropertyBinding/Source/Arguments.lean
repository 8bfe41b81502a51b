import PropertyBinding.Error
import PropertyBinding.Source
import PropertyBinding.Text.Characters

/-!
# Properties of a command line

Definitions of the form `name=value`, and the repeatable flag that takes them: `-D`, with the
definition attached or as the next argument, or `--define`.
-/

namespace PropertyBinding

/-- Why a command line is not accepted. -/
inductive ArgumentFault where
  /-- Help is asked for. -/
  | displayHelp
  | unknownArgument
  /-- The flag stands without a definition. -/
  | invalidValue
  /-- A flag has a definition that takes none. -/
  | tooManyValues
  deriving DecidableEq, Repr

namespace Arguments

/-- What the arguments are that begin with a hyphen and have no value of their own. -/
inductive Short where
  | help
  | define (attached : Option (List Char))
  | unknown

/-- A group of short flags behind its hyphen. -/
def short : List Char → Short
  | 'D' :: [] => .define none
  | 'D' :: '=' :: value => .define (some value)
  | 'D' :: value => .define (some value)
  | 'h' :: _ => .help
  | _ => .unknown

/-- Whether an argument can be the definition of a flag in front of it. -/
def isValue (argument : List Char) : Bool :=
  argument.head? != some '-' || argument == ['-']

/-- The definitions among the arguments behind the name of the program. -/
def definitions : List String → Except ArgumentFault (List String)
  | [] => .ok []
  | argument :: rest =>
    let cs := argument.toList
    if cs = "--".toList then
      match rest with
      | [] => .ok []
      | _ :: _ => .error .unknownArgument
    else if cs = "--help".toList then .error .displayHelp
    else if "--help=".toList.isPrefixOf cs then .error .tooManyValues
    else if "--define=".toList.isPrefixOf cs then
      (definitions rest).map (String.ofList (cs.drop "--define=".length) :: ·)
    else if cs = "--define".toList then withNext rest
    else match cs with
      | '-' :: '-' :: _ => .error .unknownArgument
      | '-' :: c :: flags =>
        match short (c :: flags) with
        | .help => .error .displayHelp
        | .unknown => .error .unknownArgument
        | .define (some value) => (definitions rest).map (String.ofList value :: ·)
        | .define none => withNext rest
      | _ => .error .unknownArgument
where
  /-- The definitions on the rest of a command line whose first argument belongs to a flag. -/
  withNext : List String → Except ArgumentFault (List String)
    | [] => .error .invalidValue
    | value :: rest =>
      let cs := value.toList
      if isValue cs then (definitions rest).map (value :: ·)
      else if cs = "--".toList then
        .error (if rest.isEmpty then .invalidValue else .unknownArgument)
      else if "--help=".toList.isPrefixOf cs then .error .tooManyValues
      else if isFlag cs then .error .invalidValue
      else .error .unknownArgument
  /-- Whether an argument is one of the flags. -/
  isFlag (cs : List Char) : Bool :=
    cs == "--define".toList || "--define=".toList.isPrefixOf cs || cs == "--help".toList ||
      ['-', 'D'].isPrefixOf cs || ['-', 'h'].isPrefixOf cs

/-- The definitions on a command line. -/
def ofCommandLine (arguments : List String) : Except ArgumentFault (List String) :=
  definitions (arguments.drop 1)

end Arguments

namespace Properties

/-- The name and the value of a definition, which are on the two sides of its first equals sign.
The name loses its surrounding blanks and must not be empty. -/
def definition? (text : String) : Option (String × String) :=
  let cs := text.toList
  let name := cs.takeWhile (· ≠ '=')
  match cs.drop name.length with
  | [] => none
  | _ :: value =>
    let name := Text.trim name
    if name = [] then none else some (String.ofList name, String.ofList value)

/-- The name and the value of a definition, which must have both. -/
def definition (text : String) : Except BindError (String × String) :=
  match definition? text with
  | some pair => .ok pair
  | none => .error (.invalidDefinition text)

/-- The properties of definitions; a later one of the same name wins. -/
def ofDefinitions (texts : List String) : Except BindError Properties :=
  (texts.mapM definition).map ofPairs

end Properties

end PropertyBinding
