/-!
# Command line options

The arguments of the command line are read from left to right. An option may be
given once, `-v` any number of times, and at most one argument is an expression.
The first argument that does not fit, or that asks for help, ends the reading.
-/

namespace BooleanSteps.CommandLine

/-- What the arguments ask for. -/
structure Options where
  /-- The expression, if it is not read from the input. -/
  expression : Option String
  /-- Whether a document is printed in place of a text. -/
  json : Bool
  /-- Whether the simplified formula is drawn below the text. -/
  tree : Bool
  /-- Whether colors are refused. -/
  plain : Bool
  /-- The limit on changing passes. -/
  limit : Option Nat
  /-- How often a more talkative log is asked for. -/
  verbosity : Nat
deriving DecidableEq

/-- Why the reading of arguments ends early. -/
inductive Stop where
  | help
  | refused
deriving DecidableEq

namespace Options

/-- No argument has been read. -/
def empty : Options := ⟨none, false, false, false, none, 0⟩

/-- Numbers are below 2^64. -/
def countBound : Nat := 18446744073709551616

/-- The number that a text of decimal digits is written for, if it is below the
bound. A plus sign may stand before the digits. -/
def readCount (text : String) : Option Nat :=
  let digits : List Char := match text.toList with
    | '+' :: digits => digits
    | digits => digits
  let count := digits.foldl (fun n digit => 10 * n + (digit.toNat - '0'.toNat)) 0
  if digits ≠ [] ∧ digits.all Char.isDigit ∧ count < countBound then some count else none

/-- Sets what is given once, unless it has been given. -/
def once (given : Bool) (o : Options) : Except Stop Options :=
  if given then .error .refused else .ok o

/-- Takes a limit. -/
def takeLimit (o : Options) (text : String) : Except Stop Options :=
  match readCount text with
  | some count => once o.limit.isSome { o with limit := some count }
  | none => .error .refused

/-- Takes an expression. -/
def takeExpression (o : Options) (text : String) : Except Stop Options :=
  once o.expression.isSome { o with expression := some text }

/-- Takes an option written with two dashes, and the value after an equals sign if
there is one. -/
def takeLong (o : Options) (name : String) (value : Option String) : Except Stop Options :=
  match name, value with
  | "--json", none => once o.json { o with json := true }
  | "--tree", none => once o.tree { o with tree := true }
  | "--no-color", none => once o.plain { o with plain := true }
  | "--verbose", none => .ok { o with verbosity := o.verbosity + 1 }
  | "--help", none => .error .help
  | "--max-iterations", some text => o.takeLimit text
  | _, _ => .error .refused

/-- Takes an option of one letter. -/
def takeShort (o : Options) (letter : Char) : Except Stop Options :=
  match letter with
  | 'v' => .ok { o with verbosity := o.verbosity + 1 }
  | 'h' => .error .help
  | _ => .error .refused

/-- Takes one argument that needs no other. After two dashes stands the name of an
option, after one dash a group of letters; a dash alone is an expression. -/
def takeArgument (o : Options) (argument : String) : Except Stop Options :=
  match argument.toList with
  | '-' :: '-' :: rest =>
      let name := rest.takeWhile (· ≠ '=')
      let value := match rest.dropWhile (· ≠ '=') with
        | [] => none
        | _ :: value => some (String.ofList value)
      o.takeLong (.ofList ('-' :: '-' :: name)) value
  | '-' :: letter :: letters => (letter :: letters).foldlM takeShort o
  | _ => o.takeExpression argument

/-- Takes all arguments in turn. After `--` every argument is an expression. -/
def takeAll (o : Options) : List String → Except Stop Options
  | [] => .ok o
  | "--" :: rest => rest.foldlM takeExpression o
  | "--max-iterations" :: rest =>
      match rest with
      | [] => .error .refused
      | text :: rest => do
          let o ← o.takeLimit text
          o.takeAll rest
  | argument :: rest => do
      let o ← o.takeArgument argument
      o.takeAll rest

/-- The options that the arguments are written for. -/
def ofArguments (arguments : List String) : Except Stop Options := empty.takeAll arguments

end Options

/-- What is printed when help is asked for. -/
def helpText : List String :=
  ["Step-by-step simplification of Boolean expressions",
    "",
    "Usage: boolsimp [OPTIONS] [EXPRESSION]",
    "",
    "Arguments:",
    "  [EXPRESSION]  Expression to simplify; read line by line from stdin when omitted",
    "",
    "Options:",
    "      --json                Print the export document as JSON",
    "      --tree                Also print the simplified expression as a tree",
    "      --max-iterations <N>  Maximum number of rewriting passes",
    "  -v, --verbose...          Increase logging verbosity",
    "      --no-color            Disable colored output",
    "  -h, --help                Print help"]

end BooleanSteps.CommandLine
