/-!
# Requests

What the arguments of the command line ask for. Three subcommands take a file
with a tree: `run` runs it, `evaluate` runs it and prints its value, and `dump`
prints it in prefix form. The option `--log` may stand before the subcommand or
after it, and what follows `--` is no option.

`Request.parse?` gives no request for arguments that make no sense.
-/

namespace TreeScript

inductive Subcommand where
  | run
  | evaluate
  | dump
  deriving DecidableEq, Repr

namespace Subcommand

def name : Subcommand → String
  | .run => "run"
  | .evaluate => "evaluate"
  | .dump => "dump"

/-- The name of a subcommand in the log. -/
def title : Subcommand → String
  | .run => "Run"
  | .evaluate => "Evaluate"
  | .dump => "Dump"

def all : List Subcommand :=
  [.run, .evaluate, .dump]

def ofName? (name : String) : Option Subcommand :=
  all.find? (·.name == name)

end Subcommand

/-- What the arguments ask for. -/
inductive Request where
  | help
  | version
  | command (subcommand : Subcommand) (path : Option String) (log : Bool)
  deriving DecidableEq, Repr

namespace Request

/-- Reads the arguments after `--`, which are no options. -/
def parseOperands (subcommand : Subcommand) (log : Bool) :
    Option String → List String → Option Request
  | path, [] => some (.command subcommand path log)
  | none, [path] => if path = "" then none else some (.command subcommand (some path) log)
  | _, _ => none

/-- Whether an argument is a group of one-letter options that starts with the
given letter. The first letter decides, for it ends the reading. -/
def isShort (letter : Char) (arg : String) : Bool :=
  ['-', letter].isPrefixOf arg.toList

/-- An argument that starts with a dash is an option, unless it is the dash. -/
def isOption (arg : String) : Bool :=
  arg ≠ "-" && ['-'].isPrefixOf arg.toList

/-- Reads the arguments after a subcommand. `outer` tells whether `--log` was
given before it, and `inner` whether it was given since; it may be given once in
either place. -/
def parseCommand (subcommand : Subcommand) (outer : Bool) :
    Bool → Option String → List String → Option Request
  | inner, path, [] => some (.command subcommand path (outer || inner))
  | inner, path, arg :: args =>
    if arg = "--" then parseOperands subcommand (outer || inner) path args
    else if arg = "--log" then
      if inner then none else parseCommand subcommand outer true path args
    else if arg = "--help" || isShort 'h' arg then some .help
    else if isOption arg || arg = "" || path.isSome then none
    else parseCommand subcommand outer inner (some arg) args

/-- Reads the name of the subcommand for which help is wanted, if there is one. No
subcommand has subcommands of its own, so a second name makes no sense. -/
def parseHelp : List String → Option Request
  | [] => some .help
  | [name] => if name = "help" || (Subcommand.ofName? name).isSome then some .help else none
  | _ => none

/-- Reads the arguments before the subcommand. -/
def parseFrom : Bool → List String → Option Request
  | _, [] => none
  | log, arg :: args =>
    if arg = "--log" then if log then none else parseFrom true args
    else if arg = "--help" || isShort 'h' arg then some .help
    else if arg = "--version" || isShort 'V' arg then some .version
    else if arg = "help" then parseHelp args
    else match Subcommand.ofName? arg with
      | some subcommand => parseCommand subcommand log false none args
      | none => none

/-- What the arguments ask for, if they make sense. -/
def parse? (args : List String) : Option Request :=
  parseFrom false args

end Request

end TreeScript
