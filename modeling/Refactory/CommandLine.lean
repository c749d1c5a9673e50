import Refactory.Command

/-!
# The command line

The arguments of the program name a command, what it works on, or are not understood. Running a
command gives what is written to the two outputs and the code with which the program ends. The only
thing a command needs from outside is the contents of at most one file.
-/
namespace Refactory

/-- What a run of the program shows. -/
structure Transcript where
  /-- The code with which the program ends. -/
  code : Nat
  /-- What is written to the standard output. -/
  output : String
  /-- What is written to the standard error output. -/
  errors : String
deriving DecidableEq, Inhabited

/-- What the arguments ask for. -/
inductive Request where
  /-- Show how the program is used. -/
  | help
  /-- Show the version of the program. -/
  | version
  /-- List the refactorings. -/
  | kinds
  /-- List what is offered at a span of a file. -/
  | list (path span : String)
  /-- Show a file changed at a span by a refactoring. -/
  | apply (path span refactoring : String)
  /-- Show a file laid out afresh. -/
  | print (path : String)
  /-- The arguments of a known command are missing; the usage of the command is shown. -/
  | incomplete (usage : String)
  /-- The command is not known. -/
  | unknown (command : String)
deriving DecidableEq, Inhabited

namespace Request

/-- How the listing command is used. -/
def listUsage : String := "Usage: recast list <file> <start>..<end>\n"

/-- How the changing command is used. -/
def applyUsage : String :=
  "Usage: recast apply <file> <start>..<end> <kind>\n\n" ++
    "Run `recast kinds` to see available refactorings.\n"

/-- How the layout command is used. -/
def printUsage : String := "Usage: recast print <file>\n"

/-- What the arguments ask for; more arguments than a command needs do not matter. -/
def ofArguments : List String → Request
  | [] => help
  | command :: operands =>
    match command, operands with
    | "list", path :: span :: _ => list path span
    | "list", _ => incomplete listUsage
    | "apply", path :: span :: refactoring :: _ => apply path span refactoring
    | "apply", _ => incomplete applyUsage
    | "print", path :: _ => print path
    | "print", _ => incomplete printUsage
    | "kinds", _ => kinds
    | "help", _ | "--help", _ | "-h", _ => help
    | "version", _ | "--version", _ | "-v", _ => version
    | command, _ => unknown command

/-- The file whose contents the request needs. -/
def path? : Request → Option String
  | list path _ | apply path _ _ | print path => some path
  | _ => none

/-- How the program is used. -/
def usage : String := String.join <| [
    "Recast - symbol-aware refactorings",
    "",
    "Usage: recast <command> [options]",
    "",
    "Commands:",
    "  list <file> <start>..<end>         List refactorings available at a span",
    "  apply <file> <start>..<end> <kind> Print the file rewritten by a refactoring",
    "  print <file>                       Parse and print a file",
    "  kinds                              List refactoring kinds",
    "  help                               Show this help message",
    "  version                            Show version information",
    "",
    "Spans are byte offsets; the smallest node covering the span is used.",
    "Set RUST_LOG=recast_refactor=trace to see why a refactoring was declined.",
    "",
    "Examples:",
    "  recast list Program.cs 120..125",
    "  recast apply Program.cs 120..125 merge-where",
    "  recast print Program.cs"].map (· ++ "\n")

/-- The version of the program. -/
def versionText : String := "recast 0.1.0-alpha.1\n"

/-- The width of the column of names in a list of what is offered. -/
def nameWidth : Nat := 16

/-- A line of a list of what is offered. -/
def offerLine (refactoring : Refactoring) (title : String) : String :=
  String.ofList (refactoring.name.toList.rightpad nameWidth ' ') ++ " " ++ title ++ "\n"

/-- The list of what is offered at a span. -/
def offersText (span : Span) (offers : List (Refactoring × String)) : String :=
  if offers.isEmpty then "no refactorings available at " ++ span.text ++ "\n"
  else String.join (offers.map fun (refactoring, title) => offerLine refactoring title)

/-- The contents of a file that has been tried to read. -/
def contentsOf (path : String) (contents : Except ReadFailure String) : Command.Result String :=
  contents.mapError (.unreadable path)

/-- What a command writes to the standard output. -/
def answer (contents : Except ReadFailure String) : Request → Command.Result String
  | list path span => do
    let span ← Command.readSpan span
    return offersText span (← Command.list (← contentsOf path contents) span)
  | apply path span refactoring => do
    let span ← Command.readSpan span
    let refactoring ← Command.readRefactoring refactoring
    Command.apply (← contentsOf path contents) span refactoring
  | print path => do Command.print (← contentsOf path contents)
  | kinds => return String.join (Refactoring.all.map fun refactoring => refactoring.name ++ "\n")
  | version => return versionText
  | help | incomplete _ | unknown _ => return usage

/-- What the program shows for a request, given the contents of the file that it needs or the reason
why they cannot be read. -/
def run (contents : Except ReadFailure String) : Request → Transcript
  | incomplete usage => ⟨1, "", usage⟩
  | unknown command => ⟨1, usage, "Unknown command: " ++ command ++ "\n\n"⟩
  | request =>
    match request.answer contents with
    | .ok output => ⟨0, output, ""⟩
    | .error error => ⟨1, "", "error: " ++ error.message ++ "\n"⟩

/-- What the program shows for a request in a directory. -/
def runIn (directory : Directory) (request : Request) : Transcript :=
  match request.path? with
  | some path => request.run (directory.read path)
  | none => request.run (.ok "")

end Request

end Refactory
