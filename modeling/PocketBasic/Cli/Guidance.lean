import PocketBasic.Cli.Commands

/-! What the command line says about itself. The wording is the program's own. How the library that
it leaves the command line to lays help out, and the scripts of the one that completes command lines,
are those libraries' business: here they are only as much as a program needs that stands alone. -/

namespace PocketBasic.Cli

inductive Switch where
  | config
  | indent
  | console
  | category
  | kind
  | shell
deriving DecidableEq, Repr

def Command.switches : Command → List Switch
  | reformat => [.config]
  | compact => [.config]
  | tokenize => [.indent, .console, .config]
  | keywords => [.category, .kind, .config]
  | completions => [.shell]

namespace Guidance

def program : String :=
  "sharpkit"

def version : String :=
  program ++ " 0.1.0\n"

def about : Command → String
  | .reformat => "read from stdin, write the listing the PC-1500 would show to stdout"
  | .compact => "read from stdin, write the shortest equivalent listing to stdout"
  | .tokenize => "read from stdin, write the token stream to stdout"
  | .keywords => "write the keyword table to stdout"
  | .completions => "write completions script to stdout for the specified shell"

def afterword : Command → String
  | .compact => "\nkeywords are abbreviated where that saves space, comments are kept\n"
  | .tokenize => "\noutput is JSON unless the output context is the console\n"
  | .reformat | .keywords | .completions => ""

def synopsis : Switch → String
  | .config => "-c, --config <JSON>"
  | .indent => "    --indent <SPACES>"
  | .console => "    --console"
  | .category => "    --category <TIER>"
  | .kind => "    --kind <KIND>"
  | .shell => "-s, --shell <NAME>"

def purpose : Switch → String
  | .config => "modify keyword and formatting configuration"
  | .indent => "JSON indentation, omit to minify"
  | .console => "format for console unconditionally"
  | .category => "only keywords from this hardware tier"
  | .kind => "only keywords of this kind"
  | .shell => "shell target"

/-- What a detailed help says in place of the purpose, if there is more to say. -/
def details : Switch → String
  | .config =>
    "JSON string with any of the following keys, missing keys keep their defaults:\n" ++
      "\x7b \"keywords\": \x7b \"ce150\": true, \"ce158\": true \x7d,\n" ++
      "  \"reformat\": \x7b \"defaultLineEnding\": \"platform\" \x7d \x7d\n" ++
      "line endings can be platform, lf, crlf, or cr"
  | .console => "even if the output context is a file or pipe, format it for the console"
  | switch => purpose switch

def examples : String :=
  "\nsharpkit is always invoked with exactly one of several subcommands.\n" ++
    "The subcommands are designed to function as nodes in a pipeline.\n" ++
    "Set RUST_LOG environment variable to control logging level.\n" ++
    "  levels: trace,debug,info,warn,error\n\nExamples:\n---------\n" ++
    "canonical listing:     `sharpkit reformat < prog.bas > listing.bas`\n" ++
    "compact listing:      `sharpkit compact < prog.bas`\n" ++
    "inspect tokens:        `sharpkit tokenize --indent 2 < prog.bas`\n" ++
    "list printer keywords: `sharpkit keywords --category ce150`\n"

/-- The help on a command, or on the program. -/
def help (detailed : Bool) : Option Command → String
  | some command =>
    about command ++ "\n\nUsage: " ++ program ++ " " ++ command.name ++ " [OPTIONS]\n\nOptions:\n" ++
      String.join (command.switches.map fun switch =>
        "  " ++ synopsis switch ++ "  " ++ (if detailed then details else purpose) switch ++ "\n") ++
      afterword command
  | none =>
    "Reformats and tokenizes Sharp PC-1500 BASIC listings.\n\nUsage: " ++ program ++
      " [COMMAND]\n\nCommands:\n" ++
      String.join (Command.all.map fun command =>
        "  " ++ command.name ++ "  " ++ about command ++ "\n") ++
      if detailed then examples else ""

/-- A script with which a shell completes the commands. -/
def completions (shell : Shell) : String :=
  let names := Command.all.map Command.name
  let spaced := " ".intercalate names
  match shell with
  | .bash => "complete -W '" ++ spaced ++ "' " ++ program ++ "\n"
  | .elvish =>
    "set edit:completion:arg-completer[" ++ program ++ "] = \x7b|@words| put " ++ spaced ++ " \x7d\n"
  | .fish => "complete -c " ++ program ++ " -f -a '" ++ spaced ++ "'\n"
  | .powerShell =>
    "Register-ArgumentCompleter -Native -CommandName " ++ program ++ " -ScriptBlock \x7b '" ++
      "', '".intercalate names ++ "' \x7d\n"
  | .zsh => "#compdef " ++ program ++ "\n_arguments '1:command:(" ++ spaced ++ ")'\n"

end Guidance

end PocketBasic.Cli
