import Interline.CommandLine.Arguments

/-! # Help

The pages about the program and its commands. -/

namespace Interline.CommandLine

/-- A table of options or commands under a heading. -/
def helpTable (heading : String) (rows : List (String × String)) : List String :=
  let width := rows.foldl (fun w (left, _) => max w left.length) 0
  "" :: s!"{heading}:" :: rows.map fun (left, right) =>
    "  " ++ left ++ String.ofList (List.replicate (width - left.length) ' ') ++ "  " ++ right

/-- The options that stand everywhere. -/
def commonHelp : List (String × String) :=
  [("-v, --verbose", "Enable verbose output"),
    ("-c, --config <CONFIG>", "Path to configuration file [env: LINEBREAK_LINT_CONFIG=]"),
    ("-h, --help", "Print help")]

/-- A page: what it is about, how the words go, and tables. -/
def helpPage (about usage : String) (tables : List (List String)) : List String :=
  about :: "" :: s!"Usage: linebreak-lint {usage}" :: tables.flatten

namespace Page

/-- The lines of a page. -/
def lines : Page → List String
  | .version => ["linebreak-lint 0.1.0"]
  | .overview =>
    helpPage "Enforces line breaks and blank lines between JavaScript statements" "[OPTIONS] <COMMAND>"
      [helpTable "Commands"
          [("check", "Check statement spacing"),
            ("list-types", "List statement types and requirements usable in rules"),
            ("init", "Create a linebreak-lint.toml in the current directory"),
            ("help", "Print this message or the help of the given subcommand(s)")],
        helpTable "Options" (commonHelp ++ [("-V, --version", "Print version")])]
  | .check =>
    helpPage "Check statement spacing" "check [OPTIONS] [PATH]"
      [helpTable "Arguments" [("[PATH]", "File or directory to check [default: .]")],
        helpTable "Options"
          ([("-f, --format <FORMAT>",
              "Output format [default: text] [possible values: text, json, compact]"),
            ("    --fix", "Write automatic fixes back to the files"),
            ("-e, --exclude <EXCLUDE>", "Exclude patterns (can be specified multiple times)"),
            ("    --fail-on <FAIL_ON>",
              "Lowest severity that makes the run exit with status 1 [default: error] " ++
                "[possible values: error, warning, info]")] ++ commonHelp)]
  | .listTypes =>
    helpPage "List statement types and requirements usable in rules" "list-types [OPTIONS]"
      [helpTable "Options" commonHelp]
  | .init =>
    helpPage "Create a linebreak-lint.toml in the current directory" "init [OPTIONS]"
      [helpTable "Options" (("    --force", "Overwrite an existing file") :: commonHelp)]

end Page
end Interline.CommandLine
