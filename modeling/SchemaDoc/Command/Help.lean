import SchemaDoc.Command.Arguments

/-!
# Help

The texts that describe the program and its commands.
-/
namespace SchemaDoc.Command

def programName : String := "schema-introspect"

def versionText : String := programName ++ " 0.1.0\n"

namespace HelpTopic

def lines : HelpTopic → List String
  | program =>
    ["project schema definitions to JSON Schema, or explain validation failure trees",
      "",
      "Usage: " ++ programName ++ " <COMMAND>",
      "",
      "Commands:",
      "  schema  project definition files to JSON Schema",
      "  issues  flatten failure trees into an error body",
      "  help    Print this message or the help of the given subcommand(s)",
      "",
      "Options:",
      "  -h, --help     Print help",
      "  -V, --version  Print version"]
  | schema =>
    ["project definition files to JSON Schema",
      "",
      "Usage: " ++ programName ++ " schema [OPTIONS] --input <INPUT>...",
      "",
      "Options:",
      "  -i, --input <INPUT>...       " ++
        "One or more inputs. May be literal paths or quoted glob patterns",
      "      --max-depth <MAX_DEPTH>  " ++
        "most recursive-reference resolutions allowed on one path [default: 10]",
      "      --meta-schema            prefix each document with `$schema`",
      "  -o, --out <OUT>              output .json file (stdout if omitted)",
      "      --no-op                  debugging",
      "  -h, --help                   Print help"]
  | issues =>
    ["flatten failure trees into an error body",
      "",
      "Usage: " ++ programName ++ " issues [OPTIONS] --input <INPUT>...",
      "",
      "Options:",
      "  -i, --input <INPUT>...  " ++
        "One or more inputs. May be literal paths or quoted glob patterns",
      "      --pretty            colored, one issue per line instead of the JSON error body",
      "  -o, --out <OUT>         output file (stdout if omitted)",
      "  -h, --help              Print help"]
  | help =>
    ["Print this message or the help of the given subcommand(s)",
      "",
      "Usage: " ++ programName ++ " help [COMMAND]...",
      "",
      "Arguments:",
      "  [COMMAND]...  Print help for the subcommand(s)"]

def text (topic : HelpTopic) : String := "\n".intercalate topic.lines ++ "\n"

end HelpTopic

end SchemaDoc.Command
