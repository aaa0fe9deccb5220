import Relocate.Cli.Request

/-!
The help that is printed on request.
-/

namespace Relocate.Cli

/-- The lines of help on a topic. -/
def Topic.lines : Topic → List String
  | program =>
    ["Move TypeScript files and directories and rewrite every import that points at them",
      "",
      "Usage: tsmove <COMMAND>",
      "",
      "Commands:",
      "  move  Move a file or directory; paths are relative to the project root",
      "  refs  List every indexed import of a file as \x60path:start-end\x60",
      "  help  Print this message or the help of the given subcommand(s)",
      "",
      "Options:",
      "  -h, --help     Print help",
      "  -V, --version  Print version"]
  | move =>
    ["Move a file or directory; paths are relative to the project root",
      "",
      "Usage: tsmove move [OPTIONS] <SOURCE> <TARGET>",
      "",
      "Arguments:",
      "  <SOURCE>  File or directory to move",
      "  <TARGET>  Destination path, must not exist yet",
      "",
      "Options:",
      "      --root <ROOT>      Project root to index [default: .]",
      "      --format <FORMAT>  Report format [default: pretty] [possible values: pretty, json]",
      "  -h, --help             Print help"]
  | refs =>
    ["List every indexed import of a file as \x60path:start-end\x60",
      "",
      "Usage: tsmove refs [OPTIONS] <FILE>",
      "",
      "Arguments:",
      "  <FILE>  File whose referrers are listed",
      "",
      "Options:",
      "      --root <ROOT>  Project root to index [default: .]",
      "  -h, --help         Print help"]

/-- The help on a topic. -/
def Topic.text (topic : Topic) : String := String.join (topic.lines.map (· ++ "\n"))

end Relocate.Cli
