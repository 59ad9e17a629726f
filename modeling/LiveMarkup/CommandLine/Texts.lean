/-!
Texts that the command line prints as they are: its version, its help, and the schema of configuration
files.
-/

namespace LiveMarkup.CommandLine

def version : String := "que 0.1.0\n"

def lines (ls : List String) : String := String.join (ls.map (· ++ "\n"))

inductive Topic where
  | program
  | render
  | inspect
  | schema
  | help
  deriving DecidableEq, Repr

def programHelp : List String := [
  "Reactive templates rendered from the command line",
  "",
  "Usage: que [OPTIONS] <COMMAND>",
  "",
  "Commands:",
  "  render   Mount a template, apply steps and print the resulting HTML",
  "  inspect  Show how an expression is tokenized, parsed and compiled",
  "  schema   Print the JSON Schema for que.config.json",
  "  help     Print this message or the help of the given subcommand(s)",
  "",
  "Options:",
  "  -v, --verbose...  Log more (-v for debug, -vv for trace)",
  "  -h, --help        Print help",
  "  -V, --version     Print version"]

def renderHelp : List String := [
  "Mount a template, apply steps and print the resulting HTML",
  "",
  "Usage: que render [OPTIONS] <TEMPLATE>",
  "",
  "Arguments:",
  "  <TEMPLATE>  Template file",
  "",
  "Options:",
  "  -d, --data <DATA>          JSON object with the initial fields",
  "  -v, --verbose...           Log more (-v for debug, -vv for trace)",
  "  -s, --selector <SELECTOR>  Selector of the mount element (overrides the config)",
  "      --step <STEP>          Step applied after mounting, in order: \x60set:<field>=<json>\x60, "
    ++ "\x60click:<selector>\x60 or \x60call:<expression>\x60",
  "  -c, --config <CONFIG>      Config file path",
  "  -h, --help                 Print help"]

def inspectHelp : List String := [
  "Show how an expression is tokenized, parsed and compiled",
  "",
  "Usage: que inspect [OPTIONS] <EXPRESSION>",
  "",
  "Arguments:",
  "  <EXPRESSION>  Directive expression, e.g. \"!visible && count > 0\"",
  "",
  "Options:",
  "      --json        Print JSON instead of text",
  "  -v, --verbose...  Log more (-v for debug, -vv for trace)",
  "  -h, --help        Print help"]

def schemaHelp : List String := [
  "Print the JSON Schema for que.config.json",
  "",
  "Usage: que schema [OPTIONS]",
  "",
  "Options:",
  "  -v, --verbose...  Log more (-v for debug, -vv for trace)",
  "  -h, --help        Print help"]

def helpHelp : List String := [
  "Print this message or the help of the given subcommand(s)",
  "",
  "Usage: que help [COMMAND]...",
  "",
  "Arguments:",
  "  [COMMAND]...  Print help for the subcommand(s)"]

def help : Topic → String
  | .program => lines programHelp
  | .render => lines renderHelp
  | .inspect => lines inspectHelp
  | .schema => lines schemaHelp
  | .help => lines helpHelp

def schemaText : List String := [
  "\x7b",
  "  \"$schema\": \"http://json-schema.org/draft-07/schema#\",",
  "  \"title\": \"Que Configuration\",",
  "  \"description\": \"Configuration file for que - reactive templating micro-framework\",",
  "  \"type\": \"object\",",
  "  \"properties\": \x7b",
  "    \"$schema\": \x7b",
  "      \"type\": \"string\",",
  "      \"description\": \"JSON Schema reference for editor autocompletion\"",
  "    \x7d,",
  "    \"selector\": \x7b",
  "      \"type\": \"string\",",
  "      \"description\": \"Selector of the element to mount onto: a tag name followed by #id and .class parts\",",
  "      \"default\": \"#app\",",
  "      \"examples\": [\"#app\", \"main.page\", \"div#root\"]",
  "    \x7d,",
  "    \"directives\": \x7b",
  "      \"type\": \"object\",",
  "      \"description\": \"Directive attribute names and interpolation delimiters\",",
  "      \"properties\": \x7b",
  "        \"showIf\": \x7b",
  "          \"type\": \"string\",",
  "          \"description\": \"Attribute holding a conditional-presence expression\",",
  "          \"default\": \"show-if\"",
  "        \x7d,",
  "        \"onClick\": \x7b",
  "          \"type\": \"string\",",
  "          \"description\": \"Attribute holding a click-bound method call\",",
  "          \"default\": \"on-click\"",
  "        \x7d,",
  "        \"delimiters\": \x7b",
  "          \"type\": \"array\",",
  "          \"description\": \"Opening and closing interpolation delimiters\",",
  "          \"items\": \x7b \"type\": \"string\", \"minLength\": 1 \x7d,",
  "          \"minItems\": 2,",
  "          \"maxItems\": 2,",
  "          \"default\": [\"\x7b\x7b\", \"\x7d\x7d\"]",
  "        \x7d",
  "      \x7d,",
  "      \"additionalProperties\": false",
  "    \x7d,",
  "    \"trackDependencies\": \x7b",
  "      \"type\": \"boolean\",",
  "      \"description\": \"Only re-run directives that read the changed field\",",
  "      \"default\": false",
  "    \x7d",
  "  \x7d,",
  "  \"additionalProperties\": false",
  "\x7d"]

def schema : String := lines schemaText

end LiveMarkup.CommandLine
