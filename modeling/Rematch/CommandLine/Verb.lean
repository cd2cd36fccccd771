import Rematch.CommandLine.Flag

/-!
The commands of the program, as a tree: what each is called, what it takes, and how it describes
itself.
-/

namespace Rematch.CommandLine

inductive Shell where
  | bash
  | fish
  | powershell
  | zsh
  deriving DecidableEq

inductive Verb where
  /-- The program itself, without a command. -/
  | program
  | search
  | dump
  | encode
  | help
  | completion
  | script (shell : Shell)
  deriving DecidableEq

inductive Arity where
  | any
  | none
  | exactly (count : Nat)
  | atLeast (count : Nat)
  deriving DecidableEq

def globalFlags : List Flag := [
  { name := "config", kind := .text, usage := "config file (yaml, toml or json)" },
  { name := "log-fmt", kind := .text, initial := "tint",
    usage := "log format: tint, text or json" },
  { name := "log-level", kind := .text, initial := "warn",
    usage := "log level: debug, info, warn or error" },
  { name := "max-threads", kind := .number, initial := "0",
    usage := "bound on live threads per match, 0 for none" },
  { name := "metrics", kind := .switch, initial := "false",
    usage := "print metrics in text exposition format on exit" },
  { name := "no-jit", kind := .switch, initial := "false", usage := "always use the interpreter" }]

def searchFlags : List Flag := [
  { name := "anchor", kind := .text, initial := "none",
    usage := "anchoring: none, start or both" },
  { name := "groups", kind := .number, initial := "-1",
    usage := "groups to report besides the whole match, -1 for all" }]

def Shell.name : Shell → String
  | .bash => "bash"
  | .fish => "fish"
  | .powershell => "powershell"
  | .zsh => "zsh"

def Shell.description : Shell → String
  | .bash =>
    "Generate the autocompletion script for the bash shell.\n\n" ++
    "This script depends on the 'bash-completion' package.\n" ++
    "If it is not installed already, you can install it via your OS's package manager.\n\n" ++
    "To load completions in your current shell session:\n\n" ++
    "\tsource <(rejit completion bash)\n\n" ++
    "To load completions for every new session, execute once:\n\n#### Linux:\n\n" ++
    "\trejit completion bash > /etc/bash_completion.d/rejit\n\n#### macOS:\n\n" ++
    "\trejit completion bash > $(brew --prefix)/etc/bash_completion.d/rejit\n\n" ++
    "You will need to start a new shell for this setup to take effect.\n"
  | .fish =>
    "Generate the autocompletion script for the fish shell.\n\n" ++
    "To load completions in your current shell session:\n\n" ++
    "\trejit completion fish | source\n\n" ++
    "To load completions for every new session, execute once:\n\n" ++
    "\trejit completion fish > ~/.config/fish/completions/rejit.fish\n\n" ++
    "You will need to start a new shell for this setup to take effect.\n"
  | .powershell =>
    "Generate the autocompletion script for powershell.\n\n" ++
    "To load completions in your current shell session:\n\n" ++
    "\trejit completion powershell | Out-String | Invoke-Expression\n\n" ++
    "To load completions for every new session, add the output of the above command\n" ++
    "to your powershell profile.\n"
  | .zsh =>
    "Generate the autocompletion script for the zsh shell.\n\n" ++
    "If shell completion is not already enabled in your environment you will need\n" ++
    "to enable it.  You can execute the following once:\n\n" ++
    "\techo \"autoload -U compinit; compinit\" >> ~/.zshrc\n\n" ++
    "To load completions in your current shell session:\n\n" ++
    "\tsource <(rejit completion zsh)\n\n" ++
    "To load completions for every new session, execute once:\n\n#### Linux:\n\n" ++
    "\trejit completion zsh > \"$\x7bfpath[1]\x7d/_rejit\"\n\n#### macOS:\n\n" ++
    "\trejit completion zsh > $(brew --prefix)/share/zsh/site-functions/_rejit\n\n" ++
    "You will need to start a new shell for this setup to take effect.\n"

namespace Verb

def name : Verb → String
  | .program => "rejit"
  | .search => "match"
  | .dump => "dump"
  | .encode => "rewrite"
  | .help => "help"
  | .completion => "completion"
  | .script shell => shell.name

def children : Verb → List Verb
  | .program => [.search, .dump, .encode, .help, .completion]
  | .completion => [.script .bash, .script .zsh, .script .fish, .script .powershell]
  | _ => []

def path : Verb → String
  | .program => "rejit"
  | .script shell => s!"rejit completion {shell.name}"
  | verb => s!"rejit {verb.name}"

def argumentsShown : Verb → String
  | .search => " PATTERN [TEXT...]"
  | .dump | .encode => " PATTERN"
  | .help => " [command]"
  | _ => ""

def summary : Verb → String
  | .program => "Match regular expressions with a JIT-compiled Pike VM"
  | .search => "Match each TEXT, or each line of stdin, against PATTERN"
  | .dump => "Print the automaton, extensions and analysis of PATTERN"
  | .encode => "Print PATTERN with extensions encoded as private-use codepoints"
  | .help => "Help about any command"
  | .completion => "Generate the autocompletion script for the specified shell"
  | .script shell => s!"Generate the autocompletion script for {shell.name}"

def description : Verb → String
  | .help =>
    "Help provides help for any command in the application.\n" ++
    "Simply type rejit help [path to command] for full details."
  | .completion =>
    "Generate the autocompletion script for rejit for the specified shell.\n" ++
    "See each sub-command's help for details on how to use the generated script.\n"
  | .script shell => shell.description
  | verb => verb.summary

def ownFlags : Verb → List Flag
  | .search => searchFlags
  | .script _ =>
    [{ name := "no-descriptions", kind := .switch, initial := "false"
       usage := "disable completion descriptions" }]
  | _ => []

def helpFlag (verb : Verb) : Flag :=
  { name := "help", letter := some 'h', kind := .switch, initial := "false"
    usage := s!"help for {verb.name}" }

def flags (verb : Verb) : List Flag := verb.ownFlags ++ globalFlags

def arity : Verb → Arity
  | .search => .atLeast 1
  | .dump | .encode => .exactly 1
  | .program | .help => .any
  | .completion | .script _ => .none

def isRunnable : Verb → Bool
  | .program | .completion => false
  | _ => true

end Verb

end Rematch.CommandLine
