import SoundChange.CommandLine.Arguments

/-!
# Tools

The two tools of the command line and what they accept. The applier takes the words of a lexicon
through a rule file; the checker reports on a rule file, with a line for each rule.
-/

namespace SoundChange.CommandLine

/-- The two tools. -/
inductive Tool where
  | applier
  | checker
  deriving DecidableEq, Repr

/-- The flags that all tools have. -/
def commonOptions : List OptionForm :=
  [{ name := "help", letter := some 'h', about := "print this list" },
    { name := "version", letter := some 'V', about := "print the version" }]

/-- What each tool accepts. -/
def Tool.grammar : Tool → Grammar
  | applier =>
    { options := [
        { name := "rules", letter := some 'r', value := some .path, about := "the rule file" },
        { name := "lexicon", letter := some 'l', value := some .path
          about := "the words, one in a line; standard input if absent or '-'" },
        { name := "output", letter := some 'o', value := some .path
          about := "the file to write; standard output if absent" },
        { name := "verbose", letter := some 'v'
          about := "show the rules that changed a word, with their changes" },
        { name := "json", about := "write a JSON trace for each word" },
        { name := "no-modifier-continuation"
          about := "let a match end before a diacritic or modifier letter" },
        { name := "rescan-context"
          about := "go on right behind the target of a match" }] ++ commonOptions
      exclusive := [("json", "verbose")] }
  | checker =>
    { options := [
        { name := "max-states", value := some .number
          about := "the largest number of states for a rule" },
        { name := "keep-trailing-optionals"
          about := "keep optional groups at the end of an environment" }] ++ commonOptions
      positionals := 1 }

/-- The list of what a tool accepts. -/
def Tool.help (tool : Tool) : Text :=
  tool.grammar.options.flatMap fun o =>
    let letter := match o.letter with
      | some c => ['-', c, ',', ' ']
      | none => []
    (letter ++ '-' :: '-' :: o.name.toList).rightpad 30 ' ' ++ o.about.toList ++ ['\n']

/-- The name and version of a tool. -/
def Tool.version : Tool → Text
  | applier => "sound change applier 0.1.0\n".toList
  | checker => "sound change checker 0.1.0\n".toList

end SoundChange.CommandLine
