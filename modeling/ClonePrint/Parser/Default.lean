import ClonePrint.Parser.TagExport
import ClonePrint.Parser.TokenTree

/-!
# The parsers of all languages

Every language has one parser: those with a grammar work on syntax trees, the
others on exports.
-/
namespace ClonePrint

/-- What the parsers need from outside. Trees are built for the languages that have a grammar. -/
structure FrontEnds where
  build : Language → Text → SyntaxTree
  exporter : Exporter

def Grammar.ofLanguage? : Language → Option Grammar
  | .python => some .python
  | .javaScript => some .javaScript
  | _ => none

def Parser.ofLanguage (fronts : FrontEnds) (limits : Thresholds) (language : Language) :
    Parser Memory :=
  match Grammar.ofLanguage? language with
  | some grammar => ({ grammar, frontEnd := fronts.build language, limits } : TokenTree).toParser
  | none => ({ language, exporter := fronts.exporter, limits } : TagExport).toParser

end ClonePrint
