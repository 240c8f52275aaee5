import TreeInterchange.Issue
import TreeInterchange.Metamodel.Inheritance

/-!
# Built-in packages

Every metamodel starts from two packages: one for nodes, positions, issues and results, and
one for the traces that link the nodes of two trees.
-/

namespace TreeInterchange

namespace Builtin

def plainClass (name : String) (features : List Feature) : Classifier :=
  .classDecl ⟨name, false, false, [], features⟩

/-- An interface that classes extend to mark what they stand for. -/
def marker (name : String) : Classifier := .classDecl ⟨name, true, true, [], []⟩

def contained (name target : String) : Feature :=
  .single name .containment (.ofClass (.ast target))

def plain (name : String) (type : FeatureType) : Feature := .single name .plain type

def nodeClass : ClassDecl where
  name := "ASTNode"
  isAbstract := true
  isInterface := false
  supertypes := []
  features := [contained "position" "Position",
    .single "destination" .reference (.ofClass (.ast "ASTNode")),
    .single "origin" .reference (.ofClass (.ast "ASTNode"))]

def astPackage : Package :=
  let int := FeatureType.ecore "EInt"
  { Package.ofName "StrumentaLanguageSupport" astUri with shortName := some "" }.addAll [
    .classDecl nodeClass,
    marker "Statement",
    marker "Expression",
    marker "EntityDeclaration",
    plainClass "Point" [plain "line" int, plain "column" int],
    plainClass "Position" [contained "start" "Point", contained "end" "Point"],
    .enumDecl ⟨"IssueType", IssueType.all.map IssueType.literal⟩,
    .enumDecl ⟨"IssueSeverity", Severity.all.map Severity.literal⟩,
    plainClass "Issue" [plain "type" (.ofEnum (.ast "IssueType")),
      plain "message" (.ecore "EString"),
      plain "severity" (.ofEnum (.ast "IssueSeverity")),
      contained "position" "Position"],
    plainClass "Result" [contained "root" "ASTNode", (contained "issues" "Issue").many]]

def traceClass : ClassifierRef := ⟨traceUri, "TranspilationTrace"⟩

def tracePackage : Package :=
  let text := FeatureType.ecore "EString"
  (Package.ofName "StrumentaLanguageSupportTranspilation" traceUri).addAll [
    plainClass "TraceLink" [plain "source" text, plain "target" text],
    plainClass traceClass.name [plain "originalCode" text, plain "generatedCode" text,
      contained "sourceAST" "ASTNode", contained "targetAST" "ASTNode",
      contained "sourceResult" "Result", contained "targetResult" "Result",
      (Feature.single "links" .containment (.ofClass ⟨traceUri, "TraceLink"⟩)).many]]

end Builtin

/-- The metamodel of the built-in packages alone. -/
def Metamodel.initial : Metamodel :=
  (Metamodel.empty.add Builtin.astPackage).add Builtin.tracePackage

end TreeInterchange
