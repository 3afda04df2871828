/-
  The passes of an analysis, and running them in order.

  Order matters: later passes read the references and marks that earlier ones wrote.  The first
  pass that gives up ends the run, and what was changed until then stays.
-/
import Deadwood.Pass.AssignOnly
import Deadwood.Pass.Directives
import Deadwood.Pass.Extensions
import Deadwood.Pass.Imports
import Deadwood.Pass.Overrides
import Deadwood.Pass.Parameters
import Deadwood.Pass.Protocols
import Deadwood.Pass.Reachability
import Deadwood.Pass.RedundantAccess
import Deadwood.Pass.RedundantProtocols
import Deadwood.Pass.Retention
import Deadwood.Pass.Synthesis

namespace Deadwood

/-- A pass over the graph. -/
inductive Pass where
  | unusedImports
  | directives
  | cascadeAccess
  | foldExtensions
  | protocolExtensions
  | conformances
  | overrides
  | foreignOverrides
  | enumCases
  | defaultConstructors
  | memberwiseInitializers
  | genericConstructors
  | accessors
  | dynamicMembers
  | propertyWrappers
  | resultBuilders
  | stringInterpolation
  | entryPoints
  | previews
  | testCases
  | markedTests
  | assets
  | publicApi
  | objcAccessible
  | patterns
  | unusedParameters
  | assignOnlyProperties
  | reachability
  | redundantProtocols
  | redundantPublic
  | redundantInternal
  | redundantFileprivate
  deriving DecidableEq, Repr

namespace Pass

/-- Every pass, in the order of the standard analysis. -/
def all : List Pass := [
    unusedImports, directives, cascadeAccess, foldExtensions, protocolExtensions, conformances,
    overrides, foreignOverrides, enumCases, defaultConstructors, memberwiseInitializers,
    genericConstructors, accessors, dynamicMembers, propertyWrappers, resultBuilders,
    stringInterpolation, entryPoints, previews, testCases, markedTests, assets, publicApi,
    objcAccessible, patterns, unusedParameters, assignOnlyProperties, reachability,
    redundantProtocols, redundantPublic, redundantInternal, redundantFileprivate]

/-- The name of a pass in reports of failures. -/
def label : Pass → String
  | unusedImports => "UnusedImportMarker"
  | directives => "CommentCommandRetainer"
  | cascadeAccess => "AccessibilityCascader"
  | foldExtensions => "ExtensionFolder"
  | protocolExtensions => "ProtocolExtensionReferenceBuilder"
  | conformances => "ProtocolConformanceReferenceBuilder"
  | overrides => "OverrideReferenceBuilder"
  | foreignOverrides => "ExternalOverrideRetainer"
  | enumCases => "EnumCaseReferenceBuilder"
  | defaultConstructors => "DefaultConstructorReferenceBuilder"
  | memberwiseInitializers => "StructImplicitInitializerReferenceBuilder"
  | genericConstructors => "GenericTypeConstructorReferenceBuilder"
  | accessors => "ComplexPropertyAccessorReferenceBuilder"
  | dynamicMembers => "DynamicMemberRetainer"
  | propertyWrappers => "PropertyWrapperRetainer"
  | resultBuilders => "ResultBuilderRetainer"
  | stringInterpolation => "StringInterpolationRetainer"
  | entryPoints => "EntryPointAttributeRetainer"
  | previews => "SwiftUiRetainer"
  | testCases => "XcTestRetainer"
  | markedTests => "SwiftTestingRetainer"
  | assets => "AssetReferenceRetainer"
  | publicApi => "PubliclyAccessibleRetainer"
  | objcAccessible => "ObjcAccessibleRetainer"
  | patterns => "PatternRetainer"
  | unusedParameters => "UnusedParameterRetainer"
  | assignOnlyProperties => "AssignOnlyPropertyReferenceEliminator"
  | reachability => "UsedDeclarationMarker"
  | redundantProtocols => "RedundantProtocolMarker"
  | redundantPublic => "RedundantPublicAccessibilityMarker"
  | redundantInternal => "RedundantInternalAccessibilityMarker"
  | redundantFileprivate => "RedundantFilePrivateAccessibilityMarker"

/-- The pass of that name. -/
def ofLabel? (text : String) : Option Pass := all.find? fun p => p.label == text

/-- Run a pass. -/
def run (s : Settings) (g : Graph) : Pass → Outcome
  | unusedImports => .done (Imports.markUnused g)
  | directives => .done (Directives.obey g)
  | cascadeAccess => .done (Extensions.cascadeAccess g)
  | foldExtensions => Extensions.foldAll g
  | protocolExtensions => Protocols.connectExtensions g
  | conformances => .done (Protocols.invertConformances g)
  | overrides => .done (Overrides.connect g)
  | foreignOverrides => .done (g.retainAll (Overrides.foreign g))
  | enumCases => .done (Synthesis.enumCases g)
  | defaultConstructors => .done (Synthesis.defaultConstructors g)
  | memberwiseInitializers => Synthesis.memberwiseInitializers g
  | genericConstructors => .done (Synthesis.genericConstructors g)
  | accessors => .done (Synthesis.accessors g)
  | dynamicMembers => .done (g.retainAll (Retention.dynamicMembers g))
  | propertyWrappers => .done (g.retainAll (Retention.propertyWrappers g))
  | resultBuilders => .done (g.retainAll (Retention.resultBuilders g))
  | stringInterpolation => .done (g.retainAll (Retention.stringInterpolation g))
  | entryPoints => .done (g.retainAll (Retention.entryPoints g))
  | previews => .done (g.retainAll (Retention.previews s g))
  | testCases => .done (g.retainAll (Retention.testCases s g))
  | markedTests => .done (g.retainAll (Retention.markedTests g))
  | assets => .done (g.retainAll (Retention.assets g))
  | publicApi => .done (g.retainAll (Retention.publicApi s g))
  | objcAccessible => .done (g.retainAll (Retention.objcAccessible s g))
  | patterns => .done (g.retainAll (Retention.patterns s g))
  | unusedParameters => .done (g.retainAll (Parameters.kept s g))
  | assignOnlyProperties => .done (AssignOnly.eliminate s g)
  | reachability => .done (Reachability.markUsed g)
  | redundantProtocols => .done (RedundantProtocols.markRedundant g)
  | redundantPublic => RedundantAccess.markPublic s.retainPublic g
  | redundantInternal => RedundantAccess.markInternal g
  | redundantFileprivate => RedundantAccess.markFileprivate g

/-- Whether the standard analysis has a pass: some are switched by what is looked for. -/
def isEnabled (d : Detection) : Pass → Bool
  | unusedImports => d.unusedImports
  | unusedParameters => d.unusedParameters
  | assignOnlyProperties => d.assignOnlyProperties
  | redundantProtocols => d.redundantProtocols
  | redundantPublic => d.redundantPublic
  | redundantInternal => d.redundantInternal
  | redundantFileprivate => d.redundantFileprivate
  | _ => true

end Pass

/-- The passes of the standard analysis. -/
def standardPasses (s : Settings) : List Pass := Pass.all.filter (Pass.isEnabled s.detection)

/-- A pass that gave up, and why. -/
structure PassFailure where
  pass : Pass
  cause : Fault
  deriving DecidableEq, Repr

namespace PassFailure

/-- The message of a failure. -/
def message (f : PassFailure) : String := s!"mutator '{f.pass.label}' failed"

/-- The diagnostic code of a failure. -/
def code (_ : PassFailure) : String := "swiftdeadcode::pipeline::mutator"

end PassFailure

/-- What a run of several passes leaves behind. -/
structure RunResult where
  graph : Graph
  warnings : List Warning := []
  failure : Option PassFailure := none

/-- Run passes in order, until one gives up. -/
def runPasses (s : Settings) (g : Graph) : List Pass → RunResult
  | [] => { graph := g }
  | pass :: rest =>
      let outcome := pass.run s g
      match outcome.fault with
      | some cause =>
          { graph := outcome.graph, warnings := outcome.warnings, failure := some ⟨pass, cause⟩ }
      | none =>
          let later := runPasses s outcome.graph rest
          { later with warnings := outcome.warnings ++ later.warnings }

/-- Run the standard analysis. -/
def analyse (s : Settings) (g : Graph) : RunResult := runPasses s g (standardPasses s)

end Deadwood
