/-
  Extensions.

  1. **Accessibility** — members of an extension with a written accessibility take it over where
     they have none of their own.

  2. **Folding** — an extension of a class, struct or enum of the program gives its members and
     references to the type it extends and disappears.  Extensions of protocols stay apart, so
     that requirements can be told from default implementations.  Extensions of foreign types
     cannot be folded and are retained.
-/
import Deadwood.Graph.Edit
import Deadwood.Graph.Hierarchy
import Deadwood.Pass.Outcome

namespace Deadwood.Extensions

/-! ## Accessibility -/

/-- The members that take over an accessibility, and which. -/
def inheritedAccess (g : Graph) : List (DeclId × Tier) :=
  (g.declarationsOfKinds Kind.extensions).flatMap fun extension =>
    match g.declaration? extension with
    | some d =>
        if d.access.written then
          (d.members.toList.filter fun m => (g.declaration? m).any (!·.access.written)).map
            (·, d.access.tier)
        else []
    | none => []

/-- Let members take over the accessibility of their extension. -/
def cascadeAccess (g : Graph) : Graph :=
  (inheritedAccess g).foldl (fun g m => g.setAccess m.1 ⟨m.2, false⟩) g

/-! ## Folding -/

/-- Give everything an extension has to the declaration it extends, and remove it.  The reference
to the extended type goes first: it would become a reference of the type to itself. -/
def foldInto (g : Graph) (extension target : DeclId) (extended : Option RefId) : Outcome :=
  let g := extended.elim g g.removeReference
  match g.declaration? extension with
  | none => .failed g (.missingDeclaration extension)
  | some d =>
      let g := d.members.toList.foldl (fun g m => g.moveDeclaration m target) g
      let g := d.ownReferences.foldl (fun g r => g.moveReference r target) g
      .done ((g.recordFolded extension target).removeDeclaration extension)

/-- Fold one extension, or retain it when it extends a foreign type. -/
def foldOne (g : Graph) (extension : DeclId) : Outcome :=
  match g.declaration? extension with
  | none => .done g
  | some d =>
      .andThen g d.kind.extended fun extendedKind =>
        .andThen g (g.extendedDeclaration extension) fun
          | none => .done (g.mark .retained extension)
          | some target =>
              if extendedKind = .protocolType then .done g
              else .andThen g (g.extendedTypeReference extension) fun extended =>
                foldInto g extension target extended

/-- Fold the extensions of a list, one after the other, until one cannot be folded. -/
def foldEach (g : Graph) : List DeclId → Outcome
  | [] => .done g
  | extension :: rest =>
      let folded := foldOne g extension
      match folded.fault with
      | some _ => folded
      | none => foldEach folded.graph rest

/-- Fold every extension. -/
def foldAll (g : Graph) : Outcome := foldEach g (g.declarationsOfKinds Kind.extensions)

end Deadwood.Extensions
