/-
  What preparing a fragment makes of its nodes.

  1. **Nodes and symbols** — `DeclarationNode.nodes` lists the nodes of a tree as it was reported,
     `DeclarationTree.symbols` the symbols of a tree as it will be merged.

  2. **Correspondence (`symbols_prepare`)** — the symbols of a prepared fragment are what some of its
     nodes say, in the same order: a node without identifier takes what is nested in it along.  So a
     symbol has an identifier, and what holds between any two nodes holds between any two symbols.
-/
import Mathlib.Data.List.Basic
import Deadwood.Ingest.Prepare

namespace Deadwood

/-! ## Nodes -/

mutual

/-- A node and the nodes nested in it, each before those nested in it. -/
def DeclarationNode.nodes : DeclarationNode → List DeclarationNode
  | ⟨kind, usrs, name, file, line, column, accessibility, accessibilityExplicit, attributes,
      modifiers, comments, isImplicit, isObjcAccessible, declarations, unusedParameters,
      references, related⟩ =>
      ⟨kind, usrs, name, file, line, column, accessibility, accessibilityExplicit, attributes,
        modifiers, comments, isImplicit, isObjcAccessible, declarations, unusedParameters,
        references, related⟩ ::
        (DeclarationNode.nodesOf declarations ++ DeclarationNode.nodesOf unusedParameters)

/-- The nodes of the trees of a list. -/
def DeclarationNode.nodesOf : List DeclarationNode → List DeclarationNode
  | [] => []
  | n :: ns => n.nodes ++ DeclarationNode.nodesOf ns

end

/-- The declaration nodes of a fragment, nested ones included. -/
def Fragment.nodes (f : Fragment) : List DeclarationNode := DeclarationNode.nodesOf f.declarations

/-! ## Symbols -/

mutual

/-- The symbols of a tree, each before those nested in it. -/
def DeclarationTree.symbols : DeclarationTree → List Symbol
  | ⟨symbol, members, parameters, _⟩ =>
      symbol :: (DeclarationTree.symbolsOf members ++ DeclarationTree.symbolsOf parameters)

/-- The symbols of the trees of a list. -/
def DeclarationTree.symbolsOf : List DeclarationTree → List Symbol
  | [] => []
  | t :: ts => t.symbols ++ DeclarationTree.symbolsOf ts

end

/-- The symbols of a prepared fragment. -/
def PreparedFragment.symbols (f : PreparedFragment) : List Symbol :=
  DeclarationTree.symbolsOf f.declarations

/-- Every symbol of a fragment carries an identifier. -/
def PreparedFragment.Identified (f : PreparedFragment) : Prop :=
  ∀ s ∈ f.symbols, s.usrs.toList ≠ []

theorem DeclarationTree.symbolsOf_append (ts us : List DeclarationTree) :
    symbolsOf (ts ++ us) = symbolsOf ts ++ symbolsOf us := by
  induction ts with
  | nil => rfl
  | cons t ts ih => simp [symbolsOf, ih]

/-! ## Correspondence -/

/-- The symbol of a node carries the identifiers of the node that are not empty, and at least
one. -/
theorem DeclarationNode.usrs_of_symbol? {n : DeclarationNode} {path : Path} {s : Symbol}
    (hs : n.symbol? path = some s) :
    s.usrs.toList ≠ [] ∧ ∀ usr ∈ s.usrs.toList, usr ∈ n.usrs ∧ usr ≠ "" := by
  unfold symbol? at hs
  simp only at hs
  split at hs
  · cases hs
  · rename_i hne
    cases hs
    have hmem : ∀ usr, usr ∈ (SortedSet.ofList (n.usrs.filter (· ≠ ""))).toList ↔
        usr ∈ n.usrs ∧ usr ≠ "" := by
      intro usr
      rw [SortedSet.mem_ofList, List.mem_filter, decide_eq_true_iff]
    refine ⟨?_, fun usr hu => (hmem usr).1 hu⟩
    obtain ⟨usr, hu⟩ := List.exists_mem_of_ne_nil _ hne
    exact List.ne_nil_of_mem (SortedSet.mem_ofList.2 hu)

/-- What preparing makes of a node: nothing where it says nothing, else its symbol with all that
preparing makes of what is nested in it. -/
theorem prepareDeclaration_fst (path : Path) (n : DeclarationNode) :
    (prepareDeclaration path n).1 = (n.symbol? path).map fun s =>
      ⟨s, (prepareDeclarations path n.declarations).1,
        (prepareDeclarations path n.unusedParameters).1,
        (prepareReferences path false n.references).1 ++
          (prepareReferences path true n.related).1⟩ := by
  obtain ⟨kind, usrs, name, file, line, column, accessibility, accessibilityExplicit, attributes,
    modifiers, comments, isImplicit, isObjcAccessible, declarations, unusedParameters, references,
    related⟩ := n
  -- a symbol does not depend on what is nested in the node
  have hsymbol : DeclarationNode.symbol? ⟨kind, usrs, name, file, line, column, accessibility,
      accessibilityExplicit, attributes, modifiers, comments, isImplicit, isObjcAccessible,
      [], [], [], []⟩ path = DeclarationNode.symbol? ⟨kind, usrs, name, file, line, column,
      accessibility, accessibilityExplicit, attributes, modifiers, comments, isImplicit,
      isObjcAccessible, declarations, unusedParameters, references, related⟩ path := rfl
  rw [prepareDeclaration]
  simp only [hsymbol]
  split <;> rename_i hs <;> rw [hs] <;> rfl

/-- What preparing makes of a reference. -/
theorem prepareReference_fst (path : Path) (isRelated : Bool) (n : ReferenceNode) :
    (prepareReference path isRelated n).1 = if n.usr = "" then none
      else some ⟨n.mention path isRelated, (prepareReferences path false n.references).1⟩ := by
  obtain ⟨kind, usr, name, file, line, column, role, references⟩ := n
  rw [prepareReference]
  split <;> rfl

mutual

theorem symbols_prepareDeclaration (path : Path) (n : DeclarationNode) :
    ∃ ns : List DeclarationNode, ns.Sublist n.nodes ∧
      DeclarationTree.symbolsOf (prepareDeclaration path n).1.toList =
        ns.filterMap (·.symbol? path) := by
  obtain ⟨kind, usrs, name, file, line, column, accessibility, accessibilityExplicit, attributes,
    modifiers, comments, isImplicit, isObjcAccessible, declarations, unusedParameters, references,
    related⟩ := n
  set n : DeclarationNode := ⟨kind, usrs, name, file, line, column, accessibility,
    accessibilityExplicit, attributes, modifiers, comments, isImplicit, isObjcAccessible,
    declarations, unusedParameters, references, related⟩
  have hnodes : n.nodes = n :: (DeclarationNode.nodesOf declarations ++
      DeclarationNode.nodesOf unusedParameters) := rfl
  obtain ⟨ms, hms, hmembers⟩ := symbols_prepareDeclarations path declarations
  obtain ⟨us, hus, hparameters⟩ := symbols_prepareDeclarations path unusedParameters
  rw [prepareDeclaration_fst]
  cases hs : n.symbol? path with
  | none => exact ⟨[], List.nil_sublist _, rfl⟩
  | some s =>
      refine ⟨n :: (ms ++ us), ?_, ?_⟩
      · rw [hnodes]
        exact (hms.append hus).cons_cons n
      · have hdeclarations : n.declarations = declarations := rfl
        have hunused : n.unusedParameters = unusedParameters := rfl
        simp [DeclarationTree.symbolsOf, DeclarationTree.symbols, hs, hdeclarations, hunused,
          hmembers, hparameters]

theorem symbols_prepareDeclarations (path : Path) (ns : List DeclarationNode) :
    ∃ ms : List DeclarationNode, ms.Sublist (DeclarationNode.nodesOf ns) ∧
      DeclarationTree.symbolsOf (prepareDeclarations path ns).1 =
        ms.filterMap (·.symbol? path) := by
  cases ns with
  | nil => exact ⟨[], List.nil_sublist _, rfl⟩
  | cons n ns =>
      obtain ⟨ms, hms, hfirst⟩ := symbols_prepareDeclaration path n
      obtain ⟨us, hus, hrest⟩ := symbols_prepareDeclarations path ns
      refine ⟨ms ++ us, hms.append hus, ?_⟩
      rw [List.filterMap_append, ← hfirst, ← hrest, ← DeclarationTree.symbolsOf_append]
      rfl

end

/-- **The symbols of a prepared fragment are what some of its nodes say**, in the same order. -/
theorem symbols_prepare (f : Fragment) : ∃ ns : List DeclarationNode, ns.Sublist f.nodes ∧
    f.prepare.1.symbols = ns.filterMap (·.symbol? f.file.path) :=
  symbols_prepareDeclarations f.file.path f.declarations

theorem identified_prepare (f : Fragment) : f.prepare.1.Identified := by
  intro s hs
  obtain ⟨ns, -, hsymbols⟩ := symbols_prepare f
  rw [hsymbols] at hs
  obtain ⟨n, -, hn⟩ := List.mem_filterMap.1 hs
  exact (DeclarationNode.usrs_of_symbol? hn).1

/-! ## Root references -/

/-- A root reference of a prepared fragment is what a reference node of the fragment says. -/
theorem mention_prepareReferences {path : Path} {isRelated : Bool} {ns : List ReferenceNode}
    {t : ReferenceTree} (ht : t ∈ (prepareReferences path isRelated ns).1) :
    ∃ n ∈ ns, n.usr ≠ "" ∧ t.mention = n.mention path isRelated := by
  induction ns with
  | nil => simp [prepareReferences] at ht
  | cons n ns ih =>
      simp only [prepareReferences, List.mem_append, Option.mem_toList] at ht
      rcases ht with ht | ht
      · refine ⟨n, by simp, ?_⟩
        rw [prepareReference_fst] at ht
        split at ht
        · cases ht
        · rename_i hne
          cases ht
          exact ⟨hne, rfl⟩
      · obtain ⟨m, hm, he⟩ := ih ht
        exact ⟨m, by simp [hm], he⟩

end Deadwood
