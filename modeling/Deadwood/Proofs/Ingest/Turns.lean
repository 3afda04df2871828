/-
  When the turn of a node comes.

  1. **Turns (`placedAt`, `addedAt`)** — the graph right after the node of a site was merged, before
     anything nested in it, and the handle that it got.  It is read off the lists that were merged
     before: the row of the node up to the node, and the rows before this row.

  2. **Runs (`Keeps.run`)** — a property of a graph and of the sites that had their turn, kept by every
     turn, holds of the graph behind all fragments and of all sites.  The recursion over the nodes is
     done here once.
-/
import Deadwood.Proofs.Ingest.Merging
import Deadwood.Proofs.Ingest.Sites
import Mathlib.Data.Set.Lattice

namespace Deadwood

/-! ## Rows -/

namespace Graph

/-- A list of declaration nodes, and the graph when the merge comes to it. -/
structure DeclarationRow where
  graph : Graph
  path : Path
  nesting : Nesting
  parent : Option DeclId
  nodes : List DeclarationNode

/-- A list of reference nodes, and the graph when the merge comes to it. -/
structure ReferenceRow where
  graph : Graph
  path : Path
  isRelated : Bool
  owner : Option Owner
  nodes : List ReferenceNode

namespace DeclarationRow

/-- The row up to a node. -/
def upTo (w : DeclarationRow) (i : Nat) : DeclarationRow := { w with nodes := w.nodes.take i }

/-- The graph behind the row. -/
def after (w : DeclarationRow) : Graph :=
  w.graph.mergeDeclarations w.nesting w.parent (prepareDeclarations w.path w.nodes).1

/-- The turn of a node: the graph in which its symbol was placed, and the handle. -/
def placed (w : DeclarationRow) (i : Nat) : Graph × DeclId :=
  match w.nodes[i]?.bind (·.symbol? w.path) with
  | some symbol => (w.upTo i).after.placeSymbol symbol w.nesting w.parent
  | none => ((w.upTo i).after, ⟨0⟩)

/-- The row behind its first node. -/
def rest (w : DeclarationRow) : DeclarationRow :=
  { w with graph := (w.upTo 1).after, nodes := w.nodes.tail }

end DeclarationRow

namespace ReferenceRow

/-- The row up to a node. -/
def upTo (w : ReferenceRow) (i : Nat) : ReferenceRow := { w with nodes := w.nodes.take i }

/-- The graph behind the row. -/
def after (w : ReferenceRow) : Graph :=
  w.graph.mergeReferences w.owner (prepareReferences w.path w.isRelated w.nodes).1

/-- The turn of a node: the graph to which it was added, and the handle. -/
def added (w : ReferenceRow) (i : Nat) : Graph × RefId :=
  match w.nodes[i]? with
  | some n => (w.upTo i).after.addReference (n.mention w.path w.isRelated) w.owner
  | none => ((w.upTo i).after, ⟨0⟩)

/-- The row behind its first node. -/
def rest (w : ReferenceRow) : ReferenceRow :=
  { w with graph := (w.upTo 1).after, nodes := w.nodes.tail }

end ReferenceRow

end Graph

open Deadwood.Graph

/-! The rows of a node come one after the other: its members, its parameters, its ordinary references,
its structural ones.  A fragment has a row of declarations and a row of references. -/

namespace DeclarationNode

variable (n : DeclarationNode) (path : Path) (placed : Graph × DeclId)

def members : DeclarationRow := ⟨placed.1, path, .member, some placed.2, n.declarations⟩

def parameters : DeclarationRow :=
  ⟨(n.members path placed).after, path, .unusedParameter, some placed.2, n.unusedParameters⟩

def uses : ReferenceRow :=
  ⟨(n.parameters path placed).after, path, false, some (.declaration placed.2), n.references⟩

def relations : ReferenceRow :=
  ⟨(n.uses path placed).after, path, true, some (.declaration placed.2), n.related⟩

def declarationRow : Nesting → DeclarationRow
  | .member => n.members path placed
  | .unusedParameter => n.parameters path placed

def referenceRow : Bool → ReferenceRow
  | false => n.uses path placed
  | true => n.relations path placed

end DeclarationNode

def ReferenceNode.row (n : ReferenceNode) (path : Path) (added : Graph × RefId) : ReferenceRow :=
  ⟨added.1, path, false, some (.reference added.2), n.references⟩

def Fragment.declarationRow (f : Fragment) (g : Graph) : DeclarationRow :=
  ⟨g.addFile f.file.sourceFile, f.file.path, .member, none, f.declarations⟩

def Fragment.referenceRow (f : Fragment) (g : Graph) : ReferenceRow :=
  ⟨(f.declarationRow g).after, f.file.path, false, none, f.references⟩

/-! ## Turns -/

namespace Document

/-- The graph when the merge comes to a fragment. -/
def mergedBefore (doc : Document) (f : Nat) : Graph :=
  ((doc.fragments.take f).map (·.prepare.1)).foldl merge ∅

/-- The turn of a declaration node. -/
def placedAt (doc : Document) : DeclarationSite → Graph × DeclId
  | .outer f i =>
      match doc.fragments[f]? with
      | some fragment => (fragment.declarationRow (doc.mergedBefore f)).placed i
      | none => (∅, ⟨0⟩)
  | .inside s nesting i =>
      match doc.declarationAt? s with
      | some (path, n) => (n.declarationRow path (doc.placedAt s) nesting).placed i
      | none => (∅, ⟨0⟩)

/-- The turn of a reference node. -/
def addedAt (doc : Document) : ReferenceSite → Graph × RefId
  | .outer f i =>
      match doc.fragments[f]? with
      | some fragment => (fragment.referenceRow (doc.mergedBefore f)).added i
      | none => (∅, ⟨0⟩)
  | .under s isRelated i =>
      match doc.declarationAt? s with
      | some (path, n) => (n.referenceRow path (doc.placedAt s) isRelated).added i
      | none => (∅, ⟨0⟩)
  | .inside r i =>
      match doc.referenceAt? r with
      | some (path, n) => (n.row path (doc.addedAt r)).added i
      | none => (∅, ⟨0⟩)

/-- The declaration that a node becomes, or becomes a part of. -/
def declarationOf (doc : Document) (s : DeclarationSite) : DeclId := (doc.placedAt s).2

/-- The reference that a node becomes, or is equal to. -/
def referenceOf (doc : Document) (r : ReferenceSite) : RefId := (doc.addedAt r).2

end Document

/-! ## Rows, node by node -/

namespace Graph

variable {g : Graph} {doc : Document}

theorem mergeReferences_append {owner : Option Owner} (ts us : List ReferenceTree) :
    g.mergeReferences owner (ts ++ us) =
      (g.mergeReferences owner ts).mergeReferences owner us := by
  induction ts generalizing g with
  | nil => rfl
  | cons t ts ih => exact ih

theorem mergeDeclarations_append {nesting : Nesting} {parent : Option DeclId}
    (ts us : List DeclarationTree) : g.mergeDeclarations nesting parent (ts ++ us) =
      (g.mergeDeclarations nesting parent ts).mergeDeclarations nesting parent us := by
  induction ts generalizing g with
  | nil => rfl
  | cons t ts ih => exact ih

namespace DeclarationRow

variable {w : DeclarationRow} {place : Nat → DeclarationSite}

theorem after_rest : w.rest.after = w.after := by
  obtain ⟨g, path, nesting, parent, nodes⟩ := w
  cases nodes with
  | nil => rfl
  | cons n ns =>
      simp only [rest, upTo, after, List.take_succ_cons, List.take_zero, List.tail_cons,
        prepareDeclarations, List.append_nil, mergeDeclarations_append]

theorem after_upTo_rest {i : Nat} : (w.rest.upTo i).after = (w.upTo (i + 1)).after := by
  have hrest : (w.upTo (i + 1)).rest = w.rest.upTo i := by
    obtain ⟨g, path, nesting, parent, nodes⟩ := w
    cases nodes <;> simp [rest, upTo]
  rw [← hrest, after_rest]

theorem placed_rest {i : Nat} : w.rest.placed i = w.placed (i + 1) := by
  have hnode : w.rest.nodes[i]? = w.nodes[i + 1]? := by
    rw [← List.getElem?_tail]
    rfl
  simp only [placed, hnode, after_upTo_rest]
  rfl

/-- The nodes of the row are those of the sites, and have their turns there. -/
structure StandsAt (w : DeclarationRow) (doc : Document) (place : Nat → DeclarationSite) :
    Prop where
  node : ∀ i, doc.declarationAt? (place i) =
    (w.nodes[i]?.filter (·.isIdentified)).map (w.path, ·)
  placed : ∀ i, doc.placedAt (place i) = w.placed i
  nesting : ∀ i, (place i).nesting = w.nesting
  parent : ∀ i, (place i).around?.map doc.declarationOf = w.parent

theorem StandsAt.rest (H : w.StandsAt doc place) :
    w.rest.StandsAt doc fun i => place (i + 1) where
  node i := by
    rw [H.node, ← List.getElem?_tail]
    rfl
  placed i := (H.placed (i + 1)).trans placed_rest.symm
  nesting i := H.nesting (i + 1)
  parent i := H.parent (i + 1)

end DeclarationRow

namespace ReferenceRow

variable {w : ReferenceRow} {place : Nat → ReferenceSite}

theorem after_rest : w.rest.after = w.after := by
  obtain ⟨g, path, isRelated, owner, nodes⟩ := w
  cases nodes with
  | nil => rfl
  | cons n ns =>
      simp only [rest, upTo, after, List.take_succ_cons, List.take_zero, List.tail_cons,
        prepareReferences, List.append_nil, mergeReferences_append]

theorem after_upTo_rest {i : Nat} : (w.rest.upTo i).after = (w.upTo (i + 1)).after := by
  have hrest : (w.upTo (i + 1)).rest = w.rest.upTo i := by
    obtain ⟨g, path, isRelated, owner, nodes⟩ := w
    cases nodes <;> simp [rest, upTo]
  rw [← hrest, after_rest]

theorem added_rest {i : Nat} : w.rest.added i = w.added (i + 1) := by
  have hnode : w.rest.nodes[i]? = w.nodes[i + 1]? := by
    rw [← List.getElem?_tail]
    rfl
  simp only [added, hnode, after_upTo_rest]
  rfl

/-- The nodes of the row are those of the sites, and have their turns there. -/
structure StandsAt (w : ReferenceRow) (doc : Document) (place : Nat → ReferenceSite) : Prop where
  node : ∀ i, doc.referenceAt? (place i) = (w.nodes[i]?.filter (·.isIdentified)).map (w.path, ·)
  added : ∀ i, doc.addedAt (place i) = w.added i
  isRelated : ∀ i, (place i).isRelated = w.isRelated
  owner : ∀ i, (place i).owner doc.declarationOf doc.referenceOf = w.owner

theorem StandsAt.rest (H : w.StandsAt doc place) :
    w.rest.StandsAt doc fun i => place (i + 1) where
  node i := by
    rw [H.node, ← List.getElem?_tail]
    rfl
  added i := (H.added (i + 1)).trans added_rest.symm
  isRelated i := H.isRelated (i + 1)
  owner i := H.owner (i + 1)

end ReferenceRow

end Graph

namespace Document

variable {doc : Document} {path : Path} {s : DeclarationSite} {r : ReferenceSite}
  {n : DeclarationNode} {q : ReferenceNode} {fragment : Fragment} {f : Nat}

theorem standsAt_nested (hat : doc.declarationAt? s = some (path, n)) (nesting : Nesting) :
    (n.declarationRow path (doc.placedAt s) nesting).StandsAt doc (.inside s nesting) where
  node i := by
    rw [declarationAt?, hat]
    cases nesting <;> rfl
  placed i := by rw [placedAt, hat]
  nesting _ := by cases nesting <;> rfl
  parent _ := by cases nesting <;> rfl

theorem standsAt_mentioned (hat : doc.declarationAt? s = some (path, n)) (isRelated : Bool) :
    (n.referenceRow path (doc.placedAt s) isRelated).StandsAt doc (.under s isRelated) where
  node i := by
    rw [referenceAt?, hat]
    cases isRelated <;> rfl
  added i := by rw [addedAt, hat]
  isRelated _ := by cases isRelated <;> rfl
  owner _ := by cases isRelated <;> rfl

theorem standsAt_row (hat : doc.referenceAt? r = some (path, q)) :
    (q.row path (doc.addedAt r)).StandsAt doc (.inside r) where
  node i := by rw [referenceAt?, hat]; rfl
  added i := by rw [addedAt, hat]
  isRelated _ := rfl
  owner _ := rfl

theorem standsAt_declarationRow (hf : doc.fragments[f]? = some fragment) :
    (fragment.declarationRow (doc.mergedBefore f)).StandsAt doc (.outer f) where
  node i := by rw [declarationAt?, hf]; rfl
  placed i := by rw [placedAt, hf]
  nesting _ := rfl
  parent _ := rfl

theorem standsAt_referenceRow (hf : doc.fragments[f]? = some fragment) :
    (fragment.referenceRow (doc.mergedBefore f)).StandsAt doc (.outer f) where
  node i := by rw [referenceAt?, hf]; rfl
  added i := by rw [addedAt, hf]
  isRelated _ := rfl
  owner _ := rfl

end Document

/-! ## Runs -/

/-- The node around the node of a site had its turn. -/
def DeclarationSite.Due (D : Set DeclarationSite) (s : DeclarationSite) : Prop :=
  ∀ t, s.around? = some t → t ∈ D

/-- The node around the node of a site had its turn. -/
def ReferenceSite.Due (D : Set DeclarationSite) (R : Set ReferenceSite) : ReferenceSite → Prop
  | .outer _ _ => True
  | .under s _ _ => s ∈ D
  | .inside r _ => r ∈ R

theorem ReferenceSite.Due.mono {D E : Set DeclarationSite} {R S : Set ReferenceSite}
    {r : ReferenceSite} (hD : D ⊆ E) (hR : R ⊆ S) (h : r.Due D R) : r.Due E S := by
  cases r with
  | outer f i => trivial
  | under s b i => exact hD h
  | inside q i => exact hR h

namespace Document

/-- A property that the turn of every node keeps, when the node around it had its own. -/
structure Keeps (doc : Document) (P : Set DeclarationSite → Set ReferenceSite → Graph → Prop) :
    Prop where
  file : ∀ {D R g}, P D R g → ∀ file, P D R (g.addFile file)
  place : ∀ {D R g s path n symbol}, P D R g → doc.declarationAt? s = some (path, n) →
    n.symbol? path = some symbol → s.Due D →
    doc.placedAt s = g.placeSymbol symbol s.nesting (s.around?.map doc.declarationOf) →
    P (insert s D) R (doc.placedAt s).1
  refer : ∀ {D R g r path n}, P D R g → doc.referenceAt? r = some (path, n) → r.Due D R →
    doc.addedAt r = g.addReference (n.mention path r.isRelated)
      (r.owner doc.declarationOf doc.referenceOf) →
    P D (insert r R) (doc.addedAt r).1

/-- The sites of a declaration node and of all declaration nodes nested in it. -/
def sitesAt (doc : Document) (s : DeclarationSite) : Set DeclarationSite :=
  {t ∈ doc.declarationSites | s.Contains t}

/-- The sites of the reference nodes nested in a declaration node. -/
def mentionsAt (doc : Document) (s : DeclarationSite) : Set ReferenceSite :=
  {r ∈ doc.referenceSites | s.ContainsReference r}

/-- The sites of a reference node and of all reference nodes nested in it. -/
def nestedAt (doc : Document) (q : ReferenceSite) : Set ReferenceSite :=
  {r ∈ doc.referenceSites | q.Contains r}

variable {doc : Document} {P : Set DeclarationSite → Set ReferenceSite → Graph → Prop}
  {s : DeclarationSite} {r : ReferenceSite}

/-! A node that is passed over takes what is nested in it along. -/

theorem sitesAt_eq_empty (hs : doc.declarationAt? s = none) : doc.sitesAt s = ∅ := by
  have hnone : ∀ t, s.Contains t → doc.declarationAt? t = none := by
    intro t h
    induction h with
    | self => exact hs
    | inside _ _ _ ih => rw [declarationAt?, ih]; rfl
  refine Set.eq_empty_of_forall_notMem fun t ht => ?_
  simpa [declarationSites, hnone t ht.2] using ht.1

theorem nestedAt_eq_empty (hr : doc.referenceAt? r = none) : doc.nestedAt r = ∅ := by
  have hnone : ∀ q, r.Contains q → doc.referenceAt? q = none := by
    intro q h
    induction h with
    | self => exact hr
    | inside _ _ ih => rw [referenceAt?, ih]; rfl
  refine Set.eq_empty_of_forall_notMem fun q hq => ?_
  simpa [referenceSites, hnone q hq.2] using hq.1

theorem mentionsAt_eq_empty (hs : doc.declarationAt? s = none) : doc.mentionsAt s = ∅ := by
  have hnone : ∀ r, s.ContainsReference r → doc.referenceAt? r = none := by
    intro r h
    induction h with
    | @under t h b i =>
        -- a declaration node in between is not there either
        have ht : doc.declarationAt? t = none := by
          by_contra hsome
          have hmem : t ∈ doc.sitesAt s := ⟨Option.isSome_iff_ne_none.2 hsome, h⟩
          rw [sitesAt_eq_empty hs] at hmem
          exact hmem
        rw [referenceAt?, ht]
        rfl
    | inside _ _ ih => rw [referenceAt?, ih]; rfl
  refine Set.eq_empty_of_forall_notMem fun r hr => ?_
  simpa [referenceSites, hnone r hr.2] using hr.1

/-! A node that is prepared comes before its rows. -/

theorem sitesAt_eq (hs : s ∈ doc.declarationSites) : doc.sitesAt s =
    {s} ∪ (⋃ i, doc.sitesAt (.inside s .member i)) ∪
      ⋃ i, doc.sitesAt (.inside s .unusedParameter i) := by
  ext t
  simp only [sitesAt, Set.mem_union, Set.mem_iUnion, Set.mem_singleton_iff, Set.mem_ofPred_eq,
    exists_and_left, DeclarationSite.contains_iff (s := s)]
  by_cases he : t = s
  · simp [he, hs]
  · simp [he, and_or_left]

theorem mentionsAt_eq : doc.mentionsAt s =
    (⋃ i, doc.mentionsAt (.inside s .member i)) ∪
      (⋃ i, doc.mentionsAt (.inside s .unusedParameter i)) ∪
      (⋃ i, doc.nestedAt (.under s false i)) ∪ ⋃ i, doc.nestedAt (.under s true i) := by
  ext r
  simp only [mentionsAt, nestedAt, Set.mem_union, Set.mem_iUnion, Set.mem_ofPred_eq,
    exists_and_left, DeclarationSite.containsReference_iff (s := s), and_or_left, or_assoc]

theorem nestedAt_eq (hr : r ∈ doc.referenceSites) :
    doc.nestedAt r = {r} ∪ ⋃ i, doc.nestedAt (.inside r i) := by
  ext q
  simp only [nestedAt, Set.mem_union, Set.mem_iUnion, Set.mem_singleton_iff, Set.mem_ofPred_eq,
    exists_and_left, ReferenceSite.contains_iff (q := r)]
  by_cases he : q = r
  · simp [he, hr]
  · simp [he]

/-! ## The run over references -/

/-- Merging the first node of a row adds it, and then its own row. -/
theorem graph_rest_of_reference {w : ReferenceRow} {n : ReferenceNode} {ns : List ReferenceNode}
    (hw : w.nodes = n :: ns) : w.rest.graph =
      if n.isIdentified then (n.row w.path (w.added 0)).after else w.graph := by
  obtain ⟨g, path, isRelated, owner, nodes⟩ := w
  cases hw
  simp only [ReferenceRow.rest, ReferenceRow.upTo, ReferenceRow.after, List.take_succ_cons,
    List.take_zero, prepareReferences, List.append_nil, prepareReference_fst,
    ReferenceNode.isIdentified, bne_iff_ne, ne_eq, ite_not]
  split <;> rfl

mutual

/-- The run lemma of a reference node: its own turn, then its row. -/
theorem Keeps.referenceNode (K : doc.Keeps P) (n : ReferenceNode) {r : ReferenceSite}
    {D : Set DeclarationSite} {R : Set ReferenceSite} {g : Graph} {path : Path}
    (hat : doc.referenceAt? r = some (path, n)) (hdue : r.Due D R)
    (hadded : doc.addedAt r = g.addReference (n.mention path r.isRelated)
      (r.owner doc.declarationOf doc.referenceOf)) (H : P D R g) :
    P D (R ∪ doc.nestedAt r) (n.row path (doc.addedAt r)).after := by
  obtain ⟨kind, usr, name, file, line, column, role, references⟩ := n
  have hself := K.refer H hat hdue hadded
  have hrow := K.referenceRow references rfl (standsAt_row hat)
    (fun _ => Set.mem_insert r R) hself
  have hmem : r ∈ doc.referenceSites := by simp [referenceSites, hat]
  rwa [nestedAt_eq hmem, ← Set.union_assoc, Set.union_singleton]

/-- The run lemma of a row of references, node by node. -/
theorem Keeps.referenceRow (K : doc.Keeps P) (ns : List ReferenceNode) {w : ReferenceRow}
    {place : Nat → ReferenceSite} {D : Set DeclarationSite} {R : Set ReferenceSite}
    (hw : w.nodes = ns) (hs : w.StandsAt doc place) (hdue : ∀ i, (place i).Due D R)
    (H : P D R w.graph) : P D (R ∪ ⋃ i, doc.nestedAt (place i)) w.after := by
  cases ns with
  | nil =>
      have hafter : w.after = w.graph := by rw [ReferenceRow.after, hw]; rfl
      have hnone : ∀ i, doc.nestedAt (place i) = ∅ := by
        intro i
        exact nestedAt_eq_empty (by rw [hs.node, hw]; rfl)
      simpa [hafter, hnone] using H
  | cons n ns =>
      have hnode : doc.referenceAt? (place 0) =
          ((some n).filter (·.isIdentified)).map (w.path, ·) := by
        rw [hs.node, hw]
        rfl
      have hfirst : P D (R ∪ doc.nestedAt (place 0)) w.rest.graph := by
        rw [graph_rest_of_reference hw]
        cases hn : n.isIdentified with
        | false =>
            have hnone : doc.referenceAt? (place 0) = none := by simp [hnode, hn]
            simpa [nestedAt_eq_empty hnone] using H
        | true =>
            have hat : doc.referenceAt? (place 0) = some (w.path, n) := by simp [hnode, hn]
            rw [if_pos rfl, ← hs.added 0]
            refine K.referenceNode n hat (hdue 0) ?_ H
            rw [hs.added, hs.isRelated, hs.owner, ReferenceRow.added, hw]
            rfl
      have hrest := K.referenceRow ns (w := w.rest) (by simp [ReferenceRow.rest, hw]) hs.rest
        (fun i => (hdue (i + 1)).mono subset_rfl Set.subset_union_left) hfirst
      rwa [Set.union_assoc, Set.union_iUnion_nat_succ fun i => doc.nestedAt (place i),
        ReferenceRow.after_rest] at hrest

end

/-! ## The run over declarations -/

/-- Merging the first node of a row places its symbol, and then merges its own rows. -/
theorem graph_rest_of_declaration {w : DeclarationRow} {n : DeclarationNode}
    {ns : List DeclarationNode} (hw : w.nodes = n :: ns) : w.rest.graph =
      if (n.symbol? w.path).isSome then (n.relations w.path (w.placed 0)).after else w.graph := by
  obtain ⟨g, path, nesting, parent, nodes⟩ := w
  cases hw
  simp only [DeclarationRow.rest, DeclarationRow.upTo, DeclarationRow.after, List.take_succ_cons,
    List.take_zero, prepareDeclarations, List.append_nil, prepareDeclaration_fst]
  cases hs : n.symbol? path with
  | none => rfl
  | some symbol =>
      have hplaced : DeclarationRow.placed ⟨g, path, nesting, parent, n :: ns⟩ 0 =
          g.placeSymbol symbol nesting parent := by
        simp only [DeclarationRow.placed, List.getElem?_cons_zero, Option.bind_some, hs]
        rfl
      simp only [hplaced, DeclarationNode.relations, DeclarationNode.uses,
        DeclarationNode.parameters, DeclarationNode.members, DeclarationRow.after,
        ReferenceRow.after, ← mergeReferences_append]
      rfl

mutual

/-- The run lemma of a declaration node: its own turn, then its four rows. -/
theorem Keeps.declarationNode (K : doc.Keeps P) (n : DeclarationNode) {s : DeclarationSite}
    {D : Set DeclarationSite} {R : Set ReferenceSite} {g : Graph} {path : Path} {symbol : Symbol}
    (hat : doc.declarationAt? s = some (path, n)) (hsymbol : n.symbol? path = some symbol)
    (hdue : s.Due D)
    (hplaced : doc.placedAt s =
      g.placeSymbol symbol s.nesting (s.around?.map doc.declarationOf)) (H : P D R g) :
    P (D ∪ doc.sitesAt s) (R ∪ doc.mentionsAt s) (n.relations path (doc.placedAt s)).after := by
  obtain ⟨kind, usrs, name, file, line, column, accessibility, accessibilityExplicit, attributes,
    modifiers, comments, isImplicit, isObjcAccessible, declarations, unusedParameters, references,
    related⟩ := n
  -- each row comes after the turn of the node, so the node around its nodes had its turn
  have hself := K.place H hat hsymbol hdue hplaced
  have hmembers := K.declarationRow declarations rfl (standsAt_nested hat .member)
    (fun _ t ht => by cases ht; exact Set.mem_insert s D) hself
  have hparameters := K.declarationRow unusedParameters rfl (standsAt_nested hat .unusedParameter)
    (fun _ t ht => by cases ht; exact .inl (Set.mem_insert s D)) hmembers
  have huses := K.referenceRow references rfl (standsAt_mentioned hat false)
    (fun _ => .inl (.inl (Set.mem_insert s D))) hparameters
  have hrelations := K.referenceRow related rfl (standsAt_mentioned hat true)
    (fun _ => .inl (.inl (Set.mem_insert s D))) huses
  have hmem : s ∈ doc.declarationSites := by simp [declarationSites, hat]
  rw [sitesAt_eq hmem, mentionsAt_eq]
  simp only [← Set.union_assoc, Set.union_singleton]
  exact hrelations

/-- The run lemma of a row of declarations, node by node. -/
theorem Keeps.declarationRow (K : doc.Keeps P) (ns : List DeclarationNode) {w : DeclarationRow}
    {place : Nat → DeclarationSite} {D : Set DeclarationSite} {R : Set ReferenceSite}
    (hw : w.nodes = ns) (hs : w.StandsAt doc place) (hdue : ∀ i, (place i).Due D)
    (H : P D R w.graph) : P (D ∪ ⋃ i, doc.sitesAt (place i)) (R ∪ ⋃ i, doc.mentionsAt (place i))
      w.after := by
  cases ns with
  | nil =>
      have hafter : w.after = w.graph := by rw [DeclarationRow.after, hw]; rfl
      have hnone : ∀ i, doc.declarationAt? (place i) = none := by
        intro i
        rw [hs.node, hw]
        rfl
      simpa [hafter, fun i => sitesAt_eq_empty (hnone i), fun i => mentionsAt_eq_empty (hnone i)]
        using H
  | cons n ns =>
      have hnode : doc.declarationAt? (place 0) =
          ((some n).filter (·.isIdentified)).map (w.path, ·) := by
        rw [hs.node, hw]
        rfl
      have hfirst : P (D ∪ doc.sitesAt (place 0)) (R ∪ doc.mentionsAt (place 0))
          w.rest.graph := by
        rw [graph_rest_of_declaration hw]
        cases hn : n.symbol? w.path with
        | none =>
            have hnone : doc.declarationAt? (place 0) = none := by
              simp [hnode, ← DeclarationNode.isSome_symbol? w.path, hn]
            simpa [sitesAt_eq_empty hnone, mentionsAt_eq_empty hnone] using H
        | some symbol =>
            have hat : doc.declarationAt? (place 0) = some (w.path, n) := by
              simp [hnode, ← DeclarationNode.isSome_symbol? w.path, hn]
            rw [Option.isSome_some, if_pos rfl, ← hs.placed 0]
            refine K.declarationNode n hat hn (hdue 0) ?_ H
            rw [hs.placed, hs.nesting, hs.parent, DeclarationRow.placed, hw]
            simp only [List.getElem?_cons_zero, Option.bind_some, hn]
            simp [DeclarationRow.upTo, DeclarationRow.after, prepareDeclarations,
              mergeDeclarations]
      have hrest := K.declarationRow ns (w := w.rest) (by simp [DeclarationRow.rest, hw]) hs.rest
        (fun i t ht => .inl (hdue (i + 1) t ht)) hfirst
      rwa [Set.union_assoc, Set.union_assoc, Set.union_iUnion_nat_succ fun i => doc.sitesAt (place i),
        Set.union_iUnion_nat_succ fun i => doc.mentionsAt (place i),
        DeclarationRow.after_rest] at hrest

end

/-! ## The run over fragments -/

theorem mergedBefore_succ {fragment : Fragment} {f : Nat}
    (hf : doc.fragments[f]? = some fragment) :
    doc.mergedBefore (f + 1) = (fragment.referenceRow (doc.mergedBefore f)).after := by
  simp only [mergedBefore, List.take_add_one, hf, Option.toList_some, List.map_append,
    List.foldl_append]
  rfl

theorem sitesBefore_succ (f : Nat) : {t ∈ doc.declarationSites | t.fragment < f + 1} =
    {t ∈ doc.declarationSites | t.fragment < f} ∪ ⋃ i, doc.sitesAt (.outer f i) := by
  ext t
  simp only [sitesAt, Set.mem_union, Set.mem_iUnion, Set.mem_ofPred_eq, exists_and_left,
    ← DeclarationSite.fragment_eq_iff, ← and_or_left, Nat.lt_succ_iff_lt_or_eq]

theorem mentionsBefore_succ (f : Nat) : {r ∈ doc.referenceSites | r.fragment < f + 1} =
    {r ∈ doc.referenceSites | r.fragment < f} ∪ (⋃ i, doc.mentionsAt (.outer f i)) ∪
      ⋃ i, doc.nestedAt (.outer f i) := by
  ext r
  simp only [mentionsAt, nestedAt, Set.mem_union, Set.mem_iUnion, Set.mem_ofPred_eq,
    exists_and_left, or_assoc, ← and_or_left, ← ReferenceSite.fragment_eq_iff,
    Nat.lt_succ_iff_lt_or_eq]

theorem Keeps.mergedBefore (K : doc.Keeps P) (H : P ∅ ∅ ∅) {f : Nat}
    (hf : f ≤ doc.fragments.length) : P {t ∈ doc.declarationSites | t.fragment < f}
      {r ∈ doc.referenceSites | r.fragment < f} (doc.mergedBefore f) := by
  induction f with
  | zero => simpa [Document.mergedBefore] using H
  | succ f ih =>
      have hget : doc.fragments[f]? = some doc.fragments[f] := List.getElem?_eq_getElem hf
      have hfile := K.file (ih (Nat.le_of_succ_le hf)) doc.fragments[f].file.sourceFile
      have hdeclarations := K.declarationRow doc.fragments[f].declarations rfl
        (standsAt_declarationRow hget) (fun _ t ht => by cases ht) hfile
      have hreferences := K.referenceRow doc.fragments[f].references rfl
        (standsAt_referenceRow hget) (fun _ => trivial) hdeclarations
      rwa [sitesBefore_succ, mentionsBefore_succ, mergedBefore_succ hget]

theorem fragment_lt_of_declarationAt? {p : Path × DeclarationNode}
    (h : doc.declarationAt? s = some p) : s.fragment < doc.fragments.length := by
  induction s generalizing p with
  | outer f i =>
      obtain ⟨fragment, hf, -⟩ := Option.bind_eq_some_iff.1 h
      exact (List.getElem?_eq_some_iff.1 hf).1
  | inside s nesting i ih =>
      obtain ⟨around, ha, -⟩ := Option.bind_eq_some_iff.1 h
      exact ih ha

theorem fragment_lt_of_referenceAt? {p : Path × ReferenceNode}
    (h : doc.referenceAt? r = some p) : r.fragment < doc.fragments.length := by
  induction r generalizing p with
  | outer f i =>
      obtain ⟨fragment, hf, -⟩ := Option.bind_eq_some_iff.1 h
      exact (List.getElem?_eq_some_iff.1 hf).1
  | under s isRelated i =>
      obtain ⟨around, ha, -⟩ := Option.bind_eq_some_iff.1 h
      exact fragment_lt_of_declarationAt? ha
  | inside r i ih =>
      obtain ⟨around, ha, -⟩ := Option.bind_eq_some_iff.1 h
      exact ih ha

/-- **The run lemma of a document**: what the turn of every node keeps holds behind all fragments,
when every node that is prepared had its turn. -/
theorem Keeps.run (K : doc.Keeps P) (H : P ∅ ∅ ∅) : P doc.declarationSites doc.referenceSites
    ((doc.fragments.map (·.prepare.1)).foldl merge ∅) := by
  have hall := K.mergedBefore H le_rfl
  have hsites : {t ∈ doc.declarationSites | t.fragment < doc.fragments.length} =
      doc.declarationSites := by
    refine Set.sep_eq_self_iff_mem_true.2 fun t ht => ?_
    obtain ⟨p, hp⟩ := Option.isSome_iff_exists.1 ht
    exact fragment_lt_of_declarationAt? hp
  have hmentions : {r ∈ doc.referenceSites | r.fragment < doc.fragments.length} =
      doc.referenceSites := by
    refine Set.sep_eq_self_iff_mem_true.2 fun r hr => ?_
    obtain ⟨p, hp⟩ := Option.isSome_iff_exists.1 hr
    exact fragment_lt_of_referenceAt? hp
  rwa [hsites, hmentions, Document.mergedBefore, List.take_length] at hall

end Document

end Deadwood
