/-
  Where the nodes of a document stand.

  A node is found by its fragment, the lists it is nested in and its indices there.  `declarationAt?`
  and `referenceAt?` answer the node of a site, where it and every node around it have an identifier:
  these are the nodes that are prepared.  What is nested in a node is nested in a node one level down,
  so a walk over the nodes can be followed from list to list (`contains_iff`,
  `containsReference_iff`, `fragment_eq_iff`).
-/
import Mathlib.Data.Set.Insert
import Deadwood.Ingest.Prepare

namespace Deadwood

/-! ## Sites -/

/-- Where a declaration node stands in a document. -/
inductive DeclarationSite where
  /-- In the list of a fragment. -/
  | outer (fragment index : Nat)
  /-- In a list of another declaration node. -/
  | inside (around : DeclarationSite) (nesting : Nesting) (index : Nat)
  deriving DecidableEq

/-- Where a reference node stands in a document. -/
inductive ReferenceSite where
  /-- In the list of a fragment. -/
  | outer (fragment index : Nat)
  /-- In one of the two lists of a declaration node. -/
  | under (around : DeclarationSite) (isRelated : Bool) (index : Nat)
  /-- In the list of another reference node. -/
  | inside (around : ReferenceSite) (index : Nat)
  deriving DecidableEq

namespace DeclarationSite

variable {s t : DeclarationSite} {r : ReferenceSite}

/-- How the node is nested; one that is nested in nothing counts as a member. -/
def nesting : DeclarationSite → Nesting
  | outer _ _ => .member
  | inside _ nesting _ => nesting

/-- The site of the node around the node. -/
def around? : DeclarationSite → Option DeclarationSite
  | outer _ _ => none
  | inside s _ _ => some s

def fragment : DeclarationSite → Nat
  | outer fragment _ => fragment
  | inside s _ _ => s.fragment

/-- The node of the one site is that of the other or nested in it. -/
inductive Contains (s : DeclarationSite) : DeclarationSite → Prop where
  | self : Contains s s
  | inside {t : DeclarationSite} (h : Contains s t) (nesting : Nesting) (index : Nat) :
      Contains s (.inside t nesting index)

/-- The reference node of the one site is nested in the node of the other. -/
inductive ContainsReference (s : DeclarationSite) : ReferenceSite → Prop where
  | under {t : DeclarationSite} (h : s.Contains t) (isRelated : Bool) (index : Nat) :
      ContainsReference s (.under t isRelated index)
  | inside {r : ReferenceSite} (h : ContainsReference s r) (index : Nat) :
      ContainsReference s (.inside r index)

end DeclarationSite

namespace ReferenceSite

/-- Only what stands in the list of structural references is structural. -/
def isRelated : ReferenceSite → Bool
  | outer _ _ => false
  | under _ isRelated _ => isRelated
  | inside _ _ => false

def fragment : ReferenceSite → Nat
  | outer fragment _ => fragment
  | under s _ _ => s.fragment
  | inside r _ => r.fragment

/-- What the node around a reference node was mapped to. -/
def owner (δ : DeclarationSite → DeclId) (ρ : ReferenceSite → RefId) : ReferenceSite → Option Owner
  | outer _ _ => none
  | under s _ _ => some (.declaration (δ s))
  | inside r _ => some (.reference (ρ r))

/-- The node of the one site is that of the other or nested in it. -/
inductive Contains (q : ReferenceSite) : ReferenceSite → Prop where
  | self : Contains q q
  | inside {r : ReferenceSite} (h : Contains q r) (index : Nat) : Contains q (.inside r index)

end ReferenceSite

/-! ## One level down -/

namespace DeclarationSite

variable {s t : DeclarationSite} {q r : ReferenceSite} {f : Nat}

theorem contains_iff : s.Contains t ↔ t = s ∨ (∃ i, (inside s .member i).Contains t) ∨
    ∃ i, (inside s .unusedParameter i).Contains t := by
  constructor
  · intro h
    induction h with
    | self => exact .inl rfl
    | @inside t _ nesting i ih =>
        rcases ih with rfl | ⟨j, hj⟩ | ⟨j, hj⟩
        · cases nesting
          · exact .inr (.inl ⟨i, .self⟩)
          · exact .inr (.inr ⟨i, .self⟩)
        · exact .inr (.inl ⟨j, hj.inside nesting i⟩)
        · exact .inr (.inr ⟨j, hj.inside nesting i⟩)
  · have hdown : ∀ {nesting i t}, (inside s nesting i).Contains t → s.Contains t := by
      intro nesting i t h
      induction h with
      | self => exact .inside .self nesting i
      | inside _ nesting i ih => exact ih.inside nesting i
    rintro (rfl | ⟨i, h⟩ | ⟨i, h⟩)
    · exact .self
    · exact hdown h
    · exact hdown h

theorem containsReference_iff : s.ContainsReference r ↔
    ((∃ i, (inside s .member i).ContainsReference r) ∨
      ∃ i, (inside s .unusedParameter i).ContainsReference r) ∨
    (∃ i, (ReferenceSite.under s false i).Contains r) ∨
      ∃ i, (ReferenceSite.under s true i).Contains r := by
  constructor
  · intro h
    induction h with
    | under h b i =>
        rcases contains_iff.1 h with rfl | ⟨j, hj⟩ | ⟨j, hj⟩
        · cases b
          · exact .inr (.inl ⟨i, .self⟩)
          · exact .inr (.inr ⟨i, .self⟩)
        · exact .inl (.inl ⟨j, .under hj b i⟩)
        · exact .inl (.inr ⟨j, .under hj b i⟩)
    | inside _ i ih =>
        rcases ih with (⟨j, hj⟩ | ⟨j, hj⟩) | ⟨j, hj⟩ | ⟨j, hj⟩
        · exact .inl (.inl ⟨j, hj.inside i⟩)
        · exact .inl (.inr ⟨j, hj.inside i⟩)
        · exact .inr (.inl ⟨j, hj.inside i⟩)
        · exact .inr (.inr ⟨j, hj.inside i⟩)
  · have hdown : ∀ {nesting i r}, (inside s nesting i).ContainsReference r →
        s.ContainsReference r := by
      intro nesting i r h
      induction h with
      | under h b j =>
          refine .under (contains_iff.2 ?_) b j
          cases nesting
          · exact .inr (.inl ⟨i, h⟩)
          · exact .inr (.inr ⟨i, h⟩)
      | inside _ j ih => exact ih.inside j
    have hunder : ∀ {b i r}, (ReferenceSite.under s b i).Contains r → s.ContainsReference r := by
      intro b i r h
      induction h with
      | self => exact .under .self b i
      | inside _ j ih => exact ih.inside j
    rintro ((⟨i, h⟩ | ⟨i, h⟩) | ⟨i, h⟩ | ⟨i, h⟩)
    · exact hdown h
    · exact hdown h
    · exact hunder h
    · exact hunder h

/-- The sites of a fragment are those nested in its list. -/
theorem fragment_eq_iff : t.fragment = f ↔ ∃ i, (outer f i).Contains t := by
  constructor
  · intro h
    induction t with
    | outer fragment i => exact ⟨i, h ▸ .self⟩
    | inside t nesting j ih =>
        obtain ⟨i, hi⟩ := ih h
        exact ⟨i, hi.inside nesting j⟩
  · rintro ⟨i, h⟩
    induction h with
    | self => rfl
    | inside _ _ _ ih => exact ih

end DeclarationSite

namespace ReferenceSite

variable {q r : ReferenceSite} {f : Nat}

theorem contains_iff : q.Contains r ↔ r = q ∨ ∃ i, (inside q i).Contains r := by
  constructor
  · intro h
    induction h with
    | self => exact .inl rfl
    | inside _ i ih =>
        rcases ih with rfl | ⟨j, hj⟩
        · exact .inr ⟨i, .self⟩
        · exact .inr ⟨j, hj.inside i⟩
  · rintro (rfl | ⟨i, h⟩)
    · exact .self
    · induction h with
      | self => exact .inside .self i
      | inside _ j ih => exact ih.inside j

theorem fragment_eq_iff : r.fragment = f ↔
    (∃ i, (DeclarationSite.outer f i).ContainsReference r) ∨ ∃ i, (outer f i).Contains r := by
  constructor
  · intro h
    induction r with
    | outer fragment i => exact .inr ⟨i, h ▸ .self⟩
    | under s b j =>
        obtain ⟨i, hi⟩ := DeclarationSite.fragment_eq_iff.1 h
        exact .inl ⟨i, .under hi b j⟩
    | inside r j ih =>
        rcases ih h with ⟨i, hi⟩ | ⟨i, hi⟩
        · exact .inl ⟨i, hi.inside j⟩
        · exact .inr ⟨i, hi.inside j⟩
  · rintro (⟨i, h⟩ | ⟨i, h⟩)
    · induction h with
      | under h _ _ => exact DeclarationSite.fragment_eq_iff.2 ⟨i, h⟩
      | inside _ _ ih => exact ih
    · induction h with
      | self => rfl
      | inside _ _ ih => exact ih

end ReferenceSite

/-! ## Nodes -/

/-- Whether a node has an identifier; one that has none is passed over. -/
def DeclarationNode.isIdentified (n : DeclarationNode) : Bool := n.usrs.any (· != "")

/-- Exactly these nodes say something. -/
theorem DeclarationNode.isSome_symbol? {n : DeclarationNode} (path : Path) :
    (n.symbol? path).isSome = n.isIdentified := by
  unfold symbol? isIdentified
  simp only
  split
  · rename_i hnone
    simpa using hnone
  · rename_i hsome
    simpa using hsome

/-- Whether a node has an identifier; one that has none is passed over. -/
def ReferenceNode.isIdentified (n : ReferenceNode) : Bool := n.usr != ""

/-- The nodes nested in a node. -/
def DeclarationNode.nestedAs (n : DeclarationNode) : Nesting → List DeclarationNode
  | .member => n.declarations
  | .unusedParameter => n.unusedParameters

/-- The references of a node, ordinary or structural ones. -/
def DeclarationNode.mentionedAs (n : DeclarationNode) : Bool → List ReferenceNode
  | false => n.references
  | true => n.related

namespace Document

/-- The declaration node of a site, with the file of its fragment; it and every node around it have
an identifier. -/
def declarationAt? (doc : Document) : DeclarationSite → Option (Path × DeclarationNode)
  | .outer f i => doc.fragments[f]?.bind fun fragment =>
      (fragment.declarations[i]?.filter (·.isIdentified)).map (fragment.file.path, ·)
  | .inside s nesting i => (doc.declarationAt? s).bind fun around =>
      ((around.2.nestedAs nesting)[i]?.filter (·.isIdentified)).map (around.1, ·)

/-- The reference node of a site, with the file of its fragment; it and every node around it have
an identifier. -/
def referenceAt? (doc : Document) : ReferenceSite → Option (Path × ReferenceNode)
  | .outer f i => doc.fragments[f]?.bind fun fragment =>
      (fragment.references[i]?.filter (·.isIdentified)).map (fragment.file.path, ·)
  | .under s isRelated i => (doc.declarationAt? s).bind fun around =>
      ((around.2.mentionedAs isRelated)[i]?.filter (·.isIdentified)).map (around.1, ·)
  | .inside r i => (doc.referenceAt? r).bind fun around =>
      (around.2.references[i]?.filter (·.isIdentified)).map (around.1, ·)

/-- The sites of the declaration nodes that are prepared. -/
def declarationSites (doc : Document) : Set DeclarationSite := {s | (doc.declarationAt? s).isSome}

/-- The sites of the reference nodes that are prepared. -/
def referenceSites (doc : Document) : Set ReferenceSite := {r | (doc.referenceAt? r).isSome}

end Document

end Deadwood
