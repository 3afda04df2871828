/-
  The outline of a program: its declarations, with what the source says of them and how they are
  nested, and nothing of the references they make.

  1. **`SameOutline`** — most passes add and remove references and put marks, and leave the outline
     alone.  Questions that read the outline only have the same answers then, as lists.

  2. **Who makes a reference** — the chain of owners ends at the same declaration as long as no
     reference of the chain is touched.
-/
import Deadwood.Proofs.Store.Query

namespace Deadwood

open Std

/-- Listing by keys depends on which items are given, and on their keys. -/
theorem sortByKey_congr {κ ι : Type} [Ord κ] [Ord ι] [TransOrd κ] [TransOrd ι] [LawfulEqOrd κ]
    [LawfulEqOrd ι] {key key' : ι → Option κ} {items items' : List ι}
    (hkey : ∀ i ∈ items, key' i = key i) (hmem : ∀ i, i ∈ items' ↔ i ∈ items) :
    sortByKey key' items' = sortByKey key items := by
  unfold sortByKey
  refine congrArg (fun s : SortedSet (Keyed κ ι) => s.toList.map (·.item)) ?_
  refine SortedSet.eq_of_mem_iff fun e => ?_
  simp only [SortedSet.mem_ofList, List.mem_filterMap, hmem]
  refine exists_congr fun i => and_congr_right fun hi => ?_
  rw [hkey i hi]

namespace Graph

variable {g h k : Graph} {c d : DeclId} {r q : RefId} {m : Mention}

/-- The same declarations, with the same symbols and nested alike. -/
def SameOutline (g h : Graph) : Prop :=
  ∀ d, (h.declaration? d).map (fun x => (x.toSymbol, x.links)) =
    (g.declaration? d).map fun x => (x.toSymbol, x.links)

namespace SameOutline

theorem refl : SameOutline g g := fun _ => rfl

theorem trans (H : SameOutline g h) (H' : SameOutline h k) : SameOutline g k := fun d =>
  (H' d).trans (H d)

theorem symm (H : SameOutline g h) : SameOutline h g := fun d => (H d).symm

/-- A change that keeps symbols and links of every entry. -/
theorem of_map (f : DeclId → Declaration → Declaration)
    (hd : ∀ d, h.declaration? d = (g.declaration? d).map (f d))
    (hs : ∀ d x, (f d x).toSymbol = x.toSymbol) (hl : ∀ d x, (f d x).links = x.links) :
    SameOutline g h := fun d => by
  rw [hd, Option.map_map]
  refine congrArg (Option.map · _) (funext fun x => ?_)
  rw [Function.comp_apply, hs, hl]

theorem of_declaration (hd : ∀ d, h.declaration? d = g.declaration? d) : SameOutline g h := fun d =>
  by rw [hd]

variable (H : SameOutline g h)
include H

theorem exists_declaration {x : Declaration} (hx : g.declaration? d = some x) :
    ∃ y, h.declaration? d = some y ∧ y.toSymbol = x.toSymbol ∧ y.links = x.links := by
  have hd := H d
  rw [hx] at hd
  obtain ⟨y, hy, he⟩ := Option.map_eq_some_iff.1 hd
  exact ⟨y, hy, congrArg Prod.fst he, congrArg Prod.snd he⟩

theorem declaration?_eq_none (hx : g.declaration? d = none) : h.declaration? d = none := by
  have hd := H d
  rw [hx] at hd
  exact Option.map_eq_none_iff.1 hd

theorem hasDeclaration : h.hasDeclaration d = g.hasDeclaration d := hasDeclaration_congr (H d)

theorem links : (h.declaration? d).map (·.links) = (g.declaration? d).map (·.links) := by
  have hd := congrArg (Option.map Prod.snd) (H d)
  rwa [Option.map_map, Option.map_map] at hd

theorem symbol : (h.declaration? d).map (·.toSymbol) = (g.declaration? d).map (·.toSymbol) := by
  have hd := congrArg (Option.map Prod.fst) (H d)
  rwa [Option.map_map, Option.map_map] at hd

theorem parentOf? : h.parentOf? d = g.parentOf? d := parentOf?_congr H.links

theorem any_declaration {p : Declaration → Bool}
    (hp : ∀ x y : Declaration, y.toSymbol = x.toSymbol → p y = p x) :
    (h.declaration? d).any p = (g.declaration? d).any p := by
  cases hx : g.declaration? d with
  | none => rw [H.declaration?_eq_none hx]
  | some x =>
      obtain ⟨y, hy, hs, -⟩ := H.exists_declaration hx
      rw [hy]
      exact hp x y hs

theorem any_parentDeclaration {p : Declaration → Bool}
    (hp : ∀ x y : Declaration, y.toSymbol = x.toSymbol → p y = p x) :
    (h.parentDeclaration? d).any p = (g.parentDeclaration? d).any p := by
  unfold parentDeclaration?
  rw [H.parentOf?]
  cases g.parentOf? d with
  | none => rfl
  | some a => exact H.any_declaration hp

theorem isProtocolMember : h.isProtocolMember d = g.isProtocolMember d :=
  H.any_parentDeclaration fun x y he => by rw [he]

theorem mem_declIds : d ∈ h.declIds ↔ d ∈ g.declIds := by
  rw [Graph.mem_declIds, Graph.mem_declIds, H.hasDeclaration]

theorem mem_ancestors : c ∈ h.ancestors d ↔ c ∈ g.ancestors d := by
  have hup : ∀ {k l : Graph}, SameOutline k l → k.EnclosedBy d c → l.EnclosedBy d c :=
    fun H hp => hp.imp (fun a => by rw [H.parentOf?]; exact List.Subset.refl _)
      fun a => H.mem_declIds.2
  rw [Graph.mem_ancestors, Graph.mem_ancestors]
  exact and_congr_left fun _ => ⟨hup H.symm, hup H⟩

theorem sortedDeclarations {xs ys : List DeclId} (hm : ∀ d, d ∈ ys ↔ d ∈ xs) :
    h.sortedDeclarations ys = g.sortedDeclarations xs := by
  refine sortByKey_congr (fun d _ => ?_) hm
  have hd := congrArg (Option.map Symbol.key) (H.symbol (d := d))
  rwa [Option.map_map, Option.map_map] at hd

theorem declarationsWhere {p : Declaration → Bool}
    (hp : ∀ x y : Declaration, y.toSymbol = x.toSymbol → p y = p x) :
    h.declarationsWhere p = g.declarationsWhere p := by
  refine H.sortedDeclarations fun d => ?_
  simp only [declIdsWhere, List.mem_filter, H.mem_declIds, H.any_declaration hp]

theorem membersWhere {p : Declaration → Bool}
    (hp : ∀ x y : Declaration, y.toSymbol = x.toSymbol → p y = p x) :
    h.membersWhere d p = g.membersWhere d p := by
  unfold Graph.membersWhere
  cases hx : g.declaration? d with
  | none => rw [H.declaration?_eq_none hx]
  | some x =>
      obtain ⟨y, hy, -, hl⟩ := H.exists_declaration hx
      have hmembers : y.members = x.members := congrArg (·.2.1) hl
      rw [hy]
      refine H.sortedDeclarations fun c => ?_
      rw [List.mem_filter, List.mem_filter, hmembers, H.any_declaration hp]

theorem witness? {name : String} {kind : Kind} : h.witness? d name kind = g.witness? d name kind :=
  congrArg List.head? (H.membersWhere fun x y he => by rw [he])

theorem mem_byUsr (hg : g.Indexed) (hh : h.Indexed) {usr : String} :
    d ∈ (Index.get h.declarationsByUsr usr).toList ↔
      d ∈ (Index.get g.declarationsByUsr usr).toList := by
  rw [hg.byUsr, hh.byUsr]
  constructor
  · rintro ⟨y, hy, hu⟩
    obtain ⟨x, hx, hs, -⟩ := H.symm.exists_declaration hy
    exact ⟨x, hx, by rw [hs]; exact hu⟩
  · rintro ⟨x, hx, hu⟩
    obtain ⟨y, hy, hs, -⟩ := H.exists_declaration hx
    exact ⟨y, hy, by rw [hs]; exact hu⟩

theorem declarationsWithUsr (hg : g.Indexed) (hh : h.Indexed) {usr : String} :
    h.declarationsWithUsr usr = g.declarationsWithUsr usr :=
  H.sortedDeclarations fun _ => H.mem_byUsr hg hh

theorem explicitDeclarationWithUsr? (hg : g.Indexed) (hh : h.Indexed) {usr : String} :
    h.explicitDeclarationWithUsr? usr = g.explicitDeclarationWithUsr? usr := by
  refine congrArg List.head? (H.sortedDeclarations fun d => ?_)
  rw [List.mem_filter, List.mem_filter, H.mem_byUsr hg hh,
    H.any_declaration fun x y he => by rw [he]]

theorem declarationWithUsr? (hg : g.Indexed) (hh : h.Indexed) {usr : String} :
    h.declarationWithUsr? usr = g.declarationWithUsr? usr := by
  unfold Graph.declarationWithUsr?
  rw [H.explicitDeclarationWithUsr? hg hh, H.declarationsWithUsr hg hh]

end SameOutline

/-! ## Changes that keep the outline -/

theorem Pruned.sameOutline {gone : List RefId} (P : Pruned gone g h) : SameOutline g h :=
  .of_map (fun _ x => x.without gone) P.declaration (fun _ _ => rfl) fun _ _ => rfl

theorem sameOutline_addReference {o : Option Owner} :
    SameOutline g (g.addReference m o).1 := by
  cases hnew : g.equalReference? m.key o with
  | some q => rw [addReference_eq_of_some hnew]; exact .refl
  | none =>
      refine .of_map _ (fun d => declaration?_addReference hnew) (fun d x => ?_) fun d x => ?_
      · split <;> simp
      · split <;> simp [Declaration.links]

theorem sameOutline_addUse : SameOutline g (g.addUse m d) := sameOutline_addReference

theorem sameOutline_markAll {mark : Mark} {ids : List DeclId} :
    SameOutline g (g.markAll mark ids) := .of_declaration fun _ => declaration?_markAll

/-! ## Who makes a reference -/

/-- More steps than the number of a reference change nothing. -/
theorem ownerWithin_of_lt (hg : g.Owned) {m n : Nat} (hm : r.index < m) (hn : r.index < n) :
    g.ownerWithin m r = g.ownerWithin n r := by
  induction m generalizing r n with
  | zero => omega
  | succ m ih =>
      cases n with
      | zero => omega
      | succ n =>
          rw [Graph.ownerWithin, Graph.ownerWithin]
          rcases ho : (g.reference? r).bind (·.owner) with _ | ⟨o | o⟩
          · rfl
          · rfl
          · have hlt := hg.owner_lt r o ho
            exact ih (by omega) (by omega)

/-- The look-up of who makes a reference does not run out of steps. -/
theorem referencingDeclaration?_eq (hg : g.Owned) {n : Nat} (hn : r.index < n) :
    g.referencingDeclaration? r = g.ownerWithin n r := by
  unfold Graph.referencingDeclaration?
  by_cases hs : r.index < g.references.size + 1
  · exact ownerWithin_of_lt hg hs hn
  · have hdead : g.reference? r = none := Arena.get?_eq_none_of_size_le (by omega)
    have hnone : ∀ n, g.ownerWithin n r = none := fun n => by
      cases n <;> simp [Graph.ownerWithin, hdead]
    rw [hnone, hnone]

/-- Who makes a reference, where the chain of owners is as before. -/
theorem referencingDeclaration?_congr (hg : g.Owned) (hh : h.Owned) {P : RefId → Prop}
    (hsame : ∀ q, P q → h.ownerOf? q = g.ownerOf? q)
    (hup : ∀ q o, P q → g.ownerOf? q = some (.reference o) → P o) (hr : P r) :
    h.referencingDeclaration? r = g.referencingDeclaration? r := by
  rw [referencingDeclaration?_eq hg (Nat.lt_succ_self _),
    referencingDeclaration?_eq hh (Nat.lt_succ_self _)]
  generalize r.index.succ = n
  induction n generalizing r with
  | zero => rfl
  | succ n ih =>
      have hone : (h.reference? r).bind (·.owner) = (g.reference? r).bind (·.owner) := hsame r hr
      rw [Graph.ownerWithin, Graph.ownerWithin, hone]
      rcases ho : (g.reference? r).bind (·.owner) with _ | ⟨o | o⟩
      · rfl
      · rfl
      · exact ih (hup r o hr ho)

/-- Who makes a reference is read off the references alone. -/
theorem referencingDeclaration?_of_references (hsame : h.references = g.references) :
    h.referencingDeclaration? r = g.referencingDeclaration? r := by
  have hread : ∀ q, h.reference? q = g.reference? q := fun q => by
    rw [Graph.reference?, Graph.reference?, hsame]
  unfold Graph.referencingDeclaration?
  rw [hsame]
  generalize g.references.size + 1 = n
  induction n generalizing r with
  | zero => rfl
  | succ n ih =>
      rw [Graph.ownerWithin, Graph.ownerWithin, hread]
      split
      · rfl
      · exact ih
      · rfl

end Graph

end Deadwood
