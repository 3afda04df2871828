/-
  Partial definitions: nodes that share an identifier become one declaration.

  1. **Condition (`Document.Unequivocal`)** — a newcomer is compared with a single declaration for each
     of its identifiers.  That is enough where an identifier stands for one place and one kind, where
     nodes that share identifiers with the same node share one with each other, and where the unused
     parameters say that they are parameters.

  2. **Classes (`Document.Resolves`)** — then two nodes are mapped to the same declaration exactly when
     they share an identifier.  The turn of a node keeps this: the declaration that its identifiers
     lead to is the one of all nodes that it shares an identifier with.

  3. **Result (`unified_of_unequivocal`)** — so no two declarations share an identifier, in whatever
     order the fragments come.  Without the condition, two declarations of one place and one kind can
     (`not_unified_equivocal`): one document for each of the three parts of it.
-/
import Deadwood.Proofs.Filing
import Deadwood.Proofs.Ingest.Accounting
import Deadwood.Proofs.Renaming.Basic

namespace Deadwood

open Deadwood.Graph

/-! ## Nodes that belong together -/

/-- Two nodes share an identifier. -/
def DeclarationNode.Akin (m n : DeclarationNode) : Prop :=
  ∃ usr ∈ m.usrs, usr ∈ n.usrs ∧ usr ≠ ""

instance (m n : DeclarationNode) : Decidable (m.Akin n) :=
  inferInstanceAs (Decidable (∃ usr ∈ m.usrs, usr ∈ n.usrs ∧ usr ≠ ""))

theorem DeclarationNode.Akin.symm {m n : DeclarationNode} (h : m.Akin n) : n.Akin m := by
  obtain ⟨usr, hm, hn, hne⟩ := h
  exact ⟨usr, hn, hm, hne⟩

/-- The identifiers of a document say which nodes are parts of one definition. -/
structure Document.Unequivocal (doc : Document) : Prop where
  /-- An identifier stands for one place and one kind. -/
  alike : ∀ {s t path path' m n}, doc.declarationAt? s = some (path, m) →
    doc.declarationAt? t = some (path', n) → m.Akin n →
    (m.location path).place = (n.location path').place ∧ m.kind = n.kind
  /-- No node is the only link between two others. -/
  joint : ∀ {s t u path path' path'' l m n}, doc.declarationAt? s = some (path, l) →
    doc.declarationAt? t = some (path', m) → doc.declarationAt? u = some (path'', n) →
    l.Akin m → m.Akin n → l.Akin n
  parameter : ∀ {s path n}, doc.declarationAt? s = some (path, n) →
    s.nesting = .unusedParameter → n.kind = .parameter

namespace Document

variable {doc : Document} {D : Set DeclarationSite} {R : Set ReferenceSite} {g : Graph}
  {δ : DeclarationSite → DeclId} {ρ : ReferenceSite → RefId} {s t : DeclarationSite}
  {path path' : Path} {m n : DeclarationNode} {symbol : Symbol} {d : DeclId} {usr : String}

/-- Leaving fragments out, repeating them or taking them in another order brings no new nodes. -/
theorem exists_declarationAt? {fs : List Fragment} (hfs : fs ⊆ doc.fragments)
    {p : Path × DeclarationNode}
    (h : ({ doc with fragments := fs } : Document).declarationAt? s = some p) :
    ∃ t, doc.declarationAt? t = some p ∧ t.nesting = s.nesting := by
  induction s generalizing p with
  | outer f i =>
      obtain ⟨fragment, hf, hp⟩ := Option.bind_eq_some_iff.1 h
      obtain ⟨f', hf'⟩ := List.getElem?_of_mem (hfs (List.mem_of_getElem? hf))
      refine ⟨.outer f' i, ?_, rfl⟩
      rw [declarationAt?, hf']
      exact hp
  | inside s nesting i ih =>
      obtain ⟨around, ha, hp⟩ := Option.bind_eq_some_iff.1 h
      obtain ⟨t, ht, -⟩ := ih ha
      refine ⟨.inside t nesting i, ?_, rfl⟩
      rw [declarationAt?, ht]
      exact hp

theorem Unequivocal.of_subset (hdoc : doc.Unequivocal) {fs : List Fragment}
    (hfs : fs ⊆ doc.fragments) : Unequivocal { doc with fragments := fs } where
  alike hs ht h := by
    obtain ⟨_, hs, -⟩ := exists_declarationAt? hfs hs
    obtain ⟨_, ht, -⟩ := exists_declarationAt? hfs ht
    exact hdoc.alike hs ht h
  joint hs ht hu h h' := by
    obtain ⟨_, hs, -⟩ := exists_declarationAt? hfs hs
    obtain ⟨_, ht, -⟩ := exists_declarationAt? hfs ht
    obtain ⟨_, hu, -⟩ := exists_declarationAt? hfs hu
    exact hdoc.joint hs ht hu h h'
  parameter hs h := by
    obtain ⟨_, ht, he⟩ := exists_declarationAt? hfs hs
    exact hdoc.parameter ht (he.trans h)

/-! ## Classes of nodes -/

/-- What a declaration carries, one of the nodes mapped to it brought. -/
theorem Accounts.carries_iff (H : doc.Accounts D R δ ρ g) {x : Declaration}
    (hx : g.declaration? d = some x) : usr ∈ x.usrs.toList ↔
      ∃ s ∈ D, δ s = d ∧ ∃ path n, doc.declarationAt? s = some (path, n) ∧
        usr ∈ n.usrs ∧ usr ≠ "" := by
  rw [(H.unites d x hx).usrs]
  constructor
  · rintro ⟨⟨path, n⟩, ⟨s, hs, hat, hd⟩, hu⟩
    exact ⟨s, hs, hd, path, n, hat, hu⟩
  · rintro ⟨s, hs, hd, path, n, hat, hu⟩
    exact ⟨(path, n), ⟨s, hs, hat, hd⟩, hu⟩

/-- Where parameters are parameters, a declaration has the kind of every node mapped to it. -/
theorem Accounts.kind_eq (H : doc.Accounts D R δ ρ g) (hdoc : doc.Unequivocal) (hs : s ∈ D)
    (hat : doc.declarationAt? s = some (path, n)) {x : Declaration}
    (hx : g.declaration? (δ s) = some x) : x.kind = n.kind := by
  obtain ⟨t, F⟩ := H.founded (δ s) x hx
  by_cases he : s = t
  · subst he
    obtain ⟨path', m, hm, -, hkind⟩ := F.node
    rw [hat] at hm
    cases hm
    rw [hkind]
    split
    · rename_i hnesting
      exact (hdoc.parameter hat hnesting).symm
    · rfl
  · exact (F.others s hs rfl he path n hat).symm

/-- Two nodes are mapped to the same declaration exactly when they share an identifier. -/
structure Resolves (doc : Document) (D : Set DeclarationSite) (R : Set ReferenceSite)
    (g : Graph) : Prop where
  accounts : doc.Accounts D R doc.declarationOf doc.referenceOf g
  filed : g.Filed
  same_iff : ∀ {s t path path' m n}, s ∈ D → t ∈ D → doc.declarationAt? s = some (path, m) →
    doc.declarationAt? t = some (path', n) →
    (doc.declarationOf s = doc.declarationOf t ↔ m.Akin n)

namespace Resolves

theorem empty : doc.Resolves ∅ ∅ ∅ := ⟨accounts_empty, .empty, fun hs => by cases hs⟩

/-- **No identifier is carried twice**: the nodes that brought it share it. -/
theorem unambiguous (H : doc.Resolves D R g) : g.Unambiguous := by
  intro c d x y usr hx hy hux huy
  obtain ⟨s, hs, rfl, path, m, hm, hum, hne⟩ := (H.accounts.carries_iff hx).1 hux
  obtain ⟨t, ht, rfl, path', n, hn, hun, -⟩ := (H.accounts.carries_iff hy).1 huy
  exact (H.same_iff hs ht hm hn).2 ⟨usr, hum, hun, hne⟩

/-- A partner shares an identifier with the newcomer, and so do all nodes mapped to it. -/
theorem akin_of_partner? (H : doc.Resolves D R g) (hdoc : doc.Unequivocal)
    (hat : doc.declarationAt? s = some (path, n)) (hsymbol : n.symbol? path = some symbol)
    (hp : g.partner? symbol = some (doc.declarationOf t)) (ht : t ∈ D)
    (hm : doc.declarationAt? t = some (path', m)) : n.Akin m := by
  obtain ⟨usr, hu, hfound⟩ := List.exists_of_findSome?_eq_some hp
  obtain ⟨x, hx, hux⟩ :=
    H.filed.toIndexed.carries_of_declarationWithUsr? (Option.filter_eq_some_iff.1 hfound).1
  obtain ⟨u, hD, he, path'', l, hl, hul, hne⟩ := (H.accounts.carries_iff hx).1 hux
  have hlm : l.Akin m := (H.same_iff hD ht hl hm).1 he
  have hun : usr ∈ n.usrs := ((DeclarationNode.usrs_of_symbol? hsymbol).2 usr hu).1
  exact hdoc.joint hat hl hm ⟨usr, hun, hul, hne⟩ hlm

/-- A newcomer that shares an identifier with an earlier node finds a partner. -/
theorem exists_partner? (H : doc.Resolves D R g) (hdoc : doc.Unequivocal)
    (hat : doc.declarationAt? s = some (path, n)) (hsymbol : n.symbol? path = some symbol)
    (ht : t ∈ D) (hm : doc.declarationAt? t = some (path', m)) (h : n.Akin m) :
    ∃ d, g.partner? symbol = some d := by
  obtain ⟨usr, hn, hum, hne⟩ := h
  obtain ⟨hunites, hkind, hlocation⟩ := DeclarationNode.unites_symbol? hsymbol
  obtain ⟨x, hx⟩ := Option.isSome_iff_exists.1 (H.accounts.live t ht)
  have hux : usr ∈ x.usrs.toList :=
    (H.accounts.carries_iff hx).2 ⟨t, ht, rfl, path', m, hm, hum, hne⟩
  -- the identifier leads to the declaration of the earlier node, and to no other
  obtain ⟨c, hc⟩ := H.filed.toIndexed.exists_declarationWithUsr? hx hux
  obtain ⟨y, hy, huy⟩ := H.filed.toIndexed.carries_of_declarationWithUsr? hc
  have he : c = doc.declarationOf t := H.unambiguous c _ y x usr hy hx huy hux
  subst he
  obtain ⟨hplace, hkinds⟩ := hdoc.alike hat hm ⟨usr, hn, hum, hne⟩
  have hxkind : x.kind = symbol.kind :=
    (H.accounts.kind_eq hdoc ht hm hx).trans (hkinds.symm.trans hkind.symm)
  have hxplace : x.location.place = symbol.location.place := by
    rw [hlocation, hplace]
    exact ((H.accounts.unites _ x hx).place (path', m) ⟨t, ht, hm, rfl⟩).symm
  have hsome : (g.partner? symbol).isSome := by
    refine List.findSome?_isSome_iff.2 ⟨usr, ?_, ?_⟩
    · exact (hunites.usrs usr).2 ⟨(path, n), rfl, hn, hne⟩
    · simp [hc, Option.filter, hx, hxkind, hxplace]
  exact Option.isSome_iff_exists.1 hsome

/-- The newcomer is mapped to the declaration of an earlier node exactly when the two share an
identifier. -/
theorem newcomer_iff (H : doc.Resolves D R g) (hdoc : doc.Unequivocal)
    (hat : doc.declarationAt? s = some (path, n)) (hsymbol : n.symbol? path = some symbol)
    {parent : Option DeclId}
    (hδ : doc.declarationOf s = (g.placeSymbol symbol s.nesting parent).2) (ht : t ∈ D)
    (hm : doc.declarationAt? t = some (path', m)) :
    doc.declarationOf s = doc.declarationOf t ↔ n.Akin m := by
  constructor
  · intro he
    rcases placeSymbol_cases g symbol s.nesting parent with
      ⟨c, hc, hplaced⟩ | ⟨-, hnew⟩
    · rw [hplaced] at hδ
      exact H.akin_of_partner? hdoc hat hsymbol (hc.trans (by rw [← he, hδ])) ht hm
    · -- what is new is not there yet, so no earlier node is mapped to it
      have hnext : (g.placeSymbol symbol s.nesting parent).2 = g.nextDeclaration := by
        rcases hnew with ⟨q, -, -, hplaced⟩ | hplaced <;> rw [hplaced] <;> rfl
      exact absurd (he.symm.trans (hδ.trans hnext)) (ne_nextDeclaration (H.accounts.live t ht))
  · intro h
    obtain ⟨c, hc⟩ := H.exists_partner? hdoc hat hsymbol ht hm h
    have hplaced : doc.declarationOf s = c := by
      rw [hδ]
      simp only [placeSymbol, hc]
    -- some earlier node is mapped to the partner, and the newcomer links it with the given one
    obtain ⟨x, hx, -⟩ := declaration?_of_partner? hc
    obtain ⟨u, F⟩ := H.accounts.founded c x hx
    obtain ⟨path'', l, hl, -⟩ := F.node
    have hnl : n.Akin l :=
      H.akin_of_partner? hdoc hat hsymbol (hc.trans (by rw [F.image])) F.mem hl
    have hlm : l.Akin m := hdoc.joint hl hat hm hnl.symm h
    rw [hplaced, ← F.image]
    exact (H.same_iff F.mem ht hl hm).2 hlm

theorem place (H : doc.Resolves D R g) (hdoc : doc.Unequivocal)
    (hat : doc.declarationAt? s = some (path, n)) (hsymbol : n.symbol? path = some symbol)
    (hdue : s.Due D) (hplaced : doc.placedAt s =
      g.placeSymbol symbol s.nesting (s.around?.map doc.declarationOf)) :
    doc.Resolves (insert s D) R (doc.placedAt s).1 where
  accounts := (keeps_accounts doc).place H.accounts hat hsymbol hdue hplaced
  filed := by
    rw [hplaced]
    rcases placeSymbol_cases g symbol s.nesting (s.around?.map doc.declarationOf) with
      ⟨c, -, he⟩ | ⟨-, ⟨q, -, -, he⟩ | he⟩ <;> rw [he]
    · exact H.filed.unify
    · exact H.filed.addUnusedParameter
    · exact H.filed.addDeclaration
  same_iff {t u path₁ path₂ l m} ht hu hl hm := by
    have hnew : ∀ {v path₃ k}, v ∈ D → doc.declarationAt? v = some (path₃, k) →
        (doc.declarationOf s = doc.declarationOf v ↔ n.Akin k) := fun hv hk =>
      H.newcomer_iff hdoc hat hsymbol (congrArg Prod.snd hplaced) hv hk
    rcases ht with rfl | ht
    · rw [hat] at hl
      cases hl
      rcases hu with rfl | hu
      · -- a node that is prepared shares its identifiers with itself
        rw [hat] at hm
        cases hm
        obtain ⟨hne, hmem⟩ := DeclarationNode.usrs_of_symbol? hsymbol
        obtain ⟨usr, husr⟩ := List.exists_mem_of_ne_nil _ hne
        exact iff_of_true rfl ⟨usr, (hmem usr husr).1, (hmem usr husr).1, (hmem usr husr).2⟩
      · exact hnew hu hm
    · rcases hu with rfl | hu
      · rw [hat] at hm
        cases hm
        exact eq_comm.trans ((hnew ht hl).trans ⟨.symm, .symm⟩)
      · exact H.same_iff ht hu hl hm

end Resolves

theorem keeps_resolves (hdoc : doc.Unequivocal) : doc.Keeps doc.Resolves where
  file H file := ⟨(keeps_accounts doc).file H.accounts file,
    H.filed.of_entries rfl rfl rfl rfl rfl rfl, H.same_iff⟩
  place H hat hsymbol hdue hplaced := H.place hdoc hat hsymbol hdue hplaced
  refer H hat hdue hadded :=
    ⟨(keeps_accounts doc).refer H.accounts hat hdue hadded, hadded ▸ H.filed.addReference,
      H.same_iff⟩

end Document

/-! ## Unified graphs -/

namespace Graph

/-- Whether two live declarations share an identifier, the place and the kind. -/
def areOneDefinition (g : Graph) (c d : DeclId) : Bool :=
  (g.declaration? c).any fun x => (g.declaration? d).any fun y =>
    x.kind == y.kind && x.location.place == y.location.place &&
      x.usrs.toList.any fun usr => y.usrs.contains usr

/-- No definition is spread over two declarations. -/
def Unified (g : Graph) : Prop := ∀ c d, g.areOneDefinition c d = true → c = d

theorem Unambiguous.unified {g : Graph} (hg : g.Unambiguous) : g.Unified := by
  intro c d h
  unfold areOneDefinition at h
  cases hx : g.declaration? c with
  | none => simp [hx] at h
  | some x =>
      cases hy : g.declaration? d with
      | none => simp [hx, hy] at h
      | some y =>
          simp only [hx, hy, Option.any_some, Bool.and_eq_true, List.any_eq_true,
            SortedSet.contains_iff] at h
          obtain ⟨-, usr, hux, huy⟩ := h
          exact hg c d x y usr hx hy hux huy

end Graph

namespace Document

theorem unambiguous_ofDocument {doc : Document} (hdoc : doc.Unequivocal) :
    (ofDocument doc).1.Unambiguous := by
  have hrun := (keeps_resolves hdoc).run .empty
  have hentries : ∀ d, (ofDocument doc).1.declaration? d =
      ((doc.fragments.map (·.prepare.1)).foldl merge ∅).declaration? d := by
    intro d
    rw [ofDocument_eq, addMetadata_eq]
    rfl
  refine hrun.unambiguous.of_usrs fun d x hx => ?_
  exact ⟨x, (hentries d).symm.trans hx, rfl⟩

/-- **Partial definitions are unified where identifiers are unequivocal**, whatever fragments of the
document come, in any order and however often. -/
theorem unified_of_unequivocal {doc : Document} (hdoc : doc.Unequivocal) {fs : List Fragment}
    (hfs : fs ⊆ doc.fragments) : (ofDocument { doc with fragments := fs }).1.Unified :=
  (unambiguous_ofDocument (hdoc.of_subset hfs)).unified

/-! A file that is compiled into two modules is reported twice.  Its class has one more identifier in
the one module than in the other, and its method an unused parameter. -/

/-- The parameter, the method and the class, as the two modules report them. -/
def sharedNodes : List DeclarationNode :=
  let parameter : DeclarationNode :=
    { kind := .parameter, usrs := ["s:p"], line := 2, column := 8 }
  let method : DeclarationNode := { kind := .instanceMethod, usrs := ["s:m"], line := 2 }
  let long : DeclarationNode := { method with unusedParameters := [parameter] }
  [ parameter, method, long,
    { kind := .classType, usrs := ["s:C"], line := 1, declarations := [method] },
    { kind := .classType, usrs := ["s:D", "s:C"], line := 1, declarations := [long] } ]

/-- The file in one of the modules. -/
def sharedFragment (module : String) (index : Nat) : Fragment :=
  { file := { path := ⟨"a.swift"⟩, modules := .singleton module },
    declarations := sharedNodes[index]?.toList }

def sharedFile : Document := { fragments := [sharedFragment "A" 4, sharedFragment "B" 3] }

theorem mem_sharedNodes {s : DeclarationSite} {path : Path} {n : DeclarationNode}
    (h : sharedFile.declarationAt? s = some (path, n)) : path = ⟨"a.swift"⟩ ∧ n ∈ sharedNodes ∧
      (s.nesting = .unusedParameter → n.kind = .parameter) := by
  induction s generalizing path n with
  | outer f i =>
      obtain ⟨fragment, hf, h⟩ := Option.bind_eq_some_iff.1 h
      obtain ⟨m, hm, he⟩ := Option.map_eq_some_iff.1 h
      cases he
      have hmem := List.mem_of_getElem? (Option.filter_eq_some_iff.1 hm).1
      have hfragment := List.mem_of_getElem? hf
      simp only [sharedFile, List.mem_cons, List.not_mem_nil, or_false] at hfragment
      refine ⟨?_, ?_, fun hnesting => by cases hnesting⟩
      · rcases hfragment with rfl | rfl <;> rfl
      · rcases hfragment with rfl | rfl
        · exact List.mem_of_getElem? (Option.mem_toList.1 (show n ∈ sharedNodes[4]?.toList from hmem))
        · exact List.mem_of_getElem? (Option.mem_toList.1 (show n ∈ sharedNodes[3]?.toList from hmem))
  | inside s nesting i ih =>
      obtain ⟨⟨path', around⟩, ha, h⟩ := Option.bind_eq_some_iff.1 h
      obtain ⟨m, hm, he⟩ := Option.map_eq_some_iff.1 h
      cases he
      obtain ⟨hpath, haround, -⟩ := ih ha
      have hmem := List.mem_of_getElem? (Option.filter_eq_some_iff.1 hm).1
      refine ⟨hpath, ?_⟩
      simp only [sharedNodes, List.mem_cons, List.not_mem_nil, or_false] at haround
      rcases haround with rfl | rfl | rfl | rfl | rfl <;> cases nesting <;>
        simp_all [DeclarationNode.nestedAs, sharedNodes, DeclarationSite.nesting]

theorem unequivocal_sharedFile : sharedFile.Unequivocal where
  alike {s t path path' m n} hs ht := by
    have hall : ∀ m ∈ sharedNodes, ∀ n ∈ sharedNodes, m.Akin n →
        (m.location ⟨"a.swift"⟩).place = (n.location ⟨"a.swift"⟩).place ∧ m.kind = n.kind := by
      decide
    obtain ⟨rfl, hm, -⟩ := mem_sharedNodes hs
    obtain ⟨rfl, hn, -⟩ := mem_sharedNodes ht
    exact hall m hm n hn
  joint {s t u path path' path'' l m n} hs ht hu := by
    have hall : ∀ l ∈ sharedNodes, ∀ m ∈ sharedNodes, ∀ n ∈ sharedNodes, l.Akin m → m.Akin n →
        l.Akin n := by decide
    exact hall l (mem_sharedNodes hs).2.1 m (mem_sharedNodes ht).2.1 n (mem_sharedNodes hu).2.1
  parameter hs h := (mem_sharedNodes hs).2.2 h

/-- The modules come in the other order, and one of them twice. -/
theorem unified_of_unequivocal_sharedFile :
    let fs := [sharedFragment "B" 3, sharedFragment "A" 4, sharedFragment "B" 3]
    sharedFile.Unequivocal ∧ fs ⊆ sharedFile.fragments ∧
      (ofDocument { sharedFile with fragments := fs }).1.Unified ∧
      (ofDocument { sharedFile with fragments := fs }).1.declarationCount = 3 := by
  intro fs
  have hfs : fs ⊆ sharedFile.fragments := by simp [fs, sharedFile]
  exact ⟨unequivocal_sharedFile, hfs, unified_of_unequivocal unequivocal_sharedFile hfs,
    by decide +kernel⟩

/-! Three documents of one file each.  An identifier stands at two lines; a class has an identifier of
each of two others; an unused parameter is called a local variable, and reported twice. -/

def singleFile (declarations : List DeclarationNode) : Document :=
  { fragments := [{ file := { path := ⟨"a.swift"⟩, modules := .singleton "A" }, declarations }] }

def scattered : Document :=
  let part (line : Nat) : DeclarationNode := { kind := .classType, usrs := ["s:C"], line }
  singleFile [part 1, part 2, part 2]

def bridged : Document :=
  let part (usrs : List String) : DeclarationNode := { kind := .classType, usrs, line := 1 }
  singleFile [part ["s:C"], part ["s:D"], part ["s:C", "s:D"]]

def mistaken : Document :=
  let parameter : DeclarationNode :=
    { kind := .localVariable, usrs := ["s:p"], line := 1, column := 8 }
  let function : DeclarationNode :=
    { kind := .freeFunction, usrs := ["s:f"], line := 1, unusedParameters := [parameter, parameter] }
  singleFile [function]

/-- **Partial definitions are not always unified.** -/
theorem not_unified_equivocal : ¬ (ofDocument scattered).1.Unified ∧
    ¬ (ofDocument bridged).1.Unified ∧ ¬ (ofDocument mistaken).1.Unified := by
  refine ⟨fun h => ?_, fun h => ?_, fun h => ?_⟩
  · exact absurd (h ⟨1⟩ ⟨2⟩ (by decide +kernel)) (by decide)
  · exact absurd (h ⟨0⟩ ⟨1⟩ (by decide +kernel)) (by decide)
  · exact absurd (h ⟨1⟩ ⟨2⟩ (by decide +kernel)) (by decide)

end Document

end Deadwood
