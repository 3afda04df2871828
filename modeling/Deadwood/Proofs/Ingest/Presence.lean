/-
  Trees that a graph has taken in.

  1. **`Symbol.Includes`** — one symbol says all that another one says.  Joining with what is included
     changes nothing (`joinParts_eq_self`), and what was joined includes both parts.

  2. **`Retains`** — whatever step ingestion takes, each declaration goes on to include what it was, each
     reference stays what it was and where it was, and no file is forgotten.

  3. **Standing trees** — a tree stands in a graph when some declaration includes its symbol and what is
     nested in the tree stands at that declaration.  Merging makes a tree stand
     (`standIn_mergeDeclarations`), and what retains the graph keeps it standing.

  4. **Merging what stands (`mergeDeclarations_eq_self`)** — where an identifier leads to one declaration
     and a key to one reference (`Legible`), every node of a standing tree finds itself, so nothing
     changes.
-/
import Deadwood.Proofs.Uniqueness
import Deadwood.Proofs.Dispatch.Wiring
import Deadwood.Proofs.Ingest.Accounting
import Deadwood.Proofs.Subtrees.Rooting

namespace Deadwood

/-! ## What a symbol says at least -/

/-- The first symbol is of the kind and at the place of the second, and says all that it says. -/
structure Symbol.Includes (x s : Symbol) : Prop where
  kind : x.kind = s.kind
  place : x.location.place = s.location.place
  usrs : ∀ usr ∈ s.usrs.toList, usr ∈ x.usrs.toList
  attributes : ∀ name ∈ s.attributes.toList, name ∈ x.attributes.toList
  modifiers : ∀ name ∈ s.modifiers.toList, name ∈ x.modifiers.toList
  directives : ∀ c ∈ s.directives, c ∈ x.directives
  name : s.name.isSome → x.name.isSome
  access : s.access.written → x.access.written
  isImplicit : x.isImplicit → s.isImplicit
  isObjc : s.isObjc → x.isObjc

namespace Symbol.Includes

variable {x y s : Symbol}

theorem refl : x.Includes x :=
  ⟨rfl, rfl, fun _ h => h, fun _ h => h, fun _ h => h, fun _ h => h, id, id, id, id⟩

theorem trans (H : y.Includes x) (H' : x.Includes s) : y.Includes s where
  kind := H.kind.trans H'.kind
  place := H.place.trans H'.place
  usrs usr h := H.usrs usr (H'.usrs usr h)
  attributes name h := H.attributes name (H'.attributes name h)
  modifiers name h := H.modifiers name (H'.modifiers name h)
  directives c h := H.directives c (H'.directives c h)
  name h := H.name (H'.name h)
  access h := H.access (H'.access h)
  isImplicit h := H'.isImplicit (H.isImplicit h)
  isObjc h := H.isObjc (H'.isObjc h)

end Symbol.Includes

/-- Of the first file at least as much is known as of the second. -/
structure SourceFile.Includes (x y : SourceFile) : Prop where
  modules : ∀ m ∈ y.modules.toList, m ∈ x.modules.toList
  imports : ∀ i ∈ y.imports, i ∈ x.imports
  directives : ∀ c ∈ y.directives, c ∈ x.directives

namespace SourceFile.Includes

variable {x y z : SourceFile}

theorem refl : x.Includes x := ⟨fun _ h => h, fun _ h => h, fun _ h => h⟩

theorem trans (H : x.Includes y) (H' : y.Includes z) : x.Includes z where
  modules m h := H.modules m (H'.modules m h)
  imports i h := H.imports i (H'.imports i h)
  directives c h := H.directives c (H'.directives c h)

theorem merge_left : (x.merge y).Includes x where
  modules _ h := SortedSet.mem_union.2 (.inl h)
  imports _ h := SourceFile.mem_appendNew.2 (.inl h)
  directives _ h := SourceFile.mem_appendNew.2 (.inl h)

theorem merge_right : (x.merge y).Includes y where
  modules _ h := SortedSet.mem_union.2 (.inr h)
  imports _ h := SourceFile.mem_appendNew.2 (.inr h)
  directives _ h := SourceFile.mem_appendNew.2 (.inr h)

end SourceFile.Includes

namespace Graph

variable {g h k : Graph} {c d : DeclId} {r : RefId} {s : Symbol} {m : Mention} {w : Option Owner}
  {n : Nesting} {p : Option DeclId}

/-- Joining with what is included changes nothing. -/
theorem joinParts_eq_self {x : Declaration} (H : x.toSymbol.Includes s) : joinParts x s = x := by
  have hname : x.name.or s.name = x.name := by
    cases hs : s.name with
    | none => simp
    | some name => exact Option.or_of_isSome (H.name (by simp [hs]))
  have haccess : (!x.access.written && s.access.written) = false := by
    cases hs : s.access.written with
    | false => simp
    | true => simp [H.access hs]
  have himplicit : (x.isImplicit && s.isImplicit) = x.isImplicit := by
    cases hx : x.isImplicit with
    | false => rfl
    | true => simp [H.isImplicit hx]
  have hobjc : (x.isObjc || s.isObjc) = x.isObjc := by
    cases hs : s.isObjc with
    | false => simp
    | true => simp [H.isObjc hs]
  unfold joinParts
  rw [SortedSet.union_eq_self H.attributes, SortedSet.union_eq_self H.modifiers,
    SourceFile.appendNew_eq_self H.directives, hname, haccess, himplicit, hobjc]
  rfl

/-- What was joined includes what it was. -/
theorem includes_joined (x : Declaration) (s : Symbol) :
    (joined x s).toSymbol.Includes x.toSymbol where
  kind := rfl
  place := rfl
  usrs _ hu := SortedSet.mem_union.2 (.inl hu)
  attributes _ ha := SortedSet.mem_union.2 (.inl ha)
  modifiers _ hm := SortedSet.mem_union.2 (.inl hm)
  directives _ hc := SourceFile.mem_appendNew.2 (.inl hc)
  name hn := by simp [joined, joinParts, hn]
  access ha := by simp [joined, joinParts, ha]
  isImplicit hi := (Bool.and_eq_true_iff.1 hi).1
  isObjc ho := Bool.or_eq_true_iff.2 (.inl ho)

/-- What was joined includes what was joined with it, where kind and place agree. -/
theorem includes_joined_right {x : Declaration} (hkind : x.kind = s.kind)
    (hplace : x.location.place = s.location.place) : (joined x s).toSymbol.Includes s where
  kind := hkind
  place := hplace
  usrs _ hu := SortedSet.mem_union.2 (.inr hu)
  attributes _ ha := SortedSet.mem_union.2 (.inr ha)
  modifiers _ hm := SortedSet.mem_union.2 (.inr hm)
  directives _ hc := SourceFile.mem_appendNew.2 (.inr hc)
  name hn := by simp [joined, joinParts, hn]
  access ha := by
    show (if !x.access.written && s.access.written then s.access else x.access).written = true
    cases hx : x.access.written <;> simp [hx, ha]
  isImplicit hi := (Bool.and_eq_true_iff.1 hi).2
  isObjc ho := Bool.or_eq_true_iff.2 (.inr ho)

/-! ## Where everything finds itself -/

/-- An identifier leads to one declaration, and an owner and a key to one reference. -/
structure Legible (g : Graph) : Prop extends Filed g where
  unambiguous : g.Unambiguous
  distinctKeys : g.DistinctKeys

/-- Files, exports and assets are not looked at. -/
theorem Legible.of_entries (hg : g.Legible) (hd : h.declarations = g.declarations)
    (hr : h.references = g.references) (hu : h.declarationsByUsr = g.declarationsByUsr)
    (hk : h.declarationsByKind = g.declarationsByKind)
    (hru : h.referencesByUsr = g.referencesByUsr) (hrr : h.rootReferences = g.rootReferences) :
    h.Legible where
  toFiled := hg.toFiled.of_entries hd hr hu hk hru hrr
  unambiguous := hg.unambiguous.of_usrs fun d x hx => by
    rw [declaration?, hd] at hx
    exact ⟨x, hx, rfl⟩
  distinctKeys := hg.distinctKeys.of_references hr

/-- A change that leaves the declaration as it is changes nothing. -/
theorem modifyDeclaration_eq_self {f : Declaration → Declaration} {x : Declaration}
    (hx : g.declaration? d = some x) (hf : f x = x) : g.modifyDeclaration d f = g := by
  have hentry : g.declarations.modify d.index f = g.declarations := by
    refine Arena.modify_eq_self fun y hy => ?_
    have hy : g.declaration? d = some y := hy
    rw [hx] at hy
    cases hy
    exact hf
  rw [modifyDeclaration, hentry]

/-- A declaration takes on no identifier that it carries. -/
theorem addUsr_eq_self (hg : g.Indexed) {x : Declaration} {usr : String}
    (hx : g.declaration? d = some x) (hu : usr ∈ x.usrs.toList) : g.addUsr d usr = g := by
  have husrs : x.usrs.insert usr = x.usrs := SortedSet.insert_eq_self hu
  have hindex : Index.add g.declarationsByUsr usr d = g.declarationsByUsr :=
    Index.add_eq_self ((hg.byUsr usr d).2 ⟨x, hx, hu⟩)
  rw [addUsr, if_pos (hasDeclaration_of_eq hx), modifyDeclaration_eq_self hx (by rw [husrs]),
    hindex]

/-- A declaration is joined with nothing that it includes. -/
theorem unify_eq_self (hg : g.Indexed) {x : Declaration} (hx : g.declaration? d = some x)
    (H : x.toSymbol.Includes s) : g.unify d s = g := by
  have hfold : ∀ usrs : List String, (∀ usr ∈ usrs, usr ∈ x.usrs.toList) →
      usrs.foldl (fun g usr => g.addUsr d usr) g = g := by
    intro usrs
    induction usrs with
    | nil => exact fun _ => rfl
    | cons usr usrs ih =>
        intro husrs
        rw [List.foldl_cons, addUsr_eq_self hg hx (husrs usr (by simp))]
        exact ih fun u hu => husrs u (by simp [hu])
  rw [unify, hfold _ H.usrs, modifyDeclaration_eq_self hx (joinParts_eq_self H)]

/-- **A symbol finds the declaration that includes it**, and leaves it as it is. -/
theorem Legible.placeSymbol_eq_self (hg : g.Legible) {x : Declaration}
    (hx : g.declaration? d = some x) (H : x.toSymbol.Includes s) (hs : s.usrs.toList ≠ []) :
    g.placeSymbol s n p = (g, d) := by
  have hpartner : g.partner? s = some d := by
    obtain ⟨usr, usrs, he⟩ := List.exists_cons_of_ne_nil hs
    have hlead : g.declarationWithUsr? usr = some d :=
      declarationWithUsr?_eq_some hg.toIndexed hg.unambiguous hx (H.usrs usr (by simp [he]))
    rw [partner?, he, List.findSome?_cons, hlead]
    simp [Option.filter, hx, H.kind, H.place]
  simp only [placeSymbol, hpartner, unify_eq_self hg.toIndexed hx H]

/-! ## What ingestion retains -/

/-- Each declaration goes on to include what it was, each reference stays what it was and where it was,
and of each file at least as much is known. -/
structure Retains (g h : Graph) : Prop where
  declaration : ∀ d x, g.declaration? d = some x →
    ∃ y, h.declaration? d = some y ∧ y.toSymbol.Includes x.toSymbol
  reference : ∀ r x, g.reference? r = some x →
    ∃ y, h.reference? r = some y ∧ y.toMention = x.toMention ∧ y.owner = x.owner
  file : ∀ c x, g.files.find? c = some x → ∃ y, h.files.find? c = some y ∧ y.Includes x

namespace Retains

theorem refl : Retains g g :=
  ⟨fun _ x hx => ⟨x, hx, .refl⟩, fun _ x hx => ⟨x, hx, rfl, rfl⟩, fun _ x hx => ⟨x, hx, .refl⟩⟩

theorem trans (H : Retains g h) (H' : Retains h k) : Retains g k where
  declaration d x hx := by
    obtain ⟨y, hy, hxy⟩ := H.declaration d x hx
    obtain ⟨z, hz, hyz⟩ := H'.declaration d y hy
    exact ⟨z, hz, hyz.trans hxy⟩
  reference r x hx := by
    obtain ⟨y, hy, hmention, howner⟩ := H.reference r x hx
    obtain ⟨z, hz, hmention', howner'⟩ := H'.reference r y hy
    exact ⟨z, hz, hmention'.trans hmention, howner'.trans howner⟩
  file c x hx := by
    obtain ⟨y, hy, hxy⟩ := H.file c x hx
    obtain ⟨z, hz, hyz⟩ := H'.file c y hy
    exact ⟨z, hz, hyz.trans hxy⟩

theorem hasDeclaration (H : Retains g h) (hd : g.hasDeclaration d = true) :
    h.hasDeclaration d = true := by
  obtain ⟨x, hx⟩ := hasDeclaration_iff.1 hd
  obtain ⟨y, hy, -⟩ := H.declaration d x hx
  exact hasDeclaration_of_eq hy

theorem hasOwner (H : Retains g h) {o : Owner} (ho : g.hasOwner o = true) :
    h.hasOwner o = true := by
  cases o with
  | declaration d => exact H.hasDeclaration ho
  | reference r =>
      obtain ⟨x, hx⟩ := hasReference_iff.1 ho
      obtain ⟨y, hy, -⟩ := H.reference r x hx
      exact hasReference_of_eq hy

end Retains

theorem retains_placeSymbol (hp : ∀ q, p = some q → g.hasDeclaration q = true) :
    Retains g (g.placeSymbol s n p).1 where
  declaration c x hx := by
    by_cases hc : c = (g.placeSymbol s n p).2
    · rcases @declaration?_placeSymbol g s n p hp with
        ⟨y, hy, -, -, hjoined⟩ | ⟨hnone, -⟩
      · rw [← hc] at hy hjoined
        rw [hx] at hy
        cases hy
        exact ⟨_, hjoined, includes_joined x s⟩
      · rw [← hc, hx] at hnone
        cases hnone
    · have hsame := declaration?_placeSymbol_of_ne hc
      rw [hx] at hsame
      obtain ⟨y, hy, he⟩ := Option.map_eq_some_iff.1 hsame
      exact ⟨y, hy, (Prod.mk.inj he).1 ▸ .refl⟩
  reference r x hx := ⟨x, by rw [reference?_placeSymbol, hx], rfl, rfl⟩
  file c x hx := by
    have hfiles : (g.placeSymbol s n p).1.files = g.files :=
      congrArg Notes.files references_placeSymbol.2
    exact ⟨x, hfiles ▸ hx, .refl⟩

theorem retains_addReference : Retains g (g.addReference m w).1 where
  declaration c x hx := by
    have hsame := declaration?_addReference_outline (g := g) (d := c) (m := m) (w := w)
    rw [hx] at hsame
    obtain ⟨y, hy, he⟩ := Option.map_eq_some_iff.1 hsame
    exact ⟨y, hy, (Prod.mk.inj he).1 ▸ .refl⟩
  reference q x hx := by
    cases hnew : g.equalReference? m.key w with
    | some _ =>
        rw [addReference_eq_of_some hnew]
        exact ⟨x, hx, rfl, rfl⟩
    | none =>
        have hne : q ≠ g.nextReference := ne_nextReference (hasReference_of_eq hx)
        rw [reference?_addReference hnew, if_neg hne, hx]
        refine ⟨_, rfl, ?_⟩
        split <;> exact ⟨rfl, rfl⟩
  file c x hx := by
    cases hnew : g.equalReference? m.key w with
    | some _ =>
        rw [addReference_eq_of_some hnew]
        exact ⟨x, hx, .refl⟩
    | none =>
        have hfiles : (g.addReference m w).1.files = g.files :=
          congrArg Notes.files (notes_addReference hnew)
        exact ⟨x, hfiles ▸ hx, .refl⟩

theorem retains_addFile {file : SourceFile} : Retains g (g.addFile file) where
  declaration _ x hx := ⟨x, hx, .refl⟩
  reference _ x hx := ⟨x, hx, rfl, rfl⟩
  file c x hx := by
    rw [addFile, SortedMap.find?_alter]
    split
    · rename_i hc
      rw [← hc, hx]
      exact ⟨_, rfl, .merge_left⟩
    · exact ⟨x, hx, .refl⟩

theorem Retains.mergeReferences (H : Retains g h) (ts : List ReferenceTree)
    (hw : ∀ o, w = some o → g.hasOwner o = true) : Retains g (h.mergeReferences w ts) :=
  mergeReferences_induction (P := Retains g) ts (fun o ho _ H => H.hasOwner (hw o ho))
    (fun _ _ _ H _ _ => H.trans retains_addReference) H

theorem Retains.mergeDeclarations (H : Retains g h) (ts : List DeclarationTree)
    (hp : ∀ q, p = some q → g.hasDeclaration q = true) : Retains g (h.mergeDeclarations n p ts) :=
  mergeDeclarations_induction (P := Retains g) ts
    (fun q hq _ H => H.hasDeclaration (hp q hq))
    (fun _ _ _ _ _ H hp => H.trans (retains_placeSymbol hp))
    (fun _ _ _ H _ => H.trans retains_addReference) H

theorem retains_merge {f : PreparedFragment} : Retains g (g.merge f) :=
  merge_induction (P := Retains g) (fun _ H => H.trans retains_addFile)
    (fun _ _ _ _ _ H hp => H.trans (retains_placeSymbol hp))
    (fun _ _ _ H _ _ => H.trans retains_addReference) .refl

end Graph

/-! ## Standing trees -/

open Deadwood.Graph

mutual

/-- Something with the key of the mention is owned by the owner, and what is nested in the tree stands
there. -/
def ReferenceTree.StandsIn (g : Graph) (w : Option Owner) : ReferenceTree → Prop
  | ⟨mention, nested⟩ => ∃ r x, g.reference? r = some x ∧ x.owner = w ∧
      x.toMention.key = mention.key ∧ ReferenceTree.StandIn g (some (.reference r)) nested

/-- The trees of a list stand. -/
def ReferenceTree.StandIn (g : Graph) (w : Option Owner) : List ReferenceTree → Prop
  | [] => True
  | t :: ts => t.StandsIn g w ∧ ReferenceTree.StandIn g w ts

end

mutual

/-- Some declaration includes the symbol, and what is nested in the tree stands: its references at this
declaration. -/
def DeclarationTree.StandsIn (g : Graph) : DeclarationTree → Prop
  | ⟨symbol, members, parameters, references⟩ => ∃ d x, g.declaration? d = some x ∧
      x.toSymbol.Includes symbol ∧ DeclarationTree.StandIn g members ∧
      DeclarationTree.StandIn g parameters ∧
      ReferenceTree.StandIn g (some (.declaration d)) references

/-- The trees of a list stand. -/
def DeclarationTree.StandIn (g : Graph) : List DeclarationTree → Prop
  | [] => True
  | t :: ts => t.StandsIn g ∧ DeclarationTree.StandIn g ts

end

namespace Graph

variable {g h : Graph} {w : Option Owner} {n : Nesting} {p : Option DeclId}

/-! ### What stands goes on standing -/

mutual

theorem Retains.standsIn_reference (H : Retains g h) {w : Option Owner} (t : ReferenceTree)
    (ht : t.StandsIn g w) : t.StandsIn h w := by
  obtain ⟨mention, nested⟩ := t
  obtain ⟨r, x, hx, howner, hkey, hnested⟩ := ht
  obtain ⟨y, hy, hmention, howner'⟩ := H.reference r x hx
  exact ⟨r, y, hy, howner'.trans howner, hmention ▸ hkey, H.standIn_references nested hnested⟩

theorem Retains.standIn_references (H : Retains g h) {w : Option Owner} (ts : List ReferenceTree)
    (hts : ReferenceTree.StandIn g w ts) : ReferenceTree.StandIn h w ts := by
  cases ts with
  | nil => trivial
  | cons t ts => exact ⟨H.standsIn_reference t hts.1, H.standIn_references ts hts.2⟩

end

mutual

theorem Retains.standsIn (H : Retains g h) (t : DeclarationTree) (ht : t.StandsIn g) :
    t.StandsIn h := by
  obtain ⟨symbol, members, parameters, references⟩ := t
  obtain ⟨d, x, hx, hsymbol, hmembers, hparameters, hreferences⟩ := ht
  obtain ⟨y, hy, hxy⟩ := H.declaration d x hx
  exact ⟨d, y, hy, hxy.trans hsymbol, H.standIn members hmembers, H.standIn parameters hparameters,
    H.standIn_references references hreferences⟩

theorem Retains.standIn (H : Retains g h) (ts : List DeclarationTree)
    (hts : DeclarationTree.StandIn g ts) : DeclarationTree.StandIn h ts := by
  cases ts with
  | nil => trivial
  | cons t ts => exact ⟨H.standsIn t hts.1, H.standIn ts hts.2⟩

end

/-! ### What was merged stands -/

mutual

theorem standsIn_mergeReference {g : Graph} {w : Option Owner} (t : ReferenceTree)
    (hw : ∀ o, w = some o → g.hasOwner o = true) : t.StandsIn (g.mergeReference w t) w := by
  obtain ⟨mention, nested⟩ := t
  set added := g.addReference mention w with hadded
  have hentry : ∃ x, added.1.reference? added.2 = some x ∧ x.owner = w ∧
      x.toMention.key = mention.key := by
    rcases reference?_addReference_snd (m := mention) hw with
      ⟨hsame, x, hx, howner, hkey⟩ | ⟨-, x, hx, howner, hmention⟩
    · exact ⟨x, by rw [hadded, hsame]; exact hx, howner, hkey⟩
    · exact ⟨x, hx, howner, by rw [hmention]⟩
  obtain ⟨x, hx, howner, hkey⟩ := hentry
  have hlive : ∀ o, some (Owner.reference added.2) = some o → added.1.hasOwner o = true := by
    rintro o ⟨⟩
    exact hasReference_of_eq hx
  have hnested := standIn_mergeReferences nested hlive
  obtain ⟨y, hy, hmention, howner'⟩ :=
    (Retains.refl.mergeReferences nested hlive).reference added.2 x hx
  exact ⟨added.2, y, hy, howner'.trans howner, hmention ▸ hkey, hnested⟩

theorem standIn_mergeReferences {g : Graph} {w : Option Owner} (ts : List ReferenceTree)
    (hw : ∀ o, w = some o → g.hasOwner o = true) :
    ReferenceTree.StandIn (g.mergeReferences w ts) w ts := by
  cases ts with
  | nil => trivial
  | cons t ts =>
      -- the first tree goes on standing while the others are merged
      have hfirst : Retains g (g.mergeReference w t) := Retains.refl.mergeReferences [t] hw
      have hw' : ∀ o, w = some o → (g.mergeReference w t).hasOwner o = true :=
        fun o ho => hfirst.hasOwner (hw o ho)
      exact ⟨(Retains.refl.mergeReferences ts hw').standsIn_reference t (standsIn_mergeReference t hw),
        standIn_mergeReferences ts hw'⟩

end

end Graph

mutual

/-- What is listed as a parameter is a parameter. -/
def DeclarationTree.WellListed : DeclarationTree → Prop
  | ⟨_, members, parameters, _⟩ => (∀ t ∈ parameters, t.symbol.kind = .parameter) ∧
      DeclarationTree.AllWellListed members ∧ DeclarationTree.AllWellListed parameters

/-- The same, of the trees of a list. -/
def DeclarationTree.AllWellListed : List DeclarationTree → Prop
  | [] => True
  | t :: ts => t.WellListed ∧ DeclarationTree.AllWellListed ts

end

namespace Graph

variable {g h : Graph} {w : Option Owner} {n : Nesting} {p : Option DeclId} {s : Symbol}

/-- A symbol is included by the declaration that it was placed at, unless it became a parameter
there. -/
theorem includes_placeSymbol (hp : ∀ q, p = some q → g.hasDeclaration q = true)
    (hn : n = .unusedParameter → s.kind = .parameter) :
    ∃ x, (g.placeSymbol s n p).1.declaration? (g.placeSymbol s n p).2 = some x ∧
      x.toSymbol.Includes s := by
  rcases @declaration?_placeSymbol g s n p hp with
    ⟨x, -, hkind, hplace, hjoined⟩ | ⟨-, x, hx, hsymbol, -⟩
  · exact ⟨_, hjoined, includes_joined_right hkind hplace⟩
  · have hkind : newKind s n p = s.kind := by
      unfold newKind
      split
      · rename_i hparameter
        exact (hn hparameter.1).symm
      · rfl
    rw [hkind] at hsymbol
    exact ⟨x, hx, hsymbol ▸ .refl⟩

mutual

theorem standsIn_mergeDeclaration {g : Graph} {n : Nesting} {p : Option DeclId}
    (t : DeclarationTree) (hp : ∀ q, p = some q → g.hasDeclaration q = true)
    (hn : n = .unusedParameter → t.symbol.kind = .parameter) (ht : t.WellListed) :
    t.StandsIn (g.mergeDeclaration n p t) := by
  obtain ⟨symbol, members, parameters, references⟩ := t
  obtain ⟨hlisted, hmembers, hparameters⟩ := ht
  set placed := g.placeSymbol symbol n p
  obtain ⟨x, hx, hsymbol⟩ := includes_placeSymbol (s := symbol) hp hn
  -- what is nested is merged at the declaration just placed, part after part
  set g₁ := placed.1.mergeDeclarations .member (some placed.2) members
  set g₂ := g₁.mergeDeclarations .unusedParameter (some placed.2) parameters
  have hlive : ∀ q, some placed.2 = some q → placed.1.hasDeclaration q = true := by
    rintro q ⟨⟩
    exact hasDeclaration_of_eq hx
  have H₁ : Retains placed.1 g₁ := Retains.refl.mergeDeclarations members hlive
  have hlive₁ : ∀ q, some placed.2 = some q → g₁.hasDeclaration q = true :=
    fun q hq => H₁.hasDeclaration (hlive q hq)
  have H₂ : Retains g₁ g₂ := Retains.refl.mergeDeclarations parameters hlive₁
  have hlive₂ : ∀ o, some (Owner.declaration placed.2) = some o → g₂.hasOwner o = true := by
    rintro o ⟨⟩
    exact H₂.hasDeclaration (hlive₁ _ rfl)
  have H₃ : Retains g₂ (g₂.mergeReferences (some (.declaration placed.2)) references) :=
    Retains.refl.mergeReferences references hlive₂
  obtain ⟨y, hy, hxy⟩ := (H₁.trans (H₂.trans H₃)).declaration placed.2 x hx
  exact ⟨placed.2, y, hy, hxy.trans hsymbol,
    (H₂.trans H₃).standIn members (standIn_mergeDeclarations members hlive (by simp) hmembers),
    H₃.standIn parameters
      (standIn_mergeDeclarations parameters hlive₁ (fun _ => hlisted) hparameters),
    standIn_mergeReferences references hlive₂⟩

theorem standIn_mergeDeclarations {g : Graph} {n : Nesting} {p : Option DeclId}
    (ts : List DeclarationTree) (hp : ∀ q, p = some q → g.hasDeclaration q = true)
    (hn : n = .unusedParameter → ∀ t ∈ ts, t.symbol.kind = .parameter)
    (hts : DeclarationTree.AllWellListed ts) :
    DeclarationTree.StandIn (g.mergeDeclarations n p ts) ts := by
  cases ts with
  | nil => trivial
  | cons t ts =>
      have hfirst : Retains g (g.mergeDeclaration n p t) := Retains.refl.mergeDeclarations [t] hp
      have hp' : ∀ q, p = some q → (g.mergeDeclaration n p t).hasDeclaration q = true :=
        fun q hq => hfirst.hasDeclaration (hp q hq)
      have ht := standsIn_mergeDeclaration t hp (fun he => hn he t (by simp)) hts.1
      exact ⟨(Retains.refl.mergeDeclarations ts hp').standsIn t ht,
        standIn_mergeDeclarations ts hp' (fun he u hu => hn he u (by simp [hu])) hts.2⟩

end

/-! ### What stands is not merged again -/

mutual

theorem mergeReference_eq_self (hg : g.Legible) {w : Option Owner} (t : ReferenceTree)
    (ht : t.StandsIn g w) : g.mergeReference w t = g := by
  obtain ⟨mention, nested⟩ := t
  obtain ⟨r, x, hx, howner, hkey, hnested⟩ := ht
  have hadded : g.addReference mention w = (g, r) :=
    howner ▸ hg.distinctKeys.addReference_again hg.toOwned hx hkey
  rw [mergeReference, hadded]
  exact mergeReferences_eq_self hg nested hnested

theorem mergeReferences_eq_self (hg : g.Legible) {w : Option Owner} (ts : List ReferenceTree)
    (hts : ReferenceTree.StandIn g w ts) : g.mergeReferences w ts = g := by
  cases ts with
  | nil => rfl
  | cons t ts =>
      rw [mergeReferences, mergeReference_eq_self hg t hts.1]
      exact mergeReferences_eq_self hg ts hts.2

end

mutual

theorem mergeDeclaration_eq_self (hg : g.Legible) {n : Nesting} {p : Option DeclId}
    (t : DeclarationTree) (hs : ∀ s ∈ t.symbols, s.usrs.toList ≠ []) (ht : t.StandsIn g) :
    g.mergeDeclaration n p t = g := by
  obtain ⟨symbol, members, parameters, references⟩ := t
  obtain ⟨d, x, hx, hsymbol, hmembers, hparameters, hreferences⟩ := ht
  simp only [DeclarationTree.symbols, List.mem_cons, List.mem_append] at hs
  have hplaced : g.placeSymbol symbol n p = (g, d) :=
    hg.placeSymbol_eq_self hx hsymbol (hs symbol (.inl rfl))
  rw [mergeDeclaration, hplaced]
  dsimp only
  rw [mergeDeclarations_eq_self hg members (fun s h => hs s (.inr (.inl h))) hmembers,
    mergeDeclarations_eq_self hg parameters (fun s h => hs s (.inr (.inr h))) hparameters,
    mergeReferences_eq_self hg references hreferences]

/-- **Merging what stands changes nothing.** -/
theorem mergeDeclarations_eq_self (hg : g.Legible) {n : Nesting} {p : Option DeclId}
    (ts : List DeclarationTree) (hs : ∀ s ∈ DeclarationTree.symbolsOf ts, s.usrs.toList ≠ [])
    (hts : DeclarationTree.StandIn g ts) : g.mergeDeclarations n p ts = g := by
  cases ts with
  | nil => rfl
  | cons t ts =>
      simp only [DeclarationTree.symbolsOf, List.mem_append] at hs
      rw [mergeDeclarations, mergeDeclaration_eq_self hg t (fun s h => hs s (.inl h)) hts.1]
      exact mergeDeclarations_eq_self hg ts (fun s h => hs s (.inr h)) hts.2

end

end Graph

end Deadwood
