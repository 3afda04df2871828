/-
  The trees of twins: nesting, inheritance, extension and conformance.

  Searches over declarations list their successors by key, so they visit corresponding declarations
  in the same order.  Searches that list successors by number visit corresponding sets.
-/
import Deadwood.Proofs.Renaming.Query

namespace Deadwood

namespace Graph

variable {δ : DeclId ≃ DeclId} {ρ : RefId ≃ RefId} {g h : Graph} {c d e : DeclId} {r q s : RefId}

theorem bind_guard {α : Type} {p : Prop} [Decidable p] {f : Unit → Option α} :
    (guard p : Option Unit).bind f = if p then f () else none := by
  by_cases hp : p <;> simp [guard, hp]

/-- Answers collected from corresponding references. -/
theorem mem_filterMap_rename (ρ : RefId ≃ RefId) {xs ys : List RefId} {F F' : RefId → Option DeclId}
    (hm : ∀ r, ρ r ∈ ys ↔ r ∈ xs) (hF : ∀ r, F' (ρ r) = (F r).map δ) :
    δ d ∈ ys.filterMap F' ↔ d ∈ xs.filterMap F := by
  simp only [List.mem_filterMap]
  constructor
  · rintro ⟨r, hr, he⟩
    obtain ⟨r, rfl⟩ := ρ.surjective r
    rw [hF, Option.map_eq_some_iff] at he
    obtain ⟨c, hc, he⟩ := he
    exact ⟨r, (hm r).1 hr, by rw [hc, δ.injective he]⟩
  · rintro ⟨r, hr, he⟩
    exact ⟨ρ r, (hm r).2 hr, by rw [hF, he]; rfl⟩

/-- References of one declaration are told apart by their keys. -/
theorem Owned.eq_of_key_of_held (hg : g.Owned) {x y : Reference} {b b' : Bool}
    (hr : r ∈ g.heldBy d b) (hs : s ∈ g.heldBy d b') (hx : g.reference? r = some x)
    (hy : g.reference? s = some y) (hk : x.toMention.key = y.toMention.key) : r = s := by
  obtain ⟨x', hx', ho, -⟩ := (hg.held_iff d b r).1 hr
  obtain ⟨y', hy', ho', -⟩ := (hg.held_iff d b' s).1 hs
  rw [hx] at hx'
  rw [hy] at hy'
  cases hx'
  cases hy'
  exact hg.distinct r s x y hx hy (by rw [ho, ho']) (by rw [ho]; simp) hk

theorem find?_map {p p' : RefId → Bool} (hp : ∀ r, p' (ρ r) = p r) {xs : List RefId} :
    (xs.map ρ).find? p' = (xs.find? p).map ρ := by
  rw [List.find?_map]
  exact congrArg (Option.map ρ) (congrArg (List.find? · xs) (funext hp))

/-- The reference that names the extended type is one of the extension's own, to that kind. -/
theorem mem_of_extendedTypeReference (h : g.extendedTypeReference d = .ok (some r)) :
    ∃ x kind, g.declaration? d = some x ∧ x.kind.extended = .ok kind ∧
      r ∈ g.sortedReferences (g.referencesAmong x.ownReferences (·.kind == kind)) := by
  unfold extendedTypeReference at h
  split at h
  · cases h
  · rename_i x hx
    cases hk : x.kind.extended with
    | error f => rw [hk] at h; cases h
    | ok kind =>
        refine ⟨x, kind, hx, hk, ?_⟩
        rw [hk] at h
        have h : (Option.or (Option.or _ _) _) = some r := Except.ok.inj h
        rcases Option.or_eq_some_iff.1 h with h | ⟨-, h⟩
        · rcases Option.or_eq_some_iff.1 h with h | ⟨-, h⟩
          · exact List.mem_of_find?_eq_some h
          · exact List.mem_of_find?_eq_some h
        · exact List.mem_of_head? h

theorem live_of_extendedTypeReference (h : g.extendedTypeReference d = .ok (some r)) :
    g.hasReference r = true := by
  obtain ⟨_, _, -, -, hr⟩ := mem_of_extendedTypeReference h
  exact (mem_sortedReferences.1 hr).2

/-- What an extension extends is written under the identifier that its chosen reference names. -/
theorem exists_of_extendedDeclaration {t : DeclId} (ht : g.extendedDeclaration d = .ok (some t)) :
    ∃ r y, g.extendedTypeReference d = .ok (some r) ∧ g.reference? r = some y ∧
      g.explicitDeclarationWithUsr? y.usr = some t := by
  unfold extendedDeclaration at ht
  cases hq : g.extendedTypeReference d with
  | error fault => rw [hq] at ht; cases ht
  | ok q =>
      rw [hq] at ht
      cases q with
      | none => cases ht
      | some r =>
          obtain ⟨y, hy⟩ := hasReference_iff.1 (live_of_extendedTypeReference hq)
          simp only [bind, Except.bind, hy] at ht
          exact ⟨r, y, rfl, hy, Except.ok.inj ht⟩

theorem extendedDeclaration_of_dead (hd : g.hasDeclaration d ≠ true) :
    g.extendedDeclaration d = .error (.missingDeclaration d) := by
  have hnone : g.declaration? d = none := Option.not_isSome_iff_eq_none.1 hd
  unfold extendedDeclaration extendedTypeReference
  rw [hnone]
  rfl

namespace Twin

variable (T : Twin δ ρ g h)
include T

/-! ## The tree of declarations -/

/-- A search whose successors are listed in the same order visits in the same order. -/
theorem explore_eq {strategy : Strategy} {next next' : DeclId → List DeclId}
    (hnext : ∀ a, next' (δ a) = (next a).map δ) :
    explore strategy next' h.declIds [δ d] = (explore strategy next g.declIds [d]).map δ := by
  rw [← List.map_singleton]
  exact explore_map δ.injective hnext nodup_declIds nodup_declIds fun a => T.mem_declIds

theorem encloses_iff : h.Encloses (δ d) (δ c) ↔ g.Encloses d c := by
  rw [← mem_subtree, ← mem_subtree]
  refine mem_explore_map_iff δ (fun a b => T.mem_childrenOf) (fun a => T.mem_declIds) fun a => ?_
  simp

theorem descendants : h.descendants (δ d) = (g.descendants d).map δ := by
  have hmem : ∀ {k : Graph} {a b : DeclId}, b ∈ (k.subtree a).tail ↔ k.Encloses a b ∧ b ≠ a := by
    intro k a b
    rw [subtree, mem_tail_explore nodup_declIds, ← subtree, mem_subtree]
  refine T.sortedDeclarations fun c _ => ?_
  rw [hmem, hmem, T.encloses_iff, δ.injective.ne_iff]

theorem lineage : h.lineage (δ d) = (g.lineage d).map δ := by
  refine T.explore_eq fun a => ?_
  rw [T.parentOf?]
  cases g.parentOf? a <;> rfl

theorem ancestors : h.ancestors (δ d) = (g.ancestors d).map δ := by
  rw [Graph.ancestors, Graph.ancestors, T.lineage, List.map_tail]

theorem topLevelAncestor : h.topLevelAncestor (δ d) = δ (g.topLevelAncestor d) := by
  rw [Graph.topLevelAncestor, Graph.topLevelAncestor, T.ancestors, List.getLast?_map]
  cases (g.ancestors d).getLast? <;> rfl

theorem parentDeclaration? :
    h.parentDeclaration? (δ d) = (g.parentDeclaration? d).map (·.rename δ ρ) := by
  unfold Graph.parentDeclaration?
  rw [T.parentOf?]
  cases g.parentOf? d with
  | none => rfl
  | some p => exact T.declaration p

theorem any_parentDeclaration {p : Declaration → Bool} {p' : Declaration → Bool}
    (hp : ∀ x : Declaration, p' (x.rename δ ρ) = p x) :
    (h.parentDeclaration? (δ d)).any p' = (g.parentDeclaration? d).any p := by
  rw [T.parentDeclaration?]
  cases g.parentDeclaration? d with
  | none => rfl
  | some x => exact hp x

theorem isProtocolMember : h.isProtocolMember (δ d) = g.isProtocolMember d :=
  T.any_parentDeclaration fun _ => rfl

/-! ## Inheritance -/

theorem sortedReferences_held {p p' : Reference → Bool} {x : Declaration}
    (hx : g.declaration? d = some x)
    (hp : ∀ y : Reference, p' (y.rename δ ρ) = p y) {xs ys : List RefId}
    (hm : ∀ r, ρ r ∈ ys ↔ r ∈ xs) (hxs : ∀ r ∈ xs, r ∈ x.ownReferences) :
    h.sortedReferences (h.referencesAmong ys p') =
      (g.sortedReferences (g.referencesAmong xs p)).map ρ := by
  have hheld : ∀ r ∈ g.referencesAmong xs p, ∃ b, r ∈ g.heldBy d b := by
    intro r hr
    obtain ⟨b, hb⟩ := Declaration.mem_ownReferences.1 (hxs r (List.mem_filter.1 hr).1)
    exact ⟨b, mem_heldBy_iff.2 ⟨x, hx, hb⟩⟩
  refine T.sortedReferences (fun r _ => ?_) fun r hr s hs x y hx hy hk => ?_
  · rw [referencesAmong, referencesAmong, List.mem_filter, List.mem_filter, hm,
      T.any_reference fun y _ => hp y]
  · obtain ⟨b, hb⟩ := hheld r hr
    obtain ⟨b', hb'⟩ := hheld s hs
    exact T.left.toOwned.eq_of_key_of_held hb hb' hx hy hk

theorem inheritedTypeReferences :
    h.inheritedTypeReferences (δ d) = (g.inheritedTypeReferences d).map ρ := by
  unfold Graph.inheritedTypeReferences
  rw [T.declaration]
  cases hx : g.declaration? d with
  | none => rfl
  | some x =>
      refine T.sortedReferences_held hx (fun _ => rfl) (fun r => ?_) fun r hr => ?_
      · simp [Declaration.rename, SortedSet.mem_image_iff ρ.injective]
      · simpa [Declaration.ownReferences, or_comm] using hr

theorem immediateSuperclasses :
    h.immediateSuperclasses (δ d) = (g.immediateSuperclasses d).map δ := by
  refine T.sortedDeclarations fun c _ => mem_filterMap_rename ρ (fun r => ?_) fun r => ?_
  · rw [T.inheritedTypeReferences, List.mem_map_of_injective ρ.injective]
  · rw [T.reference]
    cases g.reference? r with
    | none => rfl
    | some x =>
        simp only [Option.map_some, Option.bind_eq_bind, Option.bind_some,
          Reference.toMention_rename, T.explicitDeclarationWithUsr?, bind_guard]
        by_cases hk : (x.kind == Kind.classType) = true
        · simp only [hk, if_true]
          cases g.explicitDeclarationWithUsr? x.usr with
          | none => rfl
          | some t => by_cases ht : t = d <;> simp [ht]
        · simp only [hk, if_false, Bool.false_eq_true, Option.map_none]

theorem superclasses : h.superclasses (δ d) = (g.superclasses d).map δ := by
  unfold Graph.superclasses
  rw [List.map_tail]
  exact congrArg List.tail (T.explore_eq fun a => T.immediateSuperclasses)

theorem inheritsFromNamed {name : String} :
    h.inheritsFromNamed (δ d) name = g.inheritsFromNamed d name := by
  unfold Graph.inheritsFromNamed
  rw [T.superclasses, ← List.map_cons, List.any_map]
  refine congrArg (List.any _) (funext fun c => ?_)
  rw [Function.comp_apply, T.inheritedTypeReferences, List.any_map]
  refine congrArg (List.any _) (funext fun r => ?_)
  rw [Function.comp_apply, T.any_reference fun _ _ => rfl]
  rfl

/-! ## Extensions -/

theorem extendedTypeReference (hd : g.hasDeclaration d = true) :
    h.extendedTypeReference (δ d) = (g.extendedTypeReference d).map (Option.map ρ) := by
  unfold Graph.extendedTypeReference
  obtain ⟨x, hx⟩ := hasDeclaration_iff.1 hd
  simp only [T.declaration, hx, Option.map_some, Declaration.toSymbol_rename]
  cases x.kind.extended with
  | error f => rfl
  | ok kind =>
      have hown : h.sortedReferences (h.referencesAmong (x.rename δ ρ).ownReferences
          (·.kind == kind)) =
          (g.sortedReferences (g.referencesAmong x.ownReferences (·.kind == kind))).map ρ := by
        refine T.sortedReferences_held hx (fun _ => rfl) (fun r => ?_) fun r hr => hr
        simp only [Declaration.mem_ownReferences, Declaration.mem_held_rename]
      simp only [bind, Except.bind, pure, Except.pure, Except.map, hown, Except.ok.injEq]
      rw [find?_map (fun r => T.any_reference fun _ _ => rfl),
        find?_map (fun r => T.any_reference fun _ _ => rfl), List.head?_map]
      simp only [Reference.toMention_rename, Option.map_or]

theorem extendedDeclaration (hd : g.hasDeclaration d = true) :
    h.extendedDeclaration (δ d) = (g.extendedDeclaration d).map (Option.map δ) := by
  unfold Graph.extendedDeclaration
  rw [T.extendedTypeReference hd]
  rcases he : g.extendedTypeReference d with f | o
  · rfl
  · rcases o with _ | r
    · rfl
    · have hlive : g.hasReference r = true := live_of_extendedTypeReference he
      obtain ⟨x, hx⟩ := hasReference_iff.1 hlive
      simp only [bind, Except.bind, Except.map, Option.map_some, T.reference, hx,
        Reference.toMention_rename, T.explicitDeclarationWithUsr?, pure, Except.pure]

theorem isExtensionOf : h.isExtensionOf (δ e) (δ d) = g.isExtensionOf e d := by
  unfold Graph.isExtensionOf
  by_cases he : g.hasDeclaration e = true
  · rw [T.extendedDeclaration he]
    rcases g.extendedDeclaration e with f | (_ | t)
    · rfl
    · rfl
    · show (δ t == δ d) = (t == d)
      rw [Bool.eq_iff_iff, beq_iff_eq, beq_iff_eq, δ.injective.eq_iff]
  · have he' : h.hasDeclaration (δ e) ≠ true := by rwa [T.hasDeclaration]
    rw [extendedDeclaration_of_dead he, extendedDeclaration_of_dead he']

theorem protocolExtensions : h.protocolExtensions (δ d) = (g.protocolExtensions d).map δ := by
  refine T.sortedDeclarations fun e _ => ?_
  rw [List.mem_filter, List.mem_filter, T.declarationsOfKind,
    List.mem_map_of_injective δ.injective, T.isExtensionOf]

/-! ## Conformance -/

theorem conformingDeclarations :
    h.conformingDeclarations (δ d) = (g.conformingDeclarations d).map δ := by
  refine T.sortedDeclarations fun c _ => mem_filterMap_rename ρ (fun r => T.mem_referencesTo)
    fun r => ?_
  rw [T.reference]
  cases g.reference? r with
  | none => rfl
  | some x =>
      simp only [Option.map_some, Option.bind_eq_bind, Option.bind_some,
        Reference.toMention_rename, T.referencingDeclaration?, bind_guard]
      by_cases hk : x.isStructural = true
      · simp only [hk, if_true]
        cases g.referencingDeclaration? r with
        | none => rfl
        | some c =>
            simp only [Option.map_some, Option.bind_some, T.declaration]
            cases g.declaration? c with
            | none => rfl
            | some y => by_cases hc : c = d <;> by_cases hy : canConform y.kind <;> simp [hc, hy]
      · simp only [hk, if_false, Bool.false_eq_true, Option.map_none]

theorem witness? {name : String} {kind : Kind} :
    h.witness? (δ d) name kind = (g.witness? d name kind).map δ := by
  unfold Graph.witness?
  rw [T.membersWhere fun d x _ => rfl, List.head?_map]
  rfl

/-! ## Files -/

theorem file? {path : Path} : h.file? path = g.file? path := by
  rw [Graph.file?, Graph.file?, T.files]

theorem modulesOf {path : Path} : h.modulesOf path = g.modulesOf path := by
  rw [Graph.modulesOf, Graph.modulesOf, T.file?]

end Twin

end Graph

end Deadwood
