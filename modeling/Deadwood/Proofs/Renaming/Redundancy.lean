/-
  Redundant protocols and redundant accessibility do not depend on numbers.

  1. **Protocols** — what shows that a protocol is redundant is a set of references, renamed with
     them; judging a protocol reads the graph as it was before the first one was recorded.

  2. **Accessibility** — the uses of a declaration are taken as a set, and every question about
     them has the same answer.  Extensions read what was recorded for other declarations, which
     corresponds.
-/
import Deadwood.Pass.RedundantAccess
import Deadwood.Pass.RedundantProtocols
import Deadwood.Proofs.Renaming.Synthesis
import Deadwood.Proofs.Renaming.Usage

namespace Deadwood

open Deadwood.Graph

variable {δ : DeclId ≃ DeclId} {ρ : RefId ≃ RefId} {g h : Graph} {d e p : DeclId} {r : RefId}

theorem SortedSet.ofList_eq_image {xs ys : List RefId} (H : Mapped ρ xs ys) :
    SortedSet.ofList ys = (SortedSet.ofList xs).image ρ :=
  (SortedSet.eq_image_iff ρ).2 fun r => by
    rw [SortedSet.mem_ofList, SortedSet.mem_ofList, H]

/-! ## Protocols -/

namespace RedundantProtocols

section

variable (T : Twin δ ρ g h)
include T

theorem extensionMembers_eq : extensionMembers h (δ p) = (extensionMembers g p).map δ := by
  unfold extensionMembers
  rw [T.protocolExtensions, List.flatMap_map, List.map_flatMap]
  exact congrArg (List.flatMap · _) (funext fun e => T.descendants)

theorem isOwnReference_eq : isOwnReference h (δ p) (ρ r) = isOwnReference g p r := by
  have hcontains : ∀ c, (h.protocolExtensions (δ p)).contains (δ c) =
      (g.protocolExtensions p).contains c := fun c =>
    (Mapped.of_eq_map T.protocolExtensions).contains
  unfold isOwnReference
  simp only [T.referencingDeclaration?, T.any_reference fun _ _ => rfl, Reference.toMention_rename]
  cases g.referencingDeclaration? r with
  | none => rfl
  | some c =>
      have hc : (some (δ c) == some (δ p)) = (some c == some p) := by
        rw [Bool.eq_iff_iff, beq_iff_eq, beq_iff_eq, Option.some_inj, Option.some_inj,
          δ.injective.eq_iff]
      simp only [Option.map_some, Option.any_some, hcontains, hc]

theorem conformances?_eq : conformances? h (δ p) = (conformances? g p).map (·.image ρ) := by
  have hforeign : Mapped ρ ((g.referencesTo p).filter fun r => !isOwnReference g p r)
      ((h.referencesTo (δ p)).filter fun r => !isOwnReference h (δ p) r) :=
    T.mapped_referencesTo.filter fun r _ => by rw [isOwnReference_eq T]
  have hall : (((h.referencesTo (δ p)).filter fun r => !isOwnReference h (δ p) r).all fun r =>
      (h.reference? r).any (·.isStructural)) =
      ((g.referencesTo p).filter fun r => !isOwnReference g p r).all fun r =>
        (g.reference? r).any (·.isStructural) :=
    hforeign.all fun r _ => T.any_reference fun _ _ => rfl
  unfold conformances?
  simp only [hall]
  split
  · rw [SortedSet.ofList_eq_image hforeign]
    rfl
  · rfl

theorem inheritedProtocols_eq : inheritedProtocols h (δ p) = (inheritedProtocols g p).map ρ := by
  unfold inheritedProtocols
  rw [T.inheritedTypeReferences, List.filter_map]
  refine congrArg (List.map ρ) (List.filter_congr fun r _ => ?_)
  exact T.any_reference fun _ _ => rfl

theorem isForeign_eq : isForeign h (ρ r) = isForeign g r :=
  T.any_reference fun _ _ => T.mapped_declarationsWithUsr.isEmpty

/-- **The same protocols are redundant, for the same reasons.** -/
theorem evaluate_eq : evaluate h (δ p) = (evaluate g p).map (·.rename ρ) := by
  have hused : ∀ d, h.isUsed (δ d) = g.isUsed d := fun _ => T.isMarked
  have hretained : h.isRetained (δ p) = g.isRetained p := T.isMarked
  have hinherited : (inheritedProtocols h (δ p)).any (isForeign h) =
      (inheritedProtocols g p).any (isForeign g) :=
    (Mapped.of_eq_map (inheritedProtocols_eq T)).any fun _ _ => isForeign_eq T
  have hextended : (extensionMembers h (δ p)).any h.isUsed =
      (extensionMembers g p).any g.isUsed :=
    (Mapped.of_eq_map (extensionMembers_eq T)).any fun c _ => hused c
  unfold evaluate
  rw [T.declaration]
  cases g.declaration? p with
  | none => rfl
  | some x =>
      have hmembers : (x.rename δ ρ).members.toList.any h.isUsed = x.members.toList.any g.isUsed :=
        Mapped.any (e := δ) (fun _ => Declaration.mem_members_rename) fun c _ => hused c
      simp only [Option.map_some, Option.bind_eq_bind, Option.bind_some, bind_guard, hused,
        hretained, hinherited, hextended, hmembers, conformances?_eq T]
      have hset : SortedSet.ofList (inheritedProtocols h (δ p)) =
          (SortedSet.ofList (inheritedProtocols g p)).image ρ :=
        SortedSet.ofList_eq_image (.of_eq_map (inheritedProtocols_eq T))
      split
      · split
        · split
          · split
            · cases conformances? g p with
              | none => rfl
              | some s => simp [hset, RedundantProtocol.rename]
            · rfl
          · rfl
        · rfl
      · rfl

theorem mapped_idleImplementations :
    Mapped δ (idleImplementations g p) (idleImplementations h (δ p)) := by
  have hused : ∀ d, h.isUsed (δ d) = g.isUsed d := fun _ => T.isMarked
  have hmembers : Mapped δ (((g.declaration? p).map (·.members.toList)).getD [])
      (((h.declaration? (δ p)).map (·.members.toList)).getD []) := by
    rw [T.declaration]
    cases g.declaration? p with
    | none => exact .nil
    | some x => exact fun _ => Declaration.mem_members_rename
  refine Mapped.filter (Mapped.flatMap (e := Equiv.refl String) (Mapped.filterMap (e := ρ)
    (hmembers.flatMap fun m _ => ?_) fun r _ => ?_) fun usr _ => T.mapped_declarationsWithUsr)
    fun c _ => by rw [hused]
  · exact fun _ => T.mem_heldBy (b := true)
  · rw [T.reference]
    cases g.reference? r <;> rfl

theorem mapped_suppressed : Mapped δ (suppressed g p) (suppressed h (δ p)) :=
  ((Mapped.of_eq_map T.descendants).append (.of_eq_map (extensionMembers_eq T))).append
    (mapped_idleImplementations T)

end

/-- What shows that a protocol is redundant is in the graph. -/
theorem live_of_evaluate {result : RedundantProtocol} (he : evaluate g p = some result)
    (hr : r ∈ result.references.toList ∨ r ∈ result.inherited.toList) : g.hasReference r = true := by
  simp only [evaluate, Option.bind_eq_bind, Option.bind_eq_some_iff, bind_guard,
    Option.ite_none_right_eq_some, Option.pure_def, Option.some.injEq] at he
  obtain ⟨x, hx, -, -, -, -, references, hrefs, rfl⟩ := he
  rcases hr with hr | hr
  · simp only [conformances?] at hrefs
    split at hrefs
    · cases hrefs
      have hto := (List.mem_filter.1 (SortedSet.mem_ofList.1 hr)).1
      unfold referencesTo at hto
      split at hto
      · exact (mem_sortedReferences.1 hto).2
      · cases hto
    · cases hrefs
  · have hclause := (List.mem_filter.1 (SortedSet.mem_ofList.1 hr)).1
    unfold inheritedTypeReferences at hclause
    split at hclause
    · exact (mem_sortedReferences.1 hclause).2
    · cases hclause

/-- Recording what was found in `g` and `h`, later on. -/
structure Noting (δ : DeclId ≃ DeclId) (ρ : RefId ≃ RefId) (g h g' h' : Graph) : Prop where
  twin : Twin δ ρ g' h'
  left : g'.references = g.references
  right : h'.references = h.references

/-- The same redundant protocols are recorded. -/
theorem tracks_markRedundant (T : Twin δ ρ g h) :
    Tracks δ ρ g h (markRedundant g) (markRedundant h) := by
  have hall : Noting δ ρ g h (markRedundant g) (markRedundant h) := by
    unfold markRedundant found
    rw [T.declarationsOfKind, List.filterMap_map, List.foldl_filterMap, List.foldl_filterMap]
    refine List.foldl_rel ⟨T, rfl, rfl⟩ fun p _ g' h' H => ?_
    rw [Function.comp_apply, evaluate_eq T]
    cases he : evaluate g p with
    | none => exact H
    | some result =>
        have hlive : ∀ r, r ∈ result.references.toList ∨ r ∈ result.inherited.toList →
            g'.hasReference r = true := fun r hr => by
          rw [hasReference, reference?, H.left]
          exact live_of_evaluate he hr
        have hkept : ∀ {k : Graph} {ids : List DeclId},
            (k.markAll .ignored ids).references = k.references := fun {k ids} => by
          rw [markAll_eq]
        exact ⟨(H.twin.recordRedundantProtocol hlive).markAll fun c _ => mapped_suppressed T c,
          hkept.trans H.left, hkept.trans H.right⟩
  refine .of_twin (Nat.le_of_eq ?_) (Nat.le_of_eq ?_) hall.twin
  · rw [hall.left]
  · rw [hall.right]

end RedundantProtocols

/-! ## Accessibility -/

namespace RedundantAccess

section

variable (T : Twin δ ρ g h)
include T

theorem candidates_eq {tier : Tier} : candidates h tier = (candidates g tier).map δ := by
  refine T.sortedDeclarations fun d _ => ?_
  have hused : h.isUsed (δ d) = g.isUsed d := T.isMarked
  have hretained : h.isRetained (δ d) = g.isRetained d := T.isMarked
  have hignored : h.isIgnored (δ d) = g.isIgnored d := T.isMarked
  rw [List.mem_filter, List.mem_filter, hused, hretained, hignored]
  exact and_congr_left fun _ => T.mem_declIdsWhere fun _ _ _ => rfl

theorem isExtension_eq : isExtension h (δ d) = isExtension g d := T.any_declaration fun _ _ => rfl

theorem mapped_usesOf : Mapped ρ (usesOf g d) (usesOf h (δ d)) := by
  have hdefaults : Mapped δ ((g.protocolExtensions d).flatMap g.descendants)
      ((h.protocolExtensions (δ d)).flatMap h.descendants) :=
    (Mapped.of_eq_map T.protocolExtensions).flatMap fun _ _ => .of_eq_map T.descendants
  have hinner : Mapped δ (d :: g.descendants d) (δ d :: h.descendants (δ d)) :=
    (Mapped.of_eq_map T.descendants).cons
  have hall := hinner.append hdefaults
  intro r
  rw [usesOf, usesOf, mem_sortedReferences, mem_sortedReferences, T.hasReference,
    hall.flatMap (fun _ _ => T.mapped_referencesTo) r]

theorem isWrapperMember_eq : isWrapperMember h (δ d) = isWrapperMember g d := by
  unfold isWrapperMember
  rw [T.any_parentDeclaration fun _ => rfl, T.any_declaration fun _ _ => rfl]
  rfl

theorem satisfiesRequirement_eq {tier : Tier} :
    satisfiesRequirement h (δ d) tier = satisfiesRequirement g d tier := by
  refine T.mapped_referencesTo.any fun r _ => ?_
  have hrelated : (h.reference? (ρ r)).any (·.isRelated) = (g.reference? r).any (·.isRelated) :=
    T.any_reference fun _ _ => rfl
  rw [hrelated, T.referencingDeclaration?]
  cases g.referencingDeclaration? r with
  | none => rfl
  | some c =>
      have hparent : (h.parentDeclaration? (δ c)).any (fun x => tier.rank ≤ x.access.tier.rank) =
          (g.parentDeclaration? c).any fun x => tier.rank ≤ x.access.tier.rank :=
        T.any_parentDeclaration fun _ => rfl
      simp only [Option.map_some, Option.any_some, T.isProtocolMember, hparent, ne_eq,
        δ.injective.eq_iff]

theorem isBound_eq {tier : Tier} : isBound h (δ d) tier = isBound g d tier := by
  rw [isBound, isBound, isWrapperMember_eq T, satisfiesRequirement_eq T]

/-! ## Scopes -/

theorem areWithinTopLevel_eq {xs ys : List RefId} (H : Mapped ρ xs ys) :
    areWithinTopLevel h (δ d) ys = areWithinTopLevel g d xs := by
  refine H.all fun r _ => ?_
  rw [T.referencingDeclaration?]
  cases g.referencingDeclaration? r with
  | none => rfl
  | some c =>
      simp only [Option.map_some, Option.any_some, T.topLevelAncestor]
      rw [Bool.eq_iff_iff, beq_iff_eq, beq_iff_eq, δ.injective.eq_iff]

theorem sameFile_eq : sameFile h (δ d) (δ e) = sameFile g d e := by
  unfold sameFile
  rw [T.declaration, T.declaration]
  cases g.declaration? d <;> cases g.declaration? e <;> rfl

theorem sameModules_eq : sameModules h (δ d) (δ e) = sameModules g d e := by
  unfold sameModules
  rw [T.declaration, T.declaration]
  cases g.declaration? d with
  | none => rfl
  | some x => cases g.declaration? e with
      | none => rfl
      | some y => simp only [Option.map_some, Declaration.toSymbol_rename, T.modulesOf]

/-! ## Judgement -/

theorem isCrossModule_eq : isCrossModule h (δ d) (ρ r) = isCrossModule g d r := by
  unfold isCrossModule
  rw [T.declaration, T.reference]
  cases g.declaration? d with
  | none => rfl
  | some x => cases g.reference? r with
      | none => rfl
      | some y =>
          simp only [Option.map_some, Declaration.toSymbol_rename, Reference.toMention_rename,
            T.modulesOf, T.file?]

theorem isUsedCrossModule_eq : isUsedCrossModule h (δ d) = isUsedCrossModule g d :=
  (mapped_usesOf T).any fun _ _ => isCrossModule_eq T

theorem hasInlinableCaller_eq : hasInlinableCaller h (δ d) = hasInlinableCaller g d := by
  refine T.mapped_referencesTo.any fun r _ => ?_
  rw [T.referencingDeclaration?]
  cases g.referencingDeclaration? r with
  | none => rfl
  | some c =>
      have houter : Mapped δ (c :: g.ancestors c) (δ c :: h.ancestors (δ c)) :=
        (Mapped.of_eq_map T.ancestors).cons
      rw [Option.map_some, Option.any_some, Option.any_some]
      exact houter.any fun a _ => T.any_declaration fun _ _ => rfl

theorem isInExposedSignature_eq : isInExposedSignature h (δ d) = isInExposedSignature g d := by
  refine T.mapped_referencesTo.any fun r _ => ?_
  have hsignature : (h.reference? (ρ r)).any (·.role.isSignature) =
      (g.reference? r).any (·.role.isSignature) := T.any_reference fun _ _ => rfl
  rw [hsignature, T.referencingDeclaration?]
  cases g.referencingDeclaration? r with
  | none => rfl
  | some c =>
      have hexposed : (h.declaration? (δ c)).any (·.access.tier.isExposed) =
          (g.declaration? c).any (·.access.tier.isExposed) := T.any_declaration fun _ _ => rfl
      have hretained : h.isRetained (δ c) = g.isRetained c := T.isMarked
      simp only [Option.map_some, Option.any_some, hexposed, hretained, isUsedCrossModule_eq T,
        ne_eq, δ.injective.eq_iff]

theorem suggestForPublic_eq : suggestForPublic h (δ d) = suggestForPublic g d := by
  simp only [suggestForPublic, isUsedCrossModule_eq T, hasInlinableCaller_eq T, isBound_eq T,
    isInExposedSignature_eq T]

theorem suggestForInternal_eq : suggestForInternal h (δ d) = suggestForInternal g d := by
  unfold suggestForInternal
  rw [T.declaration]
  cases g.declaration? d with
  | none => rfl
  | some x =>
      have hlocal : ((usesOf h (δ d)).all fun r =>
          (h.reference? r).any fun y => y.location.file.same x.location.file) =
          (usesOf g d).all fun r =>
            (g.reference? r).any fun y => y.location.file.same x.location.file :=
        (mapped_usesOf T).all fun _ _ => T.any_reference fun _ _ => rfl
      simp only [Option.map_some, Option.bind_eq_bind, Option.bind_some, isBound_eq T,
        Declaration.toSymbol_rename, hlocal, areWithinTopLevel_eq T (mapped_usesOf T)]

theorem suggestForFileprivate_eq : suggestForFileprivate h (δ d) = suggestForFileprivate g d := by
  simp only [suggestForFileprivate, isBound_eq T, areWithinTopLevel_eq T (mapped_usesOf T)]

/-! ## Recording -/

theorem tracks_record {declared suggested : Tier} :
    Tracks δ ρ g h (record g declared d suggested) (record h declared (δ d) suggested) := by
  unfold record
  rw [T.declaration]
  cases g.declaration? d with
  | none => exact .refl T
  | some x =>
      simp only [Option.map_some, Declaration.toSymbol_rename, T.modulesOf]
      exact .of_twin (Nat.le_refl _) (Nat.le_refl _) T.recordRedundantAccess

end

theorem declaration?_foldl_record {declared : Tier} {found : List (DeclId × Tier)} :
    (found.foldl (fun g f => record g declared f.1 f.2) g).declaration? d = g.declaration? d := by
  induction found generalizing g with
  | nil => rfl
  | cons f found ih =>
      rw [List.foldl_cons, ih]
      unfold record
      split <;> rfl

/-- Recording what was found for corresponding declarations. -/
theorem tracks_foldl_record (T : Twin δ ρ g h) (declared : Tier) (found : List (DeclId × Tier)) :
    Tracks δ ρ g h (found.foldl (fun g f => record g declared f.1 f.2) g)
      ((found.map (Prod.map δ id)).foldl (fun g f => record g declared f.1 f.2) h) :=
  T.foldl_map found fun _ _ _ _ T' _ _ => tracks_record T'

/-- An extension takes over the same tier. -/
theorem inherited_eq (T : Twin δ ρ g h) {declared : Tier}
    {sameScope : Graph → DeclId → DeclId → Bool}
    (hscope : ∀ d e, sameScope h (δ d) (δ e) = sameScope g d e) (he : g.hasDeclaration e = true) :
    inherited h declared sameScope (δ e) =
      (inherited g declared sameScope e).map (Option.map (Prod.map δ id)) := by
  unfold inherited
  rw [T.extendedDeclaration he]
  rcases g.extendedDeclaration e with fault | (_ | target)
  · rfl
  · rfl
  · have hfind : h.redundantAccess.find? (δ target) = g.redundantAccess.find? target :=
      T.notes.redundantAccess target
    simp only [bind, Except.bind, Except.map, Option.map_some, Option.bind_some, pure, Except.pure,
      hfind]
    cases g.redundantAccess.find? target with
    | none => rfl
    | some result =>
        simp only [Option.bind_some, hscope, bind_guard]
        by_cases hs : (result.declared == declared && sameScope g e target) = true <;> simp [hs]

theorem mapM_eq {α β γ ε : Type} {f : α → γ} {F : β → ε} {φ : α → Except Fault β}
    {ψ : γ → Except Fault ε} {xs : List α} (h : ∀ a ∈ xs, ψ (f a) = (φ a).map F) :
    (xs.map f).mapM ψ = (xs.mapM φ).map (List.map F) := by
  induction xs with
  | nil => rfl
  | cons a xs ih =>
      have ih := ih fun b hb => h b (List.mem_cons_of_mem a hb)
      rw [List.map_cons, List.mapM_cons, List.mapM_cons, h a List.mem_cons_self, ih]
      cases φ a with
      | error fault => rfl
      | ok b => cases xs.mapM φ <;> rfl

/-- The same extensions follow what they extend. -/
theorem follows_inherited (T : Twin δ ρ g h) {declared : Tier}
    {sameScope : Graph → DeclId → DeclId → Bool}
    (hscope : ∀ d e, sameScope h (δ d) (δ e) = sameScope g d e) {extensions : List DeclId}
    (hlive : ∀ e ∈ extensions, g.hasDeclaration e = true) :
    Outcome.Follows δ ρ g h
      (.andThen g (extensions.mapM (inherited g declared sameScope)) fun followers =>
        .done ((followers.filterMap id).foldl (fun g r => record g declared r.1 r.2) g))
      (.andThen h ((extensions.map δ).mapM (inherited h declared sameScope)) fun followers =>
        .done ((followers.filterMap id).foldl (fun g r => record g declared r.1 r.2) h)) := by
  rw [mapM_eq fun e he => inherited_eq T hscope (hlive e he)]
  cases extensions.mapM (inherited g declared sameScope) with
  | error fault => exact .failed
  | ok followers =>
      have hfollowers : (followers.map (Option.map (Prod.map δ id))).filterMap id =
          (followers.filterMap id).map (Prod.map δ id) := by
        rw [List.filterMap_map, List.map_filterMap]
        rfl
      simp only [Except.map, Outcome.andThen, hfollowers]
      exact .done (tracks_foldl_record T declared _)

/-- **The same declarations have a redundant tier, and the same extensions follow them.** -/
theorem follows_judge (T : Twin δ ρ g h) {declared : Tier} {suggest : Graph → DeclId → Option Tier}
    {sameScope : Graph → DeclId → DeclId → Bool}
    (hsuggest : ∀ d, suggest h (δ d) = suggest g d)
    (hscope : ∀ ρ' g' h', Twin δ ρ' g' h' → ∀ d e,
      sameScope h' (δ d) (δ e) = sameScope g' d e) :
    Outcome.Follows δ ρ g h (judge g declared suggest sameScope)
      (judge h declared suggest sameScope) := by
  have hextensions : (candidates h declared).filter (isExtension h) =
      ((candidates g declared).filter (isExtension g)).map δ := by
    rw [candidates_eq T, List.filter_map]
    exact congrArg (List.map δ) (List.filter_congr fun d _ => isExtension_eq T)
  have hothers : (candidates h declared).filter (not ∘ isExtension h) =
      ((candidates g declared).filter (not ∘ isExtension g)).map δ := by
    rw [candidates_eq T, List.filter_map]
    refine congrArg (List.map δ) (List.filter_congr fun d _ => ?_)
    exact congrArg not (isExtension_eq T)
  have hredundant : ∀ xs : List DeclId,
      (xs.map δ).filterMap (fun d => (suggest h d).map (d, ·)) =
        (xs.filterMap fun d => (suggest g d).map (d, ·)).map (Prod.map δ id) := fun xs => by
    rw [List.filterMap_map, List.map_filterMap]
    refine List.filterMap_congr fun d _ => ?_
    rw [Function.comp_apply, hsuggest]
    cases suggest g d <;> rfl
  unfold judge
  simp only [List.partition_eq_filter_filter, hextensions, hothers, hredundant]
  refine Outcome.Follows.bind (tracks_foldl_record T declared _) fun ρ' _ T' =>
    follows_inherited T' (hscope ρ' _ _ T') fun e he => ?_
  rw [hasDeclaration, declaration?_foldl_record]
  exact (mem_sortedDeclarations.1 (List.mem_filter.1 he).1).2

/-- The three tiers. -/
theorem follows_markPublic (T : Twin δ ρ g h) {retainPublic : Bool} :
    Outcome.Follows δ ρ g h (markPublic retainPublic g) (markPublic retainPublic h) := by
  unfold markPublic
  split
  · exact .done (.refl T)
  · exact follows_judge T (fun _ => suggestForPublic_eq T) fun _ _ _ T' _ _ => sameModules_eq T'

theorem follows_markInternal (T : Twin δ ρ g h) :
    Outcome.Follows δ ρ g h (markInternal g) (markInternal h) :=
  follows_judge T (fun _ => suggestForInternal_eq T) fun _ _ _ T' _ _ => sameFile_eq T'

theorem follows_markFileprivate (T : Twin δ ρ g h) :
    Outcome.Follows δ ρ g h (markFileprivate g) (markFileprivate h) :=
  follows_judge T (fun _ => suggestForFileprivate_eq T) fun _ _ _ T' _ _ => sameFile_eq T'

end RedundantAccess

end Deadwood
