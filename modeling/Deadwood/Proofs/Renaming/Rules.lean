/-
  Rules that keep declarations alive do not depend on numbers.

  1. **`Mapped e xs ys`** — the lists have corresponding members, in whatever order and however
     often.  Filtering, joining and collecting keep this, so a rule corresponds as soon as the
     questions it asks do.

  2. **Rules** — every rule lists corresponding declarations for twins, and retaining them leads to
     twins.  The families of functions are found by a search over pairs, which correspond as sets.

  3. **Imports** — what an import contributes is a set of modules, the same one for twins.
-/
import Deadwood.Pass.Directives
import Deadwood.Pass.Imports
import Deadwood.Pass.Overrides
import Deadwood.Pass.Parameters
import Deadwood.Pass.Retention
import Deadwood.Proofs.Renaming.Order

namespace Deadwood

/-! ## Lists with corresponding members -/

section Mapped

variable {α β γ ε : Type} {e : α ≃ β} {e' : γ ≃ ε} {xs xs' : List α} {ys ys' : List β}

/-- The members of `ys` are the members of `xs` under their new names. -/
def Mapped (e : α ≃ β) (xs : List α) (ys : List β) : Prop := ∀ a, e a ∈ ys ↔ a ∈ xs

namespace Mapped

theorem of_eq_map (h : ys = xs.map e) : Mapped e xs ys := fun a => by
  rw [h, List.mem_map_of_injective e.injective]

theorem nil : Mapped e [] [] := fun a => by simp

theorem cons {a : α} (H : Mapped e xs ys) : Mapped e (a :: xs) (e a :: ys) := fun b => by
  rw [List.mem_cons, List.mem_cons, H, e.injective.eq_iff]

theorem append (H : Mapped e xs ys) (H' : Mapped e xs' ys') :
    Mapped e (xs ++ xs') (ys ++ ys') := fun a => by
  rw [List.mem_append, List.mem_append, H, H']

theorem filter (H : Mapped e xs ys) {p : α → Bool} {p' : β → Bool}
    (hp : ∀ a ∈ xs, p' (e a) = p a) : Mapped e (xs.filter p) (ys.filter p') := fun a => by
  rw [List.mem_filter, List.mem_filter, H]
  exact and_congr_right fun ha => by rw [hp a ha]

theorem flatMap (H : Mapped e xs ys) {f : α → List γ} {f' : β → List ε}
    (hf : ∀ a ∈ xs, Mapped e' (f a) (f' (e a))) : Mapped e' (xs.flatMap f) (ys.flatMap f') := by
  intro c
  rw [List.mem_flatMap, List.mem_flatMap]
  constructor
  · rintro ⟨b, hb, hc⟩
    obtain ⟨a, rfl⟩ := e.surjective b
    have ha := (H a).1 hb
    exact ⟨a, ha, (hf a ha c).1 hc⟩
  · rintro ⟨a, ha, hc⟩
    exact ⟨e a, (H a).2 ha, (hf a ha c).2 hc⟩

theorem filterMap (H : Mapped e xs ys) {f : α → Option γ} {f' : β → Option ε}
    (hf : ∀ a ∈ xs, f' (e a) = (f a).map e') : Mapped e' (xs.filterMap f) (ys.filterMap f') := by
  rw [List.filterMap_eq_flatMap_toList, List.filterMap_eq_flatMap_toList]
  refine H.flatMap fun a ha c => ?_
  rw [hf a ha]
  cases f a <;> simp

theorem map (H : Mapped e xs ys) {f : α → γ} {f' : β → ε} (hf : ∀ a ∈ xs, f' (e a) = e' (f a)) :
    Mapped e' (xs.map f) (ys.map f') := by
  rw [← List.filterMap_eq_map, ← List.filterMap_eq_map]
  exact H.filterMap fun a ha => congrArg some (hf a ha)

theorem any (H : Mapped e xs ys) {p : α → Bool} {p' : β → Bool} (hp : ∀ a ∈ xs, p' (e a) = p a) :
    ys.any p' = xs.any p := by
  rw [Bool.eq_iff_iff, List.any_eq_true, List.any_eq_true]
  constructor
  · rintro ⟨b, hb, h⟩
    obtain ⟨a, rfl⟩ := e.surjective b
    have ha := (H a).1 hb
    exact ⟨a, ha, by rw [← hp a ha]; exact h⟩
  · rintro ⟨a, ha, h⟩
    exact ⟨e a, (H a).2 ha, by rw [hp a ha]; exact h⟩

theorem all (H : Mapped e xs ys) {p : α → Bool} {p' : β → Bool} (hp : ∀ a ∈ xs, p' (e a) = p a) :
    ys.all p' = xs.all p := by
  rw [List.all_eq_not_any_not, List.all_eq_not_any_not, H.any fun a ha => by rw [hp a ha]]

theorem isEmpty (H : Mapped e xs ys) : ys.isEmpty = xs.isEmpty := by
  have hany : (ys.any fun _ => true) = xs.any fun _ => true := H.any fun _ _ => rfl
  cases xs <;> cases ys <;> simp_all

theorem contains [DecidableEq α] [DecidableEq β] (H : Mapped e xs ys) {a : α} :
    ys.contains (e a) = xs.contains a := by
  rw [Bool.eq_iff_iff, List.contains_iff_mem, List.contains_iff_mem, H]

end Mapped

end Mapped

namespace Graph

variable {δ : DeclId ≃ DeclId} {ρ : RefId ≃ RefId} {g h : Graph} {d f : DeclId} {r : RefId}

namespace Twin

variable (T : Twin δ ρ g h)
include T

theorem mapped_declIdsWhere {p : Declaration → Bool} (hp : ∀ x, p (x.rename δ ρ) = p x) :
    Mapped δ (g.declIdsWhere p) (h.declIdsWhere p) := fun _ =>
  T.mem_declIdsWhere fun _ x _ => hp x

theorem mapped_membersWhere {p : Declaration → Bool} (hp : ∀ x, p (x.rename δ ρ) = p x) :
    Mapped δ (g.membersWhere d p) (h.membersWhere (δ d) p) :=
  .of_eq_map (T.membersWhere fun _ x _ => hp x)

theorem mapped_declarationsOfKinds {kinds : List Kind} :
    Mapped δ (g.declarationsOfKinds kinds) (h.declarationsOfKinds kinds) :=
  .of_eq_map T.declarationsOfKinds

theorem mapped_declarationsWithUsr {usr : String} :
    Mapped δ (g.declarationsWithUsr usr) (h.declarationsWithUsr usr) :=
  .of_eq_map T.declarationsWithUsr

/-- The structural references of a declaration are listed in the same order. -/
theorem sortedReferences_related {x : Declaration} (hx : g.declaration? d = some x) :
    h.sortedReferences (x.rename δ ρ).related.toList =
      (g.sortedReferences x.related.toList).map ρ := by
  refine T.sortedReferences (fun r _ => Declaration.mem_held_rename (b := true))
    fun r hr s hs y z hy hz hk => ?_
  have hheld : ∀ q ∈ x.related.toList, q ∈ g.heldBy d true := fun q hq =>
    mem_heldBy_iff.2 ⟨x, hx, hq⟩
  exact T.left.toOwned.eq_of_key_of_held (hheld r hr) (hheld s hs) hy hz hk

/-- Marking corresponding declarations. -/
theorem tracks_markAll (mark : Mark) {xs ys : List DeclId} (H : Mapped δ xs ys) :
    Tracks δ ρ g h (g.markAll mark xs) (h.markAll mark ys) := by
  refine .of_twin ?_ ?_ (T.markAll fun d _ => H d)
  · exact Nat.le_of_eq references_size_markAll.symm
  · exact Nat.le_of_eq references_size_markAll.symm

/-- Removing corresponding references. -/
theorem tracks_foldl_removeReference {xs ys : List RefId} (H : Mapped ρ xs ys) :
    Tracks δ ρ g h (xs.foldl Graph.removeReference g) (ys.foldl Graph.removeReference h) := by
  refine .of_twin ?_ ?_ (T.foldl_removeReference fun r _ => H r)
  · exact Nat.le_of_eq (references_size_foldl_removeReference T.left.toOwned xs).symm
  · exact Nat.le_of_eq (references_size_foldl_removeReference T.right.toOwned ys).symm

end Twin

end Graph

/-! ## Language and frameworks -/

namespace Retention

open Deadwood.Graph

variable {δ : DeclId ≃ DeclId} {ρ : RefId ≃ RefId} {g h : Graph} {d : DeclId} {s : Settings}
  (T : Twin δ ρ g h)
include T

theorem mapped_membersOfTypesWith {name : String} {p : Declaration → Bool}
    (hp : ∀ x, p (x.rename δ ρ) = p x) :
    Mapped δ (membersOfTypesWith g name p) (membersOfTypesWith h name p) :=
  (T.mapped_declIdsWhere fun _ => rfl).flatMap fun _ _ => T.mapped_membersWhere hp

theorem inheritsFromOneOf_eq {names : List String} :
    inheritsFromOneOf h names (δ d) = inheritsFromOneOf g names d :=
  congrArg (List.any names) (funext fun _ => T.inheritsFromNamed)

theorem mapped_previews : Mapped δ (previews s g) (previews s h) := by
  unfold previews
  split
  · exact T.mapped_declarationsOfKinds.filter fun _ _ => inheritsFromOneOf_eq T
  · exact .nil

theorem mapped_testCases : Mapped δ (testCases s g) (testCases s h) := by
  refine (T.mapped_declarationsOfKinds.filter fun d _ => inheritsFromOneOf_eq T).flatMap
    fun c _ => ?_
  exact (T.mapped_membersWhere fun _ => rfl).cons

/-! ## Assets and settings -/

theorem mapped_keptByAsset {asset : AssetReference} :
    Mapped δ (keptByAsset g asset) (keptByAsset h asset) := by
  have hname : ∀ d, (h.declaration? (δ d)).any (·.nameText == asset.name) =
      (g.declaration? d).any (·.nameText == asset.name) := fun d => T.any_declaration fun _ _ => rfl
  refine (T.mapped_declarationsOfKinds.filter fun d _ => hname d).flatMap fun d _ => ?_
  split
  · exact (T.mapped_membersWhere fun _ => rfl).cons
  · exact Mapped.nil.cons

theorem mapped_assets : Mapped δ (assets g) (assets h) := by
  unfold assets
  rw [show h.assets = g.assets from T.notes.assets]
  intro d
  simp only [List.mem_flatMap, mapped_keptByAsset T d]

theorem mapped_publicApi : Mapped δ (publicApi s g) (publicApi s h) := by
  unfold publicApi
  split
  · exact T.mapped_declIdsWhere fun _ => rfl
  · exact .nil

theorem mapped_objcAccessible : Mapped δ (objcAccessible s g) (objcAccessible s h) := by
  unfold objcAccessible
  split
  · refine (T.mapped_declIdsWhere fun _ => rfl).append ?_
    refine (T.mapped_declIdsWhere fun _ => rfl).flatMap fun d _ => ?_
    exact (T.mapped_membersWhere fun _ => rfl).cons
  · exact .nil

end Retention

/-! ## Directives -/

namespace Directives

open Deadwood.Graph

variable {δ : DeclId ≃ DeclId} {ρ : RefId ≃ RefId} {g h : Graph} {d : DeclId} (T : Twin δ ρ g h)
include T

theorem isInIgnoredFile_rename {x : Declaration} :
    isInIgnoredFile h (x.rename δ ρ) = isInIgnoredFile g x := by
  unfold isInIgnoredFile
  rw [T.file?]
  rfl

theorem mapped_suppressed : Mapped δ (suppressed g) (suppressed h) := by
  have haddressed : Mapped δ
      (g.declIdsWhere fun d => isInIgnoredFile g d || d.directives.contains .ignore)
      (h.declIdsWhere fun d => isInIgnoredFile h d || d.directives.contains .ignore) := fun _ =>
    T.mem_declIdsWhere fun _ x _ => by rw [isInIgnoredFile_rename T]; rfl
  exact haddressed.flatMap fun d _ => (Mapped.of_eq_map T.descendants).cons

theorem mapped_keptParameters : Mapped δ (keptParameters g) (keptParameters h) := by
  refine Mapped.flatMap (fun d => T.mem_declIds) fun d _ => ?_
  rw [T.declaration]
  cases g.declaration? d with
  | none => exact .nil
  | some x =>
      refine Mapped.filter (fun p => Declaration.mem_parameters_rename) fun p _ => ?_
      exact T.any_declaration fun _ _ => rfl

/-- Obeying the directives of twins. -/
theorem tracks_obey : Tracks δ ρ g h (obey g) (obey h) := by
  have H := mapped_suppressed T
  refine (T.tracks_markAll .retained H).bind fun _ _ T₁ => ?_
  refine (T₁.tracks_markAll .ignored H).bind fun _ _ T₂ => ?_
  exact T₂.tracks_markAll .retained (mapped_keptParameters T)

end Directives

/-! ## Parameters -/

namespace Parameters

open Deadwood.Graph

variable {δ : DeclId ≃ DeclId} {ρ : RefId ≃ RefId} {g h : Graph} {d f : DeclId} {s : Settings}
  (T : Twin δ ρ g h)
include T

theorem mapped_functions : Mapped δ (functions g) (functions h) :=
  .of_eq_map (T.declarationsWhere fun _ _ _ => rfl)

theorem mapped_relatedUsrs : Mapped (Equiv.refl _) (relatedUsrs g f) (relatedUsrs h (δ f)) := by
  unfold relatedUsrs
  rw [T.declaration]
  cases g.declaration? f with
  | none => exact .nil
  | some x =>
      refine Mapped.filterMap (fun r => Declaration.mem_held_rename (b := true)) fun r _ => ?_
      rw [T.reference]
      cases g.reference? r with
      | none => rfl
      | some y =>
          by_cases hy : y.kind.isFunction = true <;> simp [Option.filter_some, hy]

theorem hasForeignBase_eq : hasForeignBase h (δ f) = hasForeignBase g f :=
  (mapped_relatedUsrs T).any fun _ _ => T.mapped_declarationsWithUsr.isEmpty

theorem mapped_links {fs fs' : List DeclId} (H : Mapped δ fs fs') :
    Mapped (δ.prodCongr δ) (links g fs) (links h fs') := by
  refine H.flatMap fun f _ => ?_
  have htargets : Mapped δ ((relatedUsrs g f).flatMap g.declarationsWithUsr)
      ((relatedUsrs h (δ f)).flatMap h.declarationsWithUsr) :=
    (mapped_relatedUsrs T).flatMap fun _ _ => T.mapped_declarationsWithUsr
  exact (htargets.filter fun t _ => H.contains).flatMap fun t _ => Mapped.nil.cons.cons

omit T in
theorem mapped_family {fs fs' : List DeclId} {ls ls' : List (DeclId × DeclId)}
    (H : Mapped δ fs fs') (L : Mapped (δ.prodCongr δ) ls ls') :
    Mapped δ (family fs ls f) (family fs' ls' (δ f)) := by
  intro c
  refine mem_explore_map_iff δ (fun a b => ?_) H fun a => by simp
  have hpair : ∀ l : List (DeclId × DeclId), ∀ a b : DeclId,
      b ∈ (l.filter (·.1 = a)).map (·.2) ↔ (a, b) ∈ l := fun l a b => by simp
  rw [hpair, hpair]
  exact L (a, b)

theorem mapped_namedParameters :
    Mapped (δ.prodCongr (Equiv.refl _)) (namedParameters g f) (namedParameters h (δ f)) := by
  unfold namedParameters
  rw [T.declaration]
  cases g.declaration? f with
  | none => exact .nil
  | some x =>
      refine Mapped.filterMap (fun p => Declaration.mem_parameters_rename) fun p _ => ?_
      rw [T.declaration]
      cases g.declaration? p <;> rfl

theorem usesName_eq {name : String} : usesName h (δ f) name = usesName g f name :=
  congrArg (!·) ((mapped_namedParameters T).any fun _ _ => rfl)

theorem mapped_keptOf {fs fs' : List DeclId} (H : Mapped δ fs fs') :
    Mapped δ (keptOf s g fs f) (keptOf s h fs' (δ f)) := by
  unfold keptOf
  simp only [H.any fun _ _ => hasForeignBase_eq T, H.any fun _ _ => T.isProtocolMember,
    T.isProtocolMember]
  have hnamed := mapped_namedParameters T (f := f)
  split
  · exact hnamed.map fun _ _ => rfl
  · have hsiblings : Mapped δ (fs.filter fun m => m ≠ f && !g.isProtocolMember m)
        (fs'.filter fun m => m ≠ δ f && !h.isProtocolMember m) := H.filter fun m _ => by
      simp only [T.isProtocolMember, ne_eq, δ.injective.eq_iff]
    refine (hnamed.filter fun p _ => ?_).map fun _ _ => rfl
    exact congrArg (p.2 == "_" || ·) (hsiblings.any fun m _ => usesName_eq T)

/-- Parameters that have to stay are the same ones. -/
theorem mapped_kept : Mapped δ (kept s g) (kept s h) := by
  have H := mapped_functions T
  exact H.flatMap fun f _ => mapped_keptOf T (mapped_family H (mapped_links T H))

end Parameters

/-! ## Overriding something foreign -/

namespace Overrides

open Deadwood.Graph

variable {δ : DeclId ≃ DeclId} {ρ : RefId ≃ RefId} {g h : Graph} {d : DeclId} (T : Twin δ ρ g h)
include T

theorem memberEdges_eq :
    memberEdges h (δ d) = (memberEdges g d).map fun e => (e.1, e.2.map δ) := by
  unfold memberEdges
  rw [T.declaration]
  cases hx : g.declaration? d with
  | none => rfl
  | some x =>
      simp only [Option.map_some]
      rw [T.sortedReferences_related hx, List.filterMap_map, List.map_filterMap]
      refine List.filterMap_congr fun r _ => ?_
      rw [Function.comp_apply, T.reference]
      cases g.reference? r with
      | none => rfl
      | some y =>
          simp only [Option.map_some, Option.bind_eq_bind, Option.bind_some, bind_guard,
            Reference.toMention_rename, T.declarationWithUsr?]
          by_cases hy : (y.kind.isFunction || y.kind.isVariable) = true <;> simp [hy]

theorem mapped_foreign : Mapped δ (foreign g) (foreign h) := by
  refine Mapped.filter (.of_eq_map (T.declarationsWhere fun _ _ _ => rfl)) fun d _ => ?_
  rw [memberEdges_eq T, List.any_map]
  refine congrArg (List.any _) (funext fun e => ?_)
  simp

end Overrides

/-! ## Imports -/

namespace Imports

open Deadwood.Graph

variable {δ : DeclId ≃ DeclId} {ρ : RefId ≃ RefId} {g h : Graph} {path : Path} {module : String}

theorem mem_foldl_union {f : DeclId → SortedSet String} {ids : List DeclId}
    {modules : SortedSet String} :
    module ∈ (ids.foldl (fun all id => all.union (f id)) modules).toList ↔
      module ∈ modules.toList ∨ ∃ id ∈ ids, module ∈ (f id).toList := by
  induction ids generalizing modules with
  | nil => simp
  | cons id ids ih => simp [ih, or_assoc]

/-- The modules of the file that a declaration stands in. -/
def homeOf (g : Graph) (id : DeclId) : SortedSet String :=
  ((g.declaration? id).map fun d => g.modulesOf d.location.file).getD ∅

theorem mem_referredModules : module ∈ (referredModules g path).toList ↔
    ∃ id ∈ ((g.refIdsWhere fun r => r.location.file.same path).filterMap fun id =>
        (g.reference? id).map (·.usr)).flatMap g.declarationsWithUsr,
      module ∈ (homeOf g id).toList := by
  have hunion : referredModules g path = (((g.refIdsWhere fun r =>
      r.location.file.same path).filterMap fun id => (g.reference? id).map (·.usr)).flatMap
        g.declarationsWithUsr).foldl (fun all id => all.union (homeOf g id)) ∅ := by
    refine congrArg (List.foldl · ∅ _) (funext fun all => funext fun id => ?_)
    unfold homeOf
    cases g.declaration? id with
    | none => exact SortedSet.eq_of_mem_iff fun a => by simp
    | some d => rfl
  rw [hunion, mem_foldl_union]
  simp

variable (T : Twin δ ρ g h)
include T

theorem homeOf_eq {d : DeclId} : homeOf h (δ d) = homeOf g d := by
  unfold homeOf
  rw [T.declaration]
  cases g.declaration? d with
  | none => rfl
  | some x => exact T.modulesOf

theorem referredModules_eq : referredModules h path = referredModules g path := by
  refine SortedSet.eq_of_mem_iff fun module => ?_
  have hhere : Mapped ρ (g.refIdsWhere fun r => r.location.file.same path)
      (h.refIdsWhere fun r => r.location.file.same path) :=
    Mapped.filter (fun r => T.mem_refIds) fun r _ => T.any_reference fun _ _ => rfl
  have husrs : Mapped (Equiv.refl String)
      ((g.refIdsWhere fun r => r.location.file.same path).filterMap fun id =>
        (g.reference? id).map (·.usr))
      ((h.refIdsWhere fun r => r.location.file.same path).filterMap fun id =>
        (h.reference? id).map (·.usr)) := hhere.filterMap fun r _ => by
    rw [T.reference]
    cases g.reference? r <;> rfl
  have htargets := husrs.flatMap fun usr _ =>
    (T.mapped_declarationsWithUsr : Mapped δ (g.declarationsWithUsr usr) _)
  rw [mem_referredModules, mem_referredModules]
  constructor
  · rintro ⟨d, hd, hm⟩
    obtain ⟨d, rfl⟩ := δ.surjective d
    rw [homeOf_eq T] at hm
    exact ⟨d, (htargets d).1 hd, hm⟩
  · rintro ⟨d, hd, hm⟩
    exact ⟨δ d, (htargets d).2 hd, by rw [homeOf_eq T]; exact hm⟩

theorem closure_eq : closure h module = closure g module := by
  have hfiles : h.files = g.files := T.files
  have hexports : h.exports = g.exports := T.notes.exports
  have hpassed : passedOn h = passedOn g := by
    funext m
    unfold passedOn Graph.indexedModules Graph.exportedModules
    rw [hfiles, hexports]
  unfold closure exportTargets
  rw [hpassed, hfiles, hexports]

theorem unused_eq : unused h = unused g := by
  have hjudged : isUnused h = isUnused g := by
    funext file i
    simp only [isUnused, closure_eq T, referredModules_eq T, Graph.indexedModules, T.files]
  simp only [unused, hjudged, T.files]

/-- The same import statements are recorded. -/
theorem tracks_markUnused : Tracks δ ρ g h (markUnused g) (markUnused h) := by
  unfold markUnused
  rw [unused_eq T]
  exact List.foldl_rel (.refl T) fun i _ g' h' H => H.bind fun ρ' _ T' =>
    .of_twin (Nat.le_refl _) (Nat.le_refl _) T'.recordUnusedImport

end Imports

end Deadwood
