/-
  Passes that add uses, or spread accessibility, do not depend on numbers.

  1. **In order** — most passes go through declarations by key and add references in the same
     order for twins; step by step the graphs stay twins (`Twin.foldl_map`).

  2. **In the order of handles** — the cases of an enum and the accessors of a property are taken
     by number.  Their references have different keys, because no two declarations share an
     identifier, so another order only exchanges the numbers of new references.

  3. **`Follows`** — what is shown of a pass that may give up: twins make it give up for the same
     reason, or it leads to twins.
-/
import Deadwood.Pass.Extensions
import Deadwood.Pass.Synthesis
import Deadwood.Proofs.Renaming.Rules

namespace Deadwood

open Deadwood.Graph

variable {δ : DeclId ≃ DeclId} {ρ : RefId ≃ RefId} {g h g' h' : Graph} {d owner : DeclId}
  {r : RefId}

/-! ## Outcomes -/

namespace Outcome

/-- Both gave up for the same reason, or the graphs are twins again. -/
def Follows (δ : DeclId ≃ DeclId) (ρ : RefId ≃ RefId) (g h : Graph) (o o' : Outcome) : Prop :=
  o'.fault = o.fault ∧ (o.fault = none → Tracks δ ρ g h o.graph o'.graph)

namespace Follows

theorem done (H : Tracks δ ρ g h g' h') : Follows δ ρ g h (.done g') (.done h') :=
  ⟨rfl, fun _ => H⟩

theorem failed {fault : Fault} : Follows δ ρ g h (.failed g' fault) (.failed h' fault) :=
  ⟨rfl, fun hf => by cases hf⟩

/-- What happens after a change happens to the twins it led to. -/
theorem bind (H : Tracks δ ρ g h g' h') {o o' : Outcome}
    (next : ∀ ρ', (∀ r, r.index < g.references.size → (ρ r).index < h.references.size →
      ρ' r = ρ r) → Twin δ ρ' g' h' → Follows δ ρ' g' h' o o') : Follows δ ρ g h o o' := by
  have hfault : o'.fault = o.fault := by
    obtain ⟨ρ', hagree, -, -, T⟩ := H
    exact (next ρ' hagree T).1
  exact ⟨hfault, fun hnone => H.bind fun ρ' hagree T => (next ρ' hagree T).2 hnone⟩

end Follows

end Outcome

/-! ## Accessibility -/

namespace Extensions

theorem declaration?_foldl_setAccess {access : Access} {ids : List DeclId} :
    (ids.foldl (fun g m => g.setAccess m access) g).declaration? d =
      (g.declaration? d).map fun x => if d ∈ ids then { x with access } else x := by
  induction ids generalizing g with
  | nil => simp
  | cons m ids ih =>
      rw [List.foldl_cons, ih, Graph.setAccess, declaration?_modifyDeclaration, Option.map_map]
      refine congrArg (Option.map · _) (funext fun x => ?_)
      by_cases hm : m = d
      · subst hm
        by_cases hd : m ∈ ids <;> simp [hd]
      · by_cases hd : d ∈ ids <;> simp [hd, hm, Ne.symm hm]

/-- Giving corresponding declarations the same accessibility. -/
theorem twin_foldl_setAccess (T : Twin δ ρ g h) {access : Access} {xs ys : List DeclId}
    (H : Mapped δ xs ys) :
    Twin δ ρ (xs.foldl (fun g m => g.setAccess m access) g)
      (ys.foldl (fun g m => g.setAccess m access) h) := by
  have hrest : ∀ (ids : List DeclId) (k : Graph),
      (ids.foldl (fun g m => g.setAccess m access) k) =
        { k with declarations := (ids.foldl (fun g m => g.setAccess m access) k).declarations } := by
    intro ids
    induction ids with
    | nil => exact fun _ => rfl
    | cons m ids ih => exact fun k => ih (k.setAccess m access)
  have hleft : (xs.foldl (fun g m => g.setAccess m access) g).Consistent :=
    List.foldlRecOn _ _ T.left fun _ hk _ _ => hk.setAccess
  have hright : (ys.foldl (fun g m => g.setAccess m access) h).Consistent :=
    List.foldlRecOn _ _ T.right fun _ hk _ _ => hk.setAccess
  refine ⟨⟨fun d => ?_, fun r => ?_, ?_, ?_, ?_⟩, hleft, hright,
    T.unambiguous.of_usrs fun d y hy => ?_⟩
  · rw [declaration?_foldl_setAccess, declaration?_foldl_setAccess, T.declaration, Option.map_map,
      Option.map_map]
    refine congrArg (Option.map · _) (funext fun x => ?_)
    by_cases hd : d ∈ xs
    · simp [hd, (H d).2 hd, Declaration.rename]
    · simp [hd, mt (H d).1 hd]
  · rw [hrest xs, hrest ys]
    exact T.reference r
  · rw [hrest xs, hrest ys]
    exact T.roots
  · rw [hrest xs, hrest ys]
    exact T.rootReferences
  · rw [hrest xs, hrest ys]
    exact T.notes
  · rw [declaration?_foldl_setAccess] at hy
    obtain ⟨x, hx, rfl⟩ := Option.map_eq_some_iff.1 hy
    exact ⟨x, hx, by split <;> rfl⟩

theorem references_size_foldl_setAccess {access : Access} {ids : List DeclId} :
    (ids.foldl (fun g m => g.setAccess m access) g).references.size = g.references.size := by
  induction ids generalizing g with
  | nil => rfl
  | cons m ids ih => exact ih

/-- Members take over the same accessibility. -/
theorem tracks_cascadeAccess (T : Twin δ ρ g h) :
    Tracks δ ρ g h (cascadeAccess g) (cascadeAccess h) := by
  unfold cascadeAccess inheritedAccess
  rw [List.foldl_flatMap, List.foldl_flatMap, T.declarationsOfKinds]
  refine T.foldl_map _ fun ρ' g' h' _ T' extension _ => ?_
  rw [T.declaration]
  cases g.declaration? extension with
  | none => exact .refl T'
  | some x =>
      simp only [Option.map_some, Declaration.toSymbol_rename]
      by_cases hw : x.access.written = true
      · have H : Mapped δ (x.members.toList.filter fun m => (g.declaration? m).any (!·.access.written))
            ((x.rename δ ρ).members.toList.filter fun m =>
              (h.declaration? m).any (!·.access.written)) :=
          Mapped.filter (fun m => Declaration.mem_members_rename) fun m _ =>
            T.any_declaration fun _ _ => rfl
        simp only [hw, if_true, List.foldl_map]
        exact .of_twin (Nat.le_of_eq references_size_foldl_setAccess.symm)
          (Nat.le_of_eq references_size_foldl_setAccess.symm) (twin_foldl_setAccess T' H)
      · simp only [hw, Bool.false_eq_true, if_false]
        exact .refl T'

end Extensions

/-! ## Overriding -/

namespace Overrides

theorem tracks_connectOne (T : Twin δ ρ g h) :
    Tracks δ ρ g h (connectOne g d) (connectOne h (δ d)) := by
  unfold connectOne
  rw [T.declaration]
  cases g.declaration? d with
  | none => exact .refl T
  | some x =>
      have hbases : ((memberEdges h (δ d)).filterMap (·.2)).filter
          (fun b => b ≠ δ d && !h.isProtocolMember b) =
          (((memberEdges g d).filterMap (·.2)).filter
            fun b => b ≠ d && !g.isProtocolMember b).map δ := by
        have hdeclared : ((memberEdges h (δ d)).filterMap (·.2)) =
            ((memberEdges g d).filterMap (·.2)).map δ := by
          rw [memberEdges_eq T, List.filterMap_map, List.map_filterMap]
          rfl
        rw [hdeclared, List.filter_map]
        refine congrArg (List.map δ) (List.filter_congr fun b _ => ?_)
        simp only [Function.comp_apply, T.isProtocolMember, ne_eq, δ.injective.eq_iff]
      simp only [Option.map_some, Declaration.toSymbol_rename, hbases]
      exact T.foldl_map _ fun ρ' g' h' _ T' b _ => T'.addUse

/-- Base members refer to the same overrides. -/
theorem tracks_connect (T : Twin δ ρ g h) : Tracks δ ρ g h (connect g) (connect h) := by
  unfold connect
  rw [T.declarationsWhere (p := (·.toSymbol.isOverride)) fun _ _ _ => rfl]
  exact T.foldl_map _ fun ρ' g' h' _ T' d _ => tracks_connectOne T'

end Overrides

/-! ## Uses made by the compiler -/

namespace Synthesis

/-- The mentions of declarations. -/
theorem mentions_eq (T : Twin δ ρ g h) {xs : List DeclId} :
    (xs.map δ).filterMap (fun t => (h.declaration? t).map (·.toSymbol.mention false)) =
      xs.filterMap fun t => (g.declaration? t).map (·.toSymbol.mention false) := by
  rw [List.filterMap_map]
  refine List.filterMap_congr fun t _ => ?_
  rw [Function.comp_apply, T.declaration]
  cases g.declaration? t <;> rfl

/-- Mentions of different declarations have different keys. -/
theorem pairwise_mentions (hg : g.Consistent) (hu : g.Unambiguous) {xs : List DeclId}
    (hxs : xs.Nodup) :
    (xs.filterMap fun t => (g.declaration? t).map (·.toSymbol.mention false)).Pairwise
      fun m m' => m.key ≠ m'.key := by
  refine List.Pairwise.filterMap _ (fun a b hab m hm m' hm' hk => hab ?_) hxs
  obtain ⟨x, hx, rfl⟩ := Option.map_eq_some_iff.1 hm
  obtain ⟨y, hy, rfl⟩ := Option.map_eq_some_iff.1 hm'
  have husr : x.firstUsr = y.firstUsr := congrArg Mention.Key.usr hk
  refine hu a b x y x.firstUsr hx hy (Symbol.firstUsr_mem (hg.identified a x hx)) ?_
  rw [husr]
  exact Symbol.firstUsr_mem (hg.identified b y hy)

/-- Adding references with different keys, in another order. -/
theorem alike_foldl_addUse (hg : g.Consistent) (hu : g.Unambiguous)
    (ho : g.hasDeclaration owner = true) {ms ms' : List Mention} (hp : ms.Perm ms')
    (hk : ms.Pairwise fun m m' => m.key ≠ m'.key) :
    Alike g (ms.foldl (fun g m => g.addUse m owner) g)
      (ms'.foldl (fun g m => g.addUse m owner) g) := by
  let Inv : Graph → List Mention → Prop := fun k _ => k.Consistent ∧ k.Unambiguous ∧
    k.hasDeclaration owner = true ∧ g.references.size ≤ k.references.size
  have hstep : ∀ k m ms, Inv k (m :: ms) → Inv (k.addUse m owner) ms := by
    rintro k m ms ⟨hk, hku, hko, hs⟩
    refine ⟨hk.addReference, hku.addReference, by rw [hasDeclaration_addUse]; exact hko, ?_⟩
    exact Nat.le_trans hs references_size_addUse
  have hk' : ms'.Pairwise fun m m' => m.key ≠ m'.key :=
    hk.perm hp fun hmm => Ne.symm hmm
  refine foldl_alike (I := Inv) (fun k ms hi => .rfl hi.2.2.2 hi.1 hi.2.1)
    (fun _ _ _ _ hi => hi) hstep (fun k l m ms hi H => H.step fun τ _ T => T.addUse)
    (fun k m m' ms hmm _ hi => ?_) hp hk hk' ⟨hg, hu, ho, Nat.le_refl _⟩
  exact addUse_comm hi.1 hi.2.1 hi.2.2.1 hmm hi.2.2.2

theorem tracks_referToAll (T : Twin δ ρ g h) {xs : List DeclId} :
    Tracks δ ρ g h (referToAll g owner xs) (referToAll h (δ owner) (xs.map δ)) := by
  unfold referToAll
  simp only [mentions_eq T]
  exact List.foldl_rel (.refl T) fun m _ g' h' H => H.bind fun ρ' _ T' => T'.addUse

/-- **Referring to corresponding declarations, in the order of their numbers.** -/
theorem tracks_referToAll_of_perm (T : Twin δ ρ g h) (ho : g.hasDeclaration owner = true)
    {xs ys : List DeclId} (hxs : xs.Nodup) (hp : (xs.map δ).Perm ys) :
    Tracks δ ρ g h (referToAll g owner xs) (referToAll h (δ owner) ys) := by
  refine (tracks_referToAll T).along ?_
  have hu : h.Unambiguous := T.unambiguous_right
  refine alike_foldl_addUse T.right hu (by rw [T.hasDeclaration]; exact ho) (hp.filterMap _) ?_
  exact pairwise_mentions T.right hu (hxs.map δ.injective)

theorem perm_addedMembers (T : Twin δ ρ g h) (owner : DeclId) {p : Declaration → Bool}
    (hp : ∀ x, p (x.rename δ ρ) = p x) :
    (addedMembers g owner p).Nodup ∧
      ((addedMembers g owner p).map δ).Perm (addedMembers h (δ owner) p) := by
  unfold addedMembers
  rw [T.declaration]
  cases g.declaration? owner with
  | none => exact ⟨List.nodup_nil, List.Perm.refl _⟩
  | some x =>
      have H : Mapped δ (x.members.toList.filter fun m => (g.declaration? m).any p)
          ((x.rename δ ρ).members.toList.filter fun m => (h.declaration? m).any p) :=
        Mapped.filter (fun m => Declaration.mem_members_rename) fun m _ =>
          T.any_declaration fun y _ => hp y
      have hnodup : ∀ (s : SortedSet DeclId) q, (s.toList.filter q).Nodup := fun s q =>
        s.nodup.filter q
      refine ⟨hnodup _ _, (List.perm_ext_iff_of_nodup ((hnodup _ _).map δ.injective)
        (hnodup _ _)).2 fun m => ?_⟩
      obtain ⟨m, rfl⟩ := δ.surjective m
      rw [List.mem_map_of_injective δ.injective, ← H m]

theorem addedMembers_of_dead (ho : g.hasDeclaration owner ≠ true) {p : Declaration → Bool} :
    addedMembers g owner p = [] := by
  have hnone : g.declaration? owner = none := Option.not_isSome_iff_eq_none.1 ho
  simp only [addedMembers, hnone]

/-- Referring to members in the order in which they were added. -/
theorem tracks_referToAll_addedMembers (T : Twin δ ρ g h) {p : Declaration → Bool}
    (hp : ∀ x, p (x.rename δ ρ) = p x) :
    Tracks δ ρ g h (referToAll g owner (addedMembers g owner p))
      (referToAll h (δ owner) (addedMembers h (δ owner) p)) := by
  by_cases ho : g.hasDeclaration owner = true
  · obtain ⟨hnodup, hperm⟩ := perm_addedMembers T owner hp
    exact tracks_referToAll_of_perm T ho hnodup hperm
  · rw [addedMembers_of_dead ho, addedMembers_of_dead (by rwa [T.hasDeclaration])]
    exact .refl T

/-! ## Enum cases and accessors -/

theorem producesCases_eq (T : Twin δ ρ g h) : producesCases h (δ d) = producesCases g d := by
  refine T.any_declaration fun x _ => Mapped.any (e := ρ) (fun r => ?_) fun r _ => ?_
  · simp only [Declaration.mem_ownReferences, Declaration.mem_held_rename]
  · exact T.any_reference fun _ _ => rfl

/-- Enums refer to the same cases. -/
theorem tracks_enumCases (T : Twin δ ρ g h) : Tracks δ ρ g h (enumCases g) (enumCases h) := by
  unfold enumCases
  rw [T.declarationsOfKind]
  refine T.foldl_map _ fun ρ' g' h' _ T' d _ => ?_
  unfold connectCases
  rw [producesCases_eq T']
  split
  · exact tracks_referToAll_addedMembers T' fun _ => rfl
  · exact .refl T'

/-- Properties refer to the same accessors. -/
theorem tracks_accessors (T : Twin δ ρ g h) : Tracks δ ρ g h (accessors g) (accessors h) := by
  unfold accessors
  rw [T.declarationsWhere (p := (·.kind.isProperty)) fun _ _ _ => rfl]
  refine T.foldl_map _ fun ρ' g' h' _ T' d _ => ?_
  unfold connectAccessors
  have hperm := (perm_addedMembers T' d (p := (·.kind.isAccessor)) fun _ => rfl).2
  have hany : ((addedMembers h' (δ d) (·.kind.isAccessor)).any fun a =>
      (h'.declaration? a).any (!·.isImplicit)) =
      (addedMembers g' d (·.kind.isAccessor)).any fun a =>
        (g'.declaration? a).any (!·.isImplicit) := by
    refine Mapped.any (e := δ) (fun a => ?_) fun a _ => T'.any_declaration fun _ _ => rfl
    rw [← hperm.mem_iff, List.mem_map_of_injective δ.injective]
  simp only [hany]
  split
  · exact tracks_referToAll_addedMembers T' fun _ => rfl
  · exact .refl T'

/-! ## Initializers -/

/-- Classes and structs refer to the same members that the runtime calls. -/
theorem tracks_defaultConstructors (T : Twin δ ρ g h) :
    Tracks δ ρ g h (defaultConstructors g) (defaultConstructors h) := by
  unfold defaultConstructors
  rw [T.declarationsOfKinds]
  refine T.foldl_map _ fun ρ' g' h' _ T' d _ => ?_
  rw [T'.membersWhere (p := isRuntimeCalled) fun _ _ _ => rfl]
  exact tracks_referToAll T'

theorem isGeneric_eq (T : Twin δ ρ g h) : isGeneric h (δ d) = isGeneric g d := by
  unfold isGeneric
  rw [T.membersWhere (p := (·.kind == .genericParameter)) fun _ _ _ => rfl, List.isEmpty_map]

/-- Generic classes and structs refer to the same initializers. -/
theorem tracks_genericConstructors (T : Twin δ ρ g h) :
    Tracks δ ρ g h (genericConstructors g) (genericConstructors h) := by
  unfold genericConstructors
  rw [T.declarationsOfKinds]
  refine T.foldl_map _ fun ρ' g' h' _ T' d _ => ?_
  simp only [isGeneric_eq T']
  split
  · rw [T'.membersWhere (p := (·.kind == .initializer)) fun _ _ _ => rfl]
    exact tracks_referToAll T'
  · exact .refl T'

theorem writtenBy_eq (T : Twin δ ρ g h) {label : String} :
    writtenBy h (δ d) label = (writtenBy g d label).map δ := by
  unfold writtenBy
  rw [T.membersWhere (p := fun m => m.kind == .instanceVariable && m.nameText == label)
    fun _ _ _ => rfl, List.head?_map]
  cases (g.membersWhere d fun m => m.kind == .instanceVariable && m.nameText == label).head? with
  | none => rfl
  | some property =>
      simp only [Option.map_some, Option.bind_eq_bind, Option.bind_some]
      rw [T.membersWhere (p := (·.kind == .setter)) fun _ _ _ => rfl, List.head?_map]
      cases (g.membersWhere property (·.kind == .setter)).head? <;> rfl

theorem fault_connectInitializer {o : Outcome} : (connectInitializer owner o d).fault = o.fault := by
  unfold connectInitializer
  split
  · rfl
  · split <;> rfl

theorem fault_connectInitializers {o : Outcome} : (connectInitializers o d).fault = o.fault := by
  unfold connectInitializers
  generalize o.graph.membersWhere d (fun m => m.kind == .initializer && m.isImplicit) = ids
  induction ids generalizing o with
  | nil => rfl
  | cons i ids ih => rw [List.foldl_cons, ih, fault_connectInitializer]

/-- The same initializer writes the same properties, or is malformed in both. -/
theorem follows_connectInitializer {o o' : Outcome} (H : Outcome.Follows δ ρ g h o o') :
    Outcome.Follows δ ρ g h (connectInitializer owner o d)
      (connectInitializer (δ owner) o' (δ d)) := by
  refine ⟨by rw [fault_connectInitializer, fault_connectInitializer, H.1], fun hnone => ?_⟩
  rw [fault_connectInitializer] at hnone
  refine (H.2 hnone).bind fun ρ' _ T' => ?_
  unfold connectInitializer
  rw [T'.declaration]
  cases o.graph.declaration? d with
  | none => exact .refl T'
  | some x =>
      simp only [Option.map_some, Declaration.toSymbol_rename]
      cases x.toSymbol.argumentLabels with
      | none => exact .refl T'
      | some labels =>
          have hwritten : labels.filterMap (writtenBy o'.graph (δ owner)) =
              (labels.filterMap (writtenBy o.graph owner)).map δ := by
            rw [List.map_filterMap]
            exact List.filterMap_congr fun label _ => writtenBy_eq T'
          simp only [hwritten]
          exact tracks_referToAll T'

/-- Synthesised initializers refer to the same properties. -/
theorem follows_memberwiseInitializers (T : Twin δ ρ g h) :
    Outcome.Follows δ ρ g h (memberwiseInitializers g) (memberwiseInitializers h) := by
  unfold memberwiseInitializers
  rw [T.declarationsOfKind, List.foldl_map]
  refine List.foldl_rel (.done (.refl T)) fun owner _ o o' H => ?_
  refine ⟨by rw [fault_connectInitializers, fault_connectInitializers, H.1], fun hnone => ?_⟩
  rw [fault_connectInitializers] at hnone
  obtain ⟨ρ', -, -, -, T'⟩ := H.2 hnone
  have hmembers : o'.graph.membersWhere (δ owner) (fun m => m.kind == .initializer && m.isImplicit) =
      (o.graph.membersWhere owner fun m => m.kind == .initializer && m.isImplicit).map δ :=
    T'.membersWhere fun _ _ _ => rfl
  have hall : Outcome.Follows δ ρ g h (connectInitializers o owner)
      (connectInitializers o' (δ owner)) := by
    unfold connectInitializers
    rw [hmembers, List.foldl_map]
    exact List.foldl_rel H fun d _ o o' H => follows_connectInitializer H
  exact hall.2 (by rw [fault_connectInitializers]; exact hnone)

end Synthesis

end Deadwood
