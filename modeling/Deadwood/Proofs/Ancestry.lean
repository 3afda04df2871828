/-
  Up and down the tree of declarations lead the same links.

  1. **Both ways (`Seated`)** — whoever calls a declaration its parent is listed by it, and who has no
     parent is a root.  Together with `Rooted` this holds after every history: a parameter that is
     added to the very handle it is about to get lists itself, but nothing else goes wrong.

  2. **Circles** — a declaration can be moved into what it encloses.  The walks go on until they would
     come back: they end, list nothing twice, and never the declaration they begin at.

  3. **Chains** — where nothing on the way up encloses itself, the way up is the chain of parents, and
     it ends at a root.
-/
import Deadwood.Proofs.DeadTrees
import Deadwood.Proofs.Discovery
import Deadwood.Proofs.Subtrees.Rooting
import Mathlib.Data.List.Chain

namespace Deadwood.Graph

variable {g h : Graph} {a c d p target : DeclId} {r : RefId} {s : Symbol} {ids : List DeclId}
  {gone : List RefId}

/-! ## Everything has its seat -/

/-- What has a parent is listed by it, and what has none is a root. -/
structure Seated (g : Graph) : Prop where
  listed : ∀ p c, g.parentOf? c = some p → c ∈ g.childrenOf p
  root : ∀ c, g.hasDeclaration c = true → g.parentOf? c = none → c ∈ g.roots.toList

namespace Seated

/-- Changes elsewhere leave everything in its seat. -/
theorem congr (hg : g.Seated)
    (hd : ∀ d, (h.declaration? d).map (·.links) = (g.declaration? d).map (·.links))
    (hr : h.roots = g.roots) : h.Seated where
  listed p c hp := by
    rw [parentOf?_congr (hd c)] at hp
    rw [childrenOf_congr (hd p)]
    exact hg.listed p c hp
  root c hc hp := by
    rw [hasDeclaration_congr (hd c)] at hc
    rw [parentOf?_congr (hd c)] at hp
    rw [hr]
    exact hg.root c hc hp

theorem modifyDeclaration (hg : g.Seated) {f : Declaration → Declaration}
    (hl : ∀ x, (f x).links = x.links) : (g.modifyDeclaration d f).Seated :=
  hg.congr (fun _ => map_declaration?_modifyDeclaration hl) rfl

theorem addDeclaration (hg : g.Seated) {parent : Option DeclId} :
    (g.addDeclaration s parent).1.Seated where
  listed p c hp := by
    rw [mem_childrenOf_addDeclaration]
    rw [parentOf?_addDeclaration] at hp
    split at hp
    · rename_i hc
      exact .inl ⟨hc, hp⟩
    · exact .inr (hg.listed p c hp)
  root c hc hp := by
    rw [roots_addDeclaration]
    rw [hasDeclaration_addDeclaration] at hc
    rw [parentOf?_addDeclaration] at hp
    split at hp
    · rename_i hself
      rw [if_pos hp]
      exact SortedSet.mem_insert.2 (.inl hself)
    · rename_i hself
      have hold := hg.root c (hc.resolve_left hself) hp
      split
      · exact SortedSet.mem_insert.2 (.inr hold)
      · exact hold

/-- The function takes the parameter from its members to its parameters. -/
theorem addUnusedParameter (hg : g.Seated) : (g.addUnusedParameter s d).1.Seated := by
  have hadd : (g.addDeclaration { s with kind := .parameter } (some d)).1.Seated := hg.addDeclaration
  rw [addUnusedParameter_fst]
  generalize (g.addDeclaration { s with kind := .parameter } (some d)).1 = k at hadd ⊢
  refine ⟨fun p c hp => ?_, fun c hc hp => ?_⟩
  · rw [parentOf?_modifyDeclaration fun _ => by simp] at hp
    obtain ⟨x, hx, hmem⟩ := mem_childrenOf_iff.1 (hadd.listed p c hp)
    have hmem : c ∈ x.children := Declaration.mem_children.2 hmem
    refine mem_childrenOf_iff.2 ⟨_, by rw [declaration?_modifyDeclaration, hx]; rfl,
      Declaration.mem_children.1 ?_⟩
    split
    · rw [Declaration.mem_children_addChild, Declaration.mem_children_dropChild]
      by_cases hself : c = g.nextDeclaration
      · exact .inl hself
      · exact .inr ⟨hmem, hself⟩
    · exact hmem
  · rw [parentOf?_modifyDeclaration fun _ => by simp] at hp
    rw [hasDeclaration_modifyDeclaration] at hc
    exact hadd.root c hc hp

theorem addUsr (hg : g.Seated) {usr : String} : (g.addUsr d usr).Seated :=
  hg.congr (fun _ => links_addUsr) roots_addUsr

theorem unify (hg : g.Seated) : (g.unify d s).Seated := by
  have husrs : (s.usrs.toList.foldl (fun g usr => g.addUsr d usr) g).Seated :=
    List.foldlRecOn _ _ hg fun _ hk _ _ => hk.addUsr
  exact husrs.modifyDeclaration fun _ => rfl

theorem relocated (hg : g.Seated) {x : Declaration} (hx : g.declaration? d = some x)
    (ht : g.hasDeclaration target = true) : (g.relocated d target x).Seated where
  listed p c hp := by
    rw [parentOf?_relocated hx] at hp
    obtain ⟨y, hy⟩ : ∃ y, g.declaration? p = some y := by
      split at hp
      · cases hp
        exact hasDeclaration_iff.1 ht
      · obtain ⟨y, hy, -⟩ := mem_childrenOf_iff.1 (hg.listed p c hp)
        exact ⟨y, hy⟩
    refine mem_childrenOf_iff.2 ⟨_, by rw [declaration?_relocated, hy]; rfl,
      Declaration.mem_children.1 ?_⟩
    -- the parent link plays no part in the list of children
    have hlink : ∀ z : Declaration, (if d = p then { z with parent := some target }
        else z : Declaration).children = z.children := by
      intro z
      split <;> rfl
    rw [hlink]
    split at hp
    · rename_i hc
      obtain rfl : target = p := Option.some.inj hp
      rw [if_pos rfl, Declaration.mem_children_addChild]
      exact .inl hc
    · rename_i hc
      obtain ⟨z, hz, hmem⟩ := mem_childrenOf_iff.1 (hg.listed p c hp)
      rw [hy] at hz
      cases hz
      have hmem : c ∈ y.children := Declaration.mem_children.2 hmem
      have hkept : c ∈ (if x.parent = some p then y.dropChild d else y).children := by
        split
        · exact Declaration.mem_children_dropChild.2 ⟨hmem, hc⟩
        · exact hmem
      split
      · exact Declaration.mem_children_addChild.2 (.inr hkept)
      · exact hkept
  root c hc hp := by
    rw [hasDeclaration_relocated] at hc
    rw [parentOf?_relocated hx] at hp
    rw [roots_relocated]
    split at hp
    · cases hp
    · rename_i hcd
      have hold := hg.root c hc hp
      split
      · exact SortedSet.mem_erase.2 ⟨hold, hcd⟩
      · exact hold

theorem moveDeclaration (hg : g.Seated) : (g.moveDeclaration d target).Seated := by
  obtain he | ⟨x, hx, ht, he⟩ := moveDeclaration_cases g d target <;> rw [he]
  · exact hg
  · exact hg.relocated hx ht

/-- What goes takes along what calls it its parent. -/
theorem felled (hg : g.Seated) (hf : Felled ids gone g h)
    (hids : ∀ p ∈ ids, ∀ c, g.parentOf? c = some p → c ∈ ids) : h.Seated where
  listed p c hp := by
    by_cases hc : c ∈ ids
    · rw [Graph.parentOf?, hf.declaration, if_pos hc] at hp
      cases hp
    · rw [hf.parentOf? hc] at hp
      exact hf.mem_childrenOf_iff.2 ⟨hg.listed p c hp, fun hpi => hc (hids p hpi c hp), hc⟩
  root c hlive hp := by
    have hc : c ∉ ids := fun hc => by
      rw [hasDeclaration, hf.declaration, if_pos hc] at hlive
      cases hlive
    rw [hf.parentOf? hc] at hp
    rw [hf.roots, SortedSet.mem_without]
    exact ⟨hg.root c ((hf.hasDeclaration_iff).1 hlive).1 hp, hc⟩

theorem removeDeclaration (hg : g.Seated) (hrooted : g.Rooted) (ho : g.Owned) :
    (g.removeDeclaration d).Seated := by
  refine hg.felled (felled_foldl_takeDeclaration hrooted ho _) fun p hp c hc => ?_
  rw [mem_subtree] at hp ⊢
  obtain ⟨x, hx, -⟩ := parentOf?_eq_some_iff.1 hc
  exact .step hp (hg.listed p c hc) (mem_declIds.2 (hasDeclaration_of_eq hx))

theorem addReference (hg : g.Seated) {m : Mention} {owner : Option Owner} :
    (g.addReference m owner).1.Seated := by
  cases hnew : g.equalReference? m.key owner with
  | some q => rw [addReference_eq_of_some hnew]; exact hg
  | none =>
      exact hg.congr
        (fun _ => map_declaration?_addReference hnew _ fun _ _ _ => by simp [Declaration.links])
        (roots_addReference hnew)

theorem removeReference (hg : g.Seated) (ho : g.Owned) : (g.removeReference r).Seated :=
  hg.felled (pruned_removeReference ho r).felled fun _ hp => absurd hp List.not_mem_nil

theorem moveReference (hg : g.Seated) (ho : g.Owned) : (g.moveReference r target).Seated := by
  obtain he | he | ⟨x, -, -, -, he⟩ := moveReference_cases g r target <;> rw [he]
  · exact hg
  · exact hg.removeReference ho
  · exact hg.congr (fun _ => map_declaration?_reowned _ (fun _ _ => rfl) fun _ _ _ => by
      simp [Declaration.links]) roots_reowned

/-- **One operation leaves everything in its seat**, whatever handles it is given. -/
theorem apply (hg : g.Seated) (hrooted : g.Rooted) (hf : g.Filed) (op : Operation) :
    (op.apply g).Seated := by
  cases op with
  | addDeclaration s parent => exact hg.addDeclaration
  | addUnusedParameter s function => exact hg.addUnusedParameter
  | unify id s => exact hg.unify
  | setAccess id access => exact hg.modifyDeclaration fun _ => rfl
  | moveDeclaration id target => exact hg.moveDeclaration
  | removeDeclaration id => exact hg.removeDeclaration hrooted hf.toOwned
  | addReference m owner => exact hg.addReference
  | removeReference id => exact hg.removeReference hf.toOwned
  | moveReference id target => exact hg.moveReference hf.toOwned
  | mark mark id =>
      show (g.mark mark id).Seated
      unfold Graph.mark
      split
      · exact ⟨hg.listed, hg.root⟩
      · exact hg
  | recordRedundantProtocol | recordFolded | recordRedundantAccess | recordUnusedImport | addFile
    | addModuleExport | addAsset => exact ⟨hg.listed, hg.root⟩

end Seated

/-- **Everything is in its seat after every history.** -/
theorem Stored.seated (hg : g.Stored) : g.Seated := by
  have hempty : (∅ : Graph).Seated :=
    ⟨fun p c hp => by simp [parentOf?] at hp, fun c hc => by simp [hasDeclaration] at hc⟩
  exact hg.of_steps hempty (fun _ op hs hk => hk.apply hs.rooted hs.filed op)
    fun _ _ _ _ hk => hk.addUsr

/-! ## Up and down -/

theorem Seated.parent_live (hs : g.Seated) (hp : g.parentOf? c = some p) :
    g.hasDeclaration p = true := by
  obtain ⟨x, hx, -⟩ := mem_childrenOf_iff.1 (hs.listed p c hp)
  exact hasDeclaration_of_eq hx

theorem Seated.parents_subset (hs : g.Seated) (c : DeclId) : (g.parentOf? c).toList ⊆ g.declIds :=
  fun _ hp => mem_declIds.2 (hs.parent_live (Option.mem_toList.1 hp))

/-- Who is listed is there: by another declaration as its child, or by itself. -/
theorem Rooted.children_subset (hr : g.Rooted) (p : DeclId) : g.childrenOf p ⊆ g.declIds := by
  intro c hc
  obtain ⟨x, hx, hmem⟩ := mem_childrenOf_iff.1 hc
  refine mem_declIds.2 ?_
  by_cases hself : c = p
  · exact hself ▸ hasDeclaration_of_eq hx
  · have hp := hr.child p x c hx (Declaration.mem_children.2 hmem) hself
    obtain ⟨y, hy, -⟩ := parentOf?_eq_some_iff.1 hp
    exact hasDeclaration_of_eq hy

theorem Seated.enclosedBy_iff (hs : g.Seated) (hr : g.Rooted) : g.EnclosedBy c a ↔ g.Encloses a c := by
  constructor
  · intro hup
    induction hup with
    | here hc => exact .here hc
    | step _ hz hlive ih => exact ih.head hlive (hs.listed _ _ (Option.mem_toList.1 hz))
  · intro hdown
    induction hdown with
    | here ha => exact .here ha
    | @step y z _ hz hlive ih =>
        by_cases hself : z = y
        · exact hself ▸ ih
        · obtain ⟨x, hx, hmem⟩ := mem_childrenOf_iff.1 hz
          have hp := hr.child y x z hx (Declaration.mem_children.2 hmem) hself
          exact ih.head hlive (Option.mem_toList.2 hp)

/-- **What looks up to a declaration is what is found below it.** -/
theorem Seated.mem_ancestors_iff (hs : g.Seated) (hr : g.Rooted) :
    a ∈ g.ancestors d ↔ d ∈ g.descendants a := by
  rw [mem_descendants, mem_ancestors, hs.enclosedBy_iff hr, ne_comm]

/-- The one declaration is nested directly in the other. -/
def Within (g : Graph) (c p : DeclId) : Prop := g.parentOf? c = some p

theorem Seated.mem_ancestors_iff_transGen (hs : g.Seated) :
    a ∈ g.ancestors d ↔ a ≠ d ∧ Relation.TransGen g.Within d a := by
  rw [mem_ancestors, and_comm]
  refine and_congr_right fun hne => ?_
  constructor
  · intro hup
    exact hup.eq_or_transGen.resolve_left hne
  · intro hpath
    obtain ⟨p, hp, -⟩ := Relation.TransGen.head'_iff.1 hpath
    obtain ⟨x, hx, -⟩ := parentOf?_eq_some_iff.1 hp
    refine (reaches_iff_reflTransGen (mem_declIds.2 (hasDeclaration_of_eq hx)) hs.parents_subset).2 ?_
    exact Relation.ReflTransGen.mono (fun _ _ hp => Option.mem_toList.2 hp) _ _ hpath.to_reflTransGen

/-! ## The walks -/

theorem parentOf?_of_absent (hd : g.hasDeclaration d = false) : g.parentOf? d = none := by
  rw [parentOf?, declaration?_of_absent hd]
  rfl

theorem childrenOf_of_absent (hd : g.hasDeclaration d = false) : g.childrenOf d = [] := by
  rw [childrenOf, declaration?_of_absent hd]
  rfl

theorem cons_ancestors (hd : g.hasDeclaration d = true) : g.lineage d = d :: g.ancestors d := by
  rw [ancestors, lineage, explore_cons_of_mem (mem_declIds.2 hd), List.tail_cons]

theorem ancestors_of_absent (hd : g.hasDeclaration d = false) : g.ancestors d = [] := by
  rw [ancestors, lineage, explore_cons_of_not_mem (not_mem_declIds hd), explore_nil, List.tail_nil]

/-- Going up from parent to parent ends with the ancestors. -/
theorem Seated.exists_turns_ancestors (hs : g.Seated) (d : DeclId) :
    ∃ n, (Discovery.turn Discovery.queue fun c => (g.parentOf? c).toList)^[n] (.start d) =
      ⟨d :: g.ancestors d, []⟩ := by
  cases hd : g.hasDeclaration d with
  | true =>
      have hone : ∀ c, (g.parentOf? c).toList.length ≤ 1 := fun c => by
        cases g.parentOf? c <;> simp
      rw [← cons_ancestors hd, lineage, explore_of_length_le le_rfl hone]
      exact Discovery.exists_turns_breadthFirst (Discovery.open_start nodup_declIds
        (mem_declIds.2 hd) hs.parents_subset) (List.nil_append _).symm
  | false =>
      refine ⟨1, ?_⟩
      rw [Function.iterate_one, ancestors_of_absent hd]
      simp [Discovery.turn, Discovery.start, parentOf?_of_absent hd, Discovery.fresh, Discovery.queue]

/-- Going down from children to children ends with the descendants, which are then sorted. -/
theorem Rooted.exists_turns_descendants (hr : g.Rooted) (d : DeclId) :
    ∃ n below, (Discovery.turn Discovery.stack g.childrenOf)^[n] (.start d) = ⟨d :: below, []⟩ ∧
      g.descendants d = g.sortedDeclarations below := by
  cases hd : g.hasDeclaration d with
  | true =>
      obtain ⟨n, below, hrun, hnodup, hbelow⟩ := Discovery.exists_turns
        (Discovery.open_start nodup_declIds (mem_declIds.2 hd) hr.children_subset)
        Discovery.perm_stack
      refine ⟨n, below, hrun, sortByKey_congr (fun _ _ => rfl) fun c => ?_⟩
      have hself : d ∉ below := (List.nodup_cons.1 hnodup).1
      have hc : c ∈ d :: below ↔ c = d ∨ g.Encloses d c := by
        simpa [Discovery.start, Encloses] using hbelow c
      rw [subtree, mem_tail_explore nodup_declIds, ← subtree, mem_subtree]
      constructor
      · rintro ⟨hdown, hne⟩
        exact (List.mem_cons.1 (hc.2 (.inr hdown))).resolve_left hne
      · intro hmem
        have hne : c ≠ d := fun he => hself (he ▸ hmem)
        exact ⟨(hc.1 (List.mem_cons_of_mem d hmem)).resolve_left hne, hne⟩
  | false =>
      refine ⟨1, [], ?_, ?_⟩
      · simp [Discovery.turn, Discovery.start, childrenOf_of_absent hd, Discovery.fresh,
          Discovery.stack]
      · rw [descendants, subtree, explore_cons_of_not_mem (not_mem_declIds hd), explore_nil,
          List.tail_nil]

/-! ## Chains -/

/-- The way up goes from parent to parent, as far as it goes. -/
theorem isChain_lineage {nodes : List DeclId} :
    (explore .depthFirst (fun c => (g.parentOf? c).toList) nodes [d]).IsChain g.Within := by
  induction hlen : nodes.length using Nat.strong_induction_on generalizing nodes d with
  | _ n ih =>
      by_cases hd : d ∈ nodes
      · have hshort := List.length_erase_of_mem hd
        have hpos := List.length_pos_of_mem hd
        rw [explore_cons_of_mem hd]
        cases hp : g.parentOf? d with
        | none => simp [Strategy.join]
        | some p =>
            show List.IsChain g.Within (d :: explore .depthFirst _ (nodes.erase d) [p])
            have hrest : (explore .depthFirst (fun c => (g.parentOf? c).toList) (nodes.erase d)
                [p]).IsChain g.Within := ih _ (by omega) rfl
            by_cases hmem : p ∈ nodes.erase d
            · rw [explore_cons_of_mem hmem] at hrest ⊢
              exact List.isChain_cons_cons.2 ⟨hp, hrest⟩
            · rw [explore_cons_of_not_mem hmem, explore_nil]
              exact List.isChain_singleton d
      · rw [explore_cons_of_not_mem hd, explore_nil]
        exact List.isChain_nil

/-- Where nothing on the way up encloses itself, the way ends at a declaration without parent. -/
theorem exists_getLast_lineage {nodes : List DeclId} (hn : nodes.Nodup)
    (hin : ∀ a, Relation.ReflTransGen g.Within d a → a ∈ nodes)
    (hacyclic : ∀ a, Relation.ReflTransGen g.Within d a → ¬ Relation.TransGen g.Within a a) :
    ∃ t, (explore .depthFirst (fun c => (g.parentOf? c).toList) nodes [d]).getLast? = some t ∧
      g.parentOf? t = none ∧ t ∈ nodes := by
  induction hlen : nodes.length using Nat.strong_induction_on generalizing nodes d with
  | _ n ih =>
      have hd : d ∈ nodes := hin d .refl
      have hshort := List.length_erase_of_mem hd
      have hpos := List.length_pos_of_mem hd
      rw [explore_cons_of_mem hd]
      cases hp : g.parentOf? d with
      | none => exact ⟨d, by simp [Strategy.join], hp, hd⟩
      | some p =>
          -- nothing further up is the declaration itself
          have hin' : ∀ a, Relation.ReflTransGen g.Within p a → a ∈ nodes.erase d := by
            intro a ha
            refine hn.mem_erase_iff.2 ⟨?_, hin a (.head hp ha)⟩
            rintro rfl
            exact hacyclic a .refl (.head' hp ha)
          obtain ⟨t, ht, htp, htn⟩ := ih _ (by omega) (hn.erase d) hin'
            (fun a ha => hacyclic a (.head hp ha)) rfl
          refine ⟨t, ?_, htp, List.mem_of_mem_erase htn⟩
          show (d :: explore .depthFirst _ (nodes.erase d) [p]).getLast? = some t
          rw [List.getLast?_cons, ht]
          rfl

/-- What the walks up and down the tree of declarations find. -/
structure Ancestry (g : Graph) : Prop where
  /-- The walk from parent to parent ends, with the ancestors in the order of the walk. -/
  climbs : ∀ d, ∃ n, (Discovery.turn Discovery.queue fun c => (g.parentOf? c).toList)^[n] (.start d) =
    ⟨d :: g.ancestors d, []⟩
  /-- The walk from children to children ends, with the descendants in some order. -/
  gathers : ∀ d, ∃ n below,
    (Discovery.turn Discovery.stack g.childrenOf)^[n] (.start d) = ⟨d :: below, []⟩ ∧
      g.descendants d = g.sortedDeclarations below
  once : ∀ d, (g.ancestors d).Nodup ∧ (g.descendants d).Nodup
  never_start : ∀ d, d ∉ g.ancestors d ∧ d ∉ g.descendants d
  above : ∀ d a, a ∈ g.ancestors d ↔ a ≠ d ∧ Relation.TransGen g.Within d a
  converse : ∀ a d, a ∈ g.ancestors d ↔ d ∈ g.descendants a
  /-- Where nothing on the way up encloses itself, the ancestors are the chain of parents, up to a
  root. -/
  chain : ∀ d, g.hasDeclaration d = true →
    (∀ a, Relation.ReflTransGen g.Within d a → ¬ Relation.TransGen g.Within a a) →
    List.IsChain g.Within (d :: g.ancestors d) ∧ g.parentOf? (g.topLevelAncestor d) = none ∧
      g.topLevelAncestor d ∈ g.roots.toList

theorem Seated.ancestry (hs : g.Seated) (hr : g.Rooted) : g.Ancestry where
  climbs := hs.exists_turns_ancestors
  gathers := hr.exists_turns_descendants
  once d := ⟨(nodup_explore nodup_declIds).tail, nodup_sortByKey⟩
  never_start d := ⟨fun h => (mem_ancestors.1 h).2 rfl, fun h => (mem_descendants.1 h).2 rfl⟩
  above _ _ := hs.mem_ancestors_iff_transGen
  converse _ _ := hs.mem_ancestors_iff hr
  chain d hd hacyclic := by
    have hchain : List.IsChain g.Within (g.lineage d) := isChain_lineage
    have hin : ∀ a, Relation.ReflTransGen g.Within d a → a ∈ g.declIds := by
      intro a ha
      rcases ha.cases_tail with rfl | ⟨b, -, hb⟩
      · exact mem_declIds.2 hd
      · exact mem_declIds.2 (hs.parent_live hb)
    obtain ⟨t, ht, hnone, htlive⟩ := exists_getLast_lineage nodup_declIds hin hacyclic
    have htop : g.topLevelAncestor d = t := by
      rw [← lineage, cons_ancestors hd, List.getLast?_cons] at ht
      exact Option.some.inj ht
    rw [cons_ancestors hd] at hchain
    rw [htop]
    exact ⟨hchain, hnone, hs.root t (mem_declIds.1 htlive) hnone⟩

/-- **Ancestors and descendants are converse after every history**, and where parents make no circle,
the ancestors are the chain up to a root. -/
theorem ancestry_of_stored (hg : g.Stored) : g.Ancestry := hg.seated.ancestry hg.rooted

/-- A class is moved into its own method, a method of another class has a parameter, and a parameter is
added to the very handle that it gets. -/
def loopAndChain : Graph :=
  let symbol (kind : Kind) (usr : String) (line : Nat) : Symbol :=
    { kind, usrs := .singleton usr, location := ⟨⟨"a.swift"⟩, line, 1⟩ }
  [ .addDeclaration (symbol .classType "A" 1) none,
    .addDeclaration (symbol .instanceMethod "A.f" 2) (some ⟨0⟩),
    .addDeclaration (symbol .classType "A.f.T" 3) (some ⟨1⟩),
    .moveDeclaration ⟨0⟩ ⟨1⟩,
    .addDeclaration (symbol .classType "B" 10) none,
    .addDeclaration (symbol .instanceMethod "B.g" 11) (some ⟨3⟩),
    .addUnusedParameter (symbol .parameter "B.g.x" 12) ⟨4⟩,
    .addUnusedParameter (symbol .parameter "y" 20) ⟨6⟩ ].foldl Operation.apply ∅

theorem ancestry_of_stored_loopAndChain : loopAndChain.Ancestry ∧
    loopAndChain.ancestors ⟨2⟩ = [⟨1⟩, ⟨0⟩] ∧ loopAndChain.ancestors ⟨0⟩ = [⟨1⟩] ∧
    loopAndChain.descendants ⟨0⟩ = [⟨1⟩, ⟨2⟩] ∧ loopAndChain.childrenOf ⟨6⟩ = [⟨6⟩] ∧
    loopAndChain.descendants ⟨6⟩ = [] ∧
    List.IsChain loopAndChain.Within [⟨5⟩, ⟨4⟩, ⟨3⟩] ∧ loopAndChain.topLevelAncestor ⟨5⟩ = ⟨3⟩ := by
  have H : loopAndChain.Ancestry := ancestry_of_stored (Stored.empty.foldl_apply _)
  have hacyclic : ∀ a, Relation.ReflTransGen loopAndChain.Within ⟨5⟩ a →
      ¬ Relation.TransGen loopAndChain.Within a a := by
    -- on the way up from the parameter the handles go down
    have hdown : ∀ c ∈ [(⟨5⟩ : DeclId), ⟨4⟩, ⟨3⟩], ∀ p ∈ loopAndChain.parentOf? c,
        p ∈ [(⟨5⟩ : DeclId), ⟨4⟩, ⟨3⟩] ∧ p.index < c.index := by decide +kernel
    have hfar : ∀ {a c}, Relation.TransGen loopAndChain.Within c a →
        c ∈ [(⟨5⟩ : DeclId), ⟨4⟩, ⟨3⟩] → a ∈ [(⟨5⟩ : DeclId), ⟨4⟩, ⟨3⟩] ∧ a.index < c.index := by
      intro a c hup hc
      induction hup with
      | single hp => exact hdown c hc _ hp
      | tail _ hp ih =>
          obtain ⟨hmem, hlt⟩ := hdown _ ih.1 _ hp
          exact ⟨hmem, hlt.trans ih.2⟩
    intro a ha hloop
    have hmem : a ∈ [(⟨5⟩ : DeclId), ⟨4⟩, ⟨3⟩] := by
      rcases Relation.reflTransGen_iff_eq_or_transGen.1 ha with rfl | hup
      · exact List.mem_cons_self
      · exact (hfar hup List.mem_cons_self).1
    exact lt_irrefl _ (hfar hloop hmem).2
  obtain ⟨hchain, -, -⟩ := H.chain ⟨5⟩ (by decide +kernel) hacyclic
  have hup : loopAndChain.ancestors ⟨5⟩ = [⟨4⟩, ⟨3⟩] := by decide +kernel
  rw [hup] at hchain
  exact ⟨H, by decide +kernel, by decide +kernel, by decide +kernel, by decide +kernel,
    by decide +kernel, hchain, by decide +kernel⟩

end Deadwood.Graph
